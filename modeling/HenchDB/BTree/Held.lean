import HenchDB.BTree.Task

/-!
# Holding the pointer of a node

A reader or writer that holds the pointer of a node without its latch is on
the right track when the node is live and its span serves its purpose, or when
the node is a swapped-out root that leads to such a node (`Leads`).
`ExposedAt` names the nodes it then depends on.
-/

namespace HenchDB.BTree

/-- Who holds `n` depends on `x`: `x` is `n` itself or what a chain of
swapped-out roots leads to. -/
inductive ExposedAt (t : BTree) (retired : List NodeId) : NodeId → NodeId → Prop where
  | here (n : NodeId) : ExposedAt t retired n n
  | through {n c x : NodeId} : n ∈ retired → t.body n = some (newInternal [] [c]) →
      ExposedAt t retired c x → ExposedAt t retired n x

/-- The node is live with a span that serves `P`, or a swapped-out root that
leads to one. -/
inductive Leads (t : BTree) (retired : List NodeId) (g : Spans) (P : Span → Prop) :
    NodeId → Prop where
  | live {n : NodeId} {sn : Span} : g n = some sn → P sn → Leads t retired g P n
  | retired {n c : NodeId} : n ∈ retired → t.body n = some (newInternal [] [c]) →
      Leads t retired g P c → Leads t retired g P n

section Leads

variable {t t' : BTree} {retired retired' : List NodeId} {g g' : Spans} {P : Span → Prop}
  {n x : NodeId}

/-- Following a step of a writer, from what happens to the exposed nodes. -/
theorem Leads.transfer (h : Leads t retired g P n)
    (hr : ∀ z c, z ∈ retired → t.body z = some (newInternal [] [c]) →
      z ∈ retired' ∧ t'.body z = some (newInternal [] [c]))
    (hlive : ∀ x sx, ExposedAt t retired n x → g x = some sx → P sx →
      Leads t' retired' g' P x) : Leads t' retired' g' P n := by
  induction h with
  | live hn hP => exact hlive _ _ (.here _) hn hP
  | retired hret hb _ ih =>
    obtain ⟨hret', hb'⟩ := hr _ _ hret hb
    exact .retired hret' hb' (ih fun x sx hx => hlive x sx (.through hret hb hx))

/-- A live node leads nowhere but to itself. -/
theorem ExposedAt.eq_of_live (hdead : ∀ z ∈ retired, g z = none) {sn : Span}
    (hn : g n = some sn) (hx : ExposedAt t retired n x) : x = n := by
  cases hx with
  | here => rfl
  | through hret _ _ =>
    rw [hdead n hret] at hn
    cases hn

end Leads

end HenchDB.BTree
