import Mathlib.Order.WithBot
import HenchDB.BTree.Ops

/-!
# Spans and the tree invariant

Every live node is responsible for a half-open interval `(lo, hi]` of keys at
a level of the tree.  The assignment of intervals to nodes is not stored
anywhere; it is the ghost state `Spans` that the invariant `Inv` quantifies
over.  The invariant is local: it relates the body of a node to its own span
and to the spans of the nodes it points to.  A separator is the upper end of
the span of the child on its left, so an internal node tiles its span by the
spans of its children (`Seg`).  Spans of one level are pairwise apart, which
makes the parent of a node and the left neighbour of a leaf unique.

`Holds` relates a tree to the map it stores: inside its span a leaf agrees
with the map.
-/

namespace HenchDB.BTree

/-! ## Fences -/

/-- A key or one of the two ends of the key order. -/
abbrev Fence := WithBot (WithTop Bytes)

def fence (k : Bytes) : Fence := ((k : WithTop Bytes) : WithBot (WithTop Bytes))

variable {a b : Bytes}

@[simp] theorem fence_lt_fence : fence a < fence b ↔ a < b := by
  unfold fence
  rw [WithBot.coe_lt_coe, WithTop.coe_lt_coe]

@[simp] theorem fence_le_fence : fence a ≤ fence b ↔ a ≤ b := by
  unfold fence
  rw [WithBot.coe_le_coe, WithTop.coe_le_coe]

@[simp] theorem bot_lt_fence (k : Bytes) : (⊥ : Fence) < fence k := WithBot.bot_lt_coe _

@[simp] theorem fence_lt_top (k : Bytes) : fence k < (⊤ : Fence) := by
  unfold fence
  exact WithBot.coe_lt_coe.mpr (WithTop.coe_lt_top k)

@[simp] theorem fence_inj : fence a = fence b ↔ a = b := by
  rw [le_antisymm_iff, fence_le_fence, fence_le_fence, ← le_antisymm_iff]

/-! ## Spans -/

/-- The keys `(lo, hi]` a node is responsible for, and its height. -/
structure Span where
  lo : Fence
  hi : Fence
  level : Nat

def Span.Covers (s : Span) (k : Bytes) : Prop := s.lo < fence k ∧ fence k ≤ s.hi

abbrev Spans := NodeId → Option Span

/-- `Seg g l lo fs cs`: the nodes `cs` tile the keys above `lo` at level `l`,
with the fences `fs` as their upper ends. -/
def Seg (g : Spans) (l : Nat) : Fence → List Fence → List NodeId → Prop
  | _, [], [] => True
  | lo, f :: fs, c :: cs => g c = some ⟨lo, f, l⟩ ∧ lo < f ∧ Seg g l f fs cs
  | _, _, _ => False

section Seg

variable {g g' : Spans} {l : Nat}

theorem Seg.length_eq : ∀ {lo : Fence} {fs : List Fence} {cs : List NodeId},
    Seg g l lo fs cs → fs.length = cs.length
  | _, [], [], _ => rfl
  | _, [], _ :: _, h => h.elim
  | _, _ :: _, [], h => h.elim
  | _, _ :: _, _ :: _, h => congrArg (· + 1) h.2.2.length_eq

theorem Seg.append : ∀ {lo : Fence} {fs fs' : List Fence} {cs cs' : List NodeId},
    Seg g l lo fs cs → Seg g l (fs.getLastD lo) fs' cs' → Seg g l lo (fs ++ fs') (cs ++ cs')
  | _, [], _, [], _, _, h' => h'
  | _, [], _, _ :: _, _, h, _ => h.elim
  | _, _ :: _, _, [], _, h, _ => h.elim
  | lo, f :: fs, _, _ :: _, _, h, h' => by
    refine ⟨h.1, h.2.1, h.2.2.append ?_⟩
    cases fs with
    | nil => exact h'
    | cons f' fs => simpa [List.getLastD] using h'

theorem Seg.of_append : ∀ {lo : Fence} {fs fs' : List Fence} {cs cs' : List NodeId},
    fs.length = cs.length → Seg g l lo (fs ++ fs') (cs ++ cs') →
      Seg g l lo fs cs ∧ Seg g l (fs.getLastD lo) fs' cs'
  | _, [], _, [], _, _, h => ⟨trivial, h⟩
  | _, [], _, _ :: _, _, hlen, _ => by simp at hlen
  | _, _ :: _, _, [], _, hlen, _ => by simp at hlen
  | lo, f :: fs, fs', _ :: cs, cs', hlen, h => by
    obtain ⟨h1, h2, h3⟩ := h
    have hlen' : fs.length = cs.length := by simpa using hlen
    obtain ⟨h4, h5⟩ := Seg.of_append hlen' h3
    refine ⟨⟨h1, h2, h4⟩, ?_⟩
    cases fs with
    | nil => exact h5
    | cons f' fs => simpa [List.getLastD] using h5

theorem Seg.congr : ∀ {lo : Fence} {fs : List Fence} {cs : List NodeId},
    Seg g l lo fs cs → (∀ c ∈ cs, g' c = g c) → Seg g' l lo fs cs
  | _, [], [], _, _ => trivial
  | _, [], _ :: _, h, _ => h.elim
  | _, _ :: _, [], h, _ => h.elim
  | _, _ :: _, c :: _, h, heq =>
    ⟨(heq c (List.mem_cons_self ..)).trans h.1, h.2.1,
      h.2.2.congr fun c' hc' => heq c' (List.mem_cons_of_mem _ hc')⟩

/-- The tiles of a segment lie between its ends. -/
theorem Seg.mem : ∀ {lo : Fence} {fs : List Fence} {cs : List NodeId},
    Seg g l lo fs cs → ∀ c ∈ cs, ∃ s, g c = some s ∧ s.level = l ∧ lo ≤ s.lo ∧ s.lo < s.hi ∧
      s.hi ≤ fs.getLastD lo
  | _, [], [], _, _, hc => by simp at hc
  | _, [], _ :: _, h, _, _ => h.elim
  | _, _ :: _, [], h, _, _ => h.elim
  | lo, f :: fs, c :: cs, h, c', hc' => by
    -- the last fence is at or above the first one
    have hlast : f ≤ (f :: fs).getLastD lo := by
      cases cs with
      | nil =>
        have hnil : fs = [] := List.length_eq_zero_iff.mp h.2.2.length_eq
        subst hnil
        exact le_rfl
      | cons c2 cs =>
        obtain ⟨s, -, -, h1, h2, h3⟩ := h.2.2.mem c2 (List.mem_cons_self ..)
        cases fs with
        | nil => exact h.2.2.elim
        | cons f2 fs => exact h1.trans (h2.le.trans h3)
    rcases List.mem_cons.mp hc' with rfl | hmem
    · exact ⟨_, h.1, rfl, le_rfl, h.2.1, hlast⟩
    · obtain ⟨s, h1, h2, h3, h4, h5⟩ := h.2.2.mem c' hmem
      refine ⟨s, h1, h2, h.2.1.le.trans h3, h4, ?_⟩
      cases fs with
      | nil =>
        have hnil : cs = [] := List.length_eq_zero_iff.mp h.2.2.length_eq.symm
        simp [hnil] at hmem
      | cons f2 fs => exact h5

theorem Seg.sorted : ∀ {lo : Fence} {fs : List Fence} {cs : List NodeId},
    Seg g l lo fs cs → (lo :: fs).Pairwise (· < ·)
  | _, [], _, _ => List.pairwise_singleton _ _
  | _, _ :: _, [], h => h.elim
  | lo, f :: fs, _ :: _, h => by
    have ih := h.2.2.sorted
    refine List.pairwise_cons.mpr ⟨fun f' hf' => ?_, ih⟩
    rcases List.mem_cons.mp hf' with rfl | hmem
    · exact h.2.1
    · exact h.2.1.trans ((List.pairwise_cons.mp ih).1 f' hmem)

/-- A segment cut at the child in position `i`. -/
theorem Seg.cut {lo : Fence} {fs : List Fence} {cs : List NodeId} (h : Seg g l lo fs cs)
    {i : Nat} (hi : i < cs.length) :
    ∃ F1 f F2 C1 c C2, fs = F1 ++ f :: F2 ∧ cs = C1 ++ c :: C2 ∧ F1.length = i ∧
      C1.length = i ∧ Seg g l lo F1 C1 ∧ g c = some ⟨F1.getLastD lo, f, l⟩ ∧
      F1.getLastD lo < f ∧ Seg g l f F2 C2 := by
  have hlen := h.length_eq
  have hfs : fs = fs.take i ++ fs[i] :: fs.drop (i + 1) := by simp
  have hcs : cs = cs.take i ++ cs[i] :: cs.drop (i + 1) := by simp
  have h1 : (fs.take i).length = i := by simp; omega
  have h2 : (cs.take i).length = i := by simp; omega
  have hseg : Seg g l lo (fs.take i ++ fs[i] :: fs.drop (i + 1))
      (cs.take i ++ cs[i] :: cs.drop (i + 1)) := by
    rw [← hfs, ← hcs]
    exact h
  obtain ⟨hleft, hright⟩ := hseg.of_append (h1.trans h2.symm)
  exact ⟨_, _, _, _, _, _, hfs, hcs, h1, h2, hleft, hright.1, hright.2.1, hright.2.2⟩

/-- The children of a segment are distinct nodes. -/
theorem Seg.nodup : ∀ {lo : Fence} {fs : List Fence} {cs : List NodeId},
    Seg g l lo fs cs → cs.Nodup
  | _, [], [], _ => List.nodup_nil
  | _, [], _ :: _, h => h.elim
  | _, _ :: _, [], h => h.elim
  | lo, f :: fs, c :: cs, h => by
    refine List.nodup_cons.mpr ⟨fun hmem => ?_, h.2.2.nodup⟩
    obtain ⟨s, h1, -, h2, -, -⟩ := h.2.2.mem c hmem
    rw [h.1, Option.some.injEq] at h1
    subst h1
    exact absurd h.2.1 (not_lt.mpr h2)

end Seg

/-- The fences of the children of an internal node. -/
def fencesOf (keys : List Bytes) (hi : Fence) : List Fence := keys.map fence ++ [hi]

theorem sorted_of_fences {lo hi : Fence} {keys : List Bytes}
    (h : (lo :: fencesOf keys hi).Pairwise (· < ·)) : keys.Pairwise (· < ·) := by
  have h1 := (List.pairwise_append.mp (List.pairwise_cons.mp h).2).1
  rw [List.pairwise_map] at h1
  exact h1.imp fun hab => fence_lt_fence.mp hab

/-! ## Well-formed bodies -/

def leafBody (E : List (Bytes × Bytes)) (next : Option NodeId) : NodeBody :=
  newLeafWith (E.map Prod.fst) (E.map Prod.snd) next

/-- The `next` pointer of a leaf leads to the leaf that starts at its upper end. -/
def NextOk (g : Spans) (hi : Fence) (next : Option NodeId) : Prop :=
  match next with
  | none => hi = ⊤
  | some m => ∃ h', g m = some ⟨hi, h', 0⟩

inductive BodyOk (g : Spans) (s : Span) : NodeBody → Prop where
  | leaf {E : List (Bytes × Bytes)} {next : Option NodeId} :
      s.level = 0 →
      (E.map Prod.fst).Pairwise (· < ·) →
      (∀ k ∈ E.map Prod.fst, s.Covers k) →
      NextOk g s.hi next →
      BodyOk g s (leafBody E next)
  | internal {keys : List Bytes} {children : List NodeId} {l : Nat} :
      s.level = l + 1 →
      Seg g l s.lo (fencesOf keys s.hi) children →
      BodyOk g s (newInternal keys children)

theorem BodyOk.leaf_inv {g : Spans} {s : Span} {E : List (Bytes × Bytes)}
    {next : Option NodeId} (h : BodyOk g s (leafBody E next)) :
    s.level = 0 ∧ (E.map Prod.fst).Pairwise (· < ·) ∧ (∀ k ∈ E.map Prod.fst, s.Covers k) ∧
      NextOk g s.hi next := by
  generalize hb : leafBody E next = b at h
  cases h with
  | leaf h1 h2 h3 h4 =>
    simp only [leafBody, newLeafWith, NodeBody.leaf.injEq] at hb
    obtain ⟨hk, -, -, hn⟩ := hb
    rw [hk, hn]
    exact ⟨h1, h2, h3, h4⟩
  | internal => simp [leafBody, newLeafWith, newInternal] at hb

theorem BodyOk.internal_inv {g : Spans} {s : Span} {keys : List Bytes}
    {children : List NodeId} (h : BodyOk g s (newInternal keys children)) :
    ∃ l, s.level = l + 1 ∧ Seg g l s.lo (fencesOf keys s.hi) children := by
  generalize hb : newInternal keys children = b at h
  cases h with
  | leaf => simp [leafBody, newLeafWith, newInternal] at hb
  | internal h1 h2 =>
    simp only [newInternal, NodeBody.internal.injEq] at hb
    obtain ⟨hk, -, hc⟩ := hb
    rw [hk, hc]
    exact ⟨_, h1, h2⟩

/-! ## The invariant -/

/-- The tree is well formed for the spans `g`. -/
structure Inv (t : BTree) (g : Spans) : Prop where
  /-- The root covers all keys and nothing is above it. -/
  root : ∃ l, g t.root = some ⟨⊥, ⊤, l⟩ ∧ ∀ n s, g n = some s → s.level ≤ l
  body : ∀ n s, g n = some s → ∃ b, t.body n = some b ∧ BodyOk g s b
  proper : ∀ n s, g n = some s → s.lo < s.hi
  /-- Live nodes of one level do not overlap. -/
  apart : ∀ n m s s', g n = some s → g m = some s' → s.level = s'.level →
    s.lo < s'.hi → s'.lo < s.hi → n = m

/-- The map a tree stores. -/
abbrev Contents := Bytes → Option Bytes

/-- Inside its span every leaf agrees with the map. -/
def Holds (t : BTree) (g : Spans) (m : Contents) : Prop :=
  ∀ n s E next, g n = some s → t.body n = some (leafBody E next) →
    ∀ k, s.Covers k → E.lookup k = m k

namespace Inv

variable {t : BTree} {g : Spans}

variable {n : NodeId} {s : Span}

theorem lt_length (h : Inv t g) (hn : g n = some s) :
    n < t.nodes.length := by
  obtain ⟨b, hb, -⟩ := h.body n s hn
  exact (List.getElem?_eq_some_iff.mp hb).1

/-- Nodes past the end of the heap are not live. -/
theorem fresh (h : Inv t g) (hn : t.nodes.length ≤ n) : g n = none := by
  rcases hg : g n with _ | s
  · rfl
  · exact absurd (h.lt_length hg) (Nat.not_lt.mpr hn)

theorem seg (h : Inv t g) {keys : List Bytes} {children : List NodeId} (hn : g n = some s)
    (hb : t.body n = some (newInternal keys children)) :
    ∃ l, s.level = l + 1 ∧ Seg g l s.lo (fencesOf keys s.hi) children := by
  obtain ⟨b, hb', hok⟩ := h.body n s hn
  rw [hb, Option.some.injEq] at hb'
  subst hb'
  exact hok.internal_inv

theorem parent_unique (h : Inv t g) {p q c : NodeId} {sp sq : Span} {pk qk : List Bytes}
    {pc qc : List NodeId} (hp : g p = some sp) (hq : g q = some sq)
    (hpb : t.body p = some (newInternal pk pc)) (hqb : t.body q = some (newInternal qk qc))
    (hcp : c ∈ pc) (hcq : c ∈ qc) : p = q := by
  obtain ⟨lp, hlp, hsegp⟩ := h.seg hp hpb
  obtain ⟨lq, hlq, hsegq⟩ := h.seg hq hqb
  obtain ⟨s, hs, hl, h1, h2, h3⟩ := hsegp.mem c hcp
  obtain ⟨s', hs', hl', h1', h2', h3'⟩ := hsegq.mem c hcq
  rw [hs, Option.some.injEq] at hs'
  subst hs'
  have hp3 : s.hi ≤ sp.hi := by simpa [fencesOf] using h3
  have hq3 : s.hi ≤ sq.hi := by simpa [fencesOf] using h3'
  refine h.apart p q sp sq hp hq ?_ ?_ ?_
  · rw [hlp, hlq, ← hl, ← hl']
  · exact h1.trans_lt (h2.trans_le hq3)
  · exact h1'.trans_lt (h2.trans_le hp3)

/-- Two leaves with the same upper end are the same leaf. -/
theorem leaf_unique_hi (h : Inv t g) {m : NodeId} {s' : Span} (hn : g n = some s)
    (hm : g m = some s') (hl : s.level = s'.level) (hhi : s.hi = s'.hi) : n = m :=
  h.apart n m s s' hn hm hl (hhi ▸ h.proper n s hn) (hhi ▸ h.proper m s' hm)

end Inv

/-! ## The fresh tree -/

/-- The spans of `BTree::new`: its only leaf covers everything. -/
def freshSpans : Spans := fun n => if n = 0 then some ⟨⊥, ⊤, 0⟩ else none

theorem inv_new : Inv new freshSpans where
  root := ⟨0, rfl, by
    intro n s hn
    unfold freshSpans at hn
    split at hn
    · cases hn; exact le_rfl
    · cases hn⟩
  body := by
    intro n s hn
    unfold freshSpans at hn
    split at hn
    next h0 =>
      subst h0
      cases hn
      exact ⟨leafBody [] none, rfl, .leaf rfl List.Pairwise.nil (by simp) rfl⟩
    next => cases hn
  proper := by
    intro n s hn
    unfold freshSpans at hn
    split at hn
    · cases hn; exact bot_lt_top
    · cases hn
  apart := by
    intro n m s s' hn hm _ _ _
    unfold freshSpans at hn hm
    split at hn
    next hn0 =>
      split at hm
      next hm0 => exact hn0.trans hm0.symm
      next => cases hm
    next => cases hn

theorem holds_new : Holds new freshSpans fun _ => none := by
  intro n s E next hn hb k _
  unfold freshSpans at hn
  split at hn
  next h0 =>
    subst h0
    have hE : E.map Prod.fst = [] := by
      simp only [body, new, leafBody, newLeafWith, List.getElem?_cons_zero, Option.some.injEq,
        NodeBody.leaf.injEq] at hb
      exact hb.1.symm
    rw [List.map_eq_nil_iff.mp hE]
    rfl
  next => cases hn

end HenchDB.BTree
