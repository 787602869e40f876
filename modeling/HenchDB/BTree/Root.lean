import HenchDB.BTree.FixVisit

/-!
# Wrapping and collapsing the root

The two changes of the root pointer.  Wrapping puts a fresh internal node over
a full root, collapsing drops a root that has a single child.  Neither touches
a body, and both keep the invariant and the stored map.
-/

namespace HenchDB.BTree

/-- The tree stores the map `m`. -/
def Stores (t : BTree) (m : Contents) : Prop := ∃ g, Inv t g ∧ Holds t g m

theorem stores_new : Stores new fun _ => none := ⟨freshSpans, inv_new, holds_new⟩

/-- The counters do not matter. -/
theorem Stores.congr {t t' : BTree} {m : Contents} (h : Stores t m) (hnodes : t'.nodes = t.nodes)
    (hroot : t'.root = t.root) : Stores t' m := by
  obtain ⟨g, hinv, hm⟩ := h
  exact ⟨g, hinv.congr hnodes hroot, hm.congr hnodes⟩

/-! ## Root changes -/

def withRoot (g : Spans) (n : NodeId) (l : Nat) : Spans :=
  fun n' => if n' = n then some ⟨⊥, ⊤, l⟩ else g n'

def withoutRoot (g : Spans) (n : NodeId) : Spans := fun n' => if n' = n then none else g n'

section Roots

variable {t : BTree} {g : Spans} {m : Contents}

variable {n c : NodeId} {s : Span} {l : Nat} {b : NodeBody}

theorem withRoot_of_live (h : Inv t g) (hn : g n = some s) :
    withRoot g t.nodes.length l n = some s := by
  have hne : n ≠ t.nodes.length := fun he => absurd (h.lt_length hn) (by simp [he])
  simp [withRoot, hne, hn]

theorem withRoot_cases {r : NodeId} (h : withRoot g r l n = some s) :
    (n = r ∧ s = ⟨⊥, ⊤, l⟩) ∨ (n ≠ r ∧ g n = some s) := by
  unfold withRoot at h
  split at h
  · next heq =>
    cases h
    exact Or.inl ⟨heq, rfl⟩
  · next hne => exact Or.inr ⟨hne, h⟩

/-- Pointers to live nodes survive when live nodes keep their spans. -/
theorem BodyOk.mono {g' : Spans} (h : ∀ n s', g n = some s' → s'.level ≤ s.level → g' n = some s')
    (hb : BodyOk g s b) :
    BodyOk g' s b := by
  cases hb with
  | @leaf E next h0 h1 h2 h3 =>
    refine .leaf h0 h1 h2 ?_
    cases next with
    | none => exact h3
    | some z =>
      obtain ⟨hz, hgz⟩ := h3
      exact ⟨hz, h z _ hgz (Nat.zero_le _)⟩
  | @internal keys children l hl hseg =>
    refine .internal hl (hseg.congr fun c hc => ?_)
    obtain ⟨sc, hgc, hlc, -⟩ := hseg.mem c hc
    rw [hgc]
    exact h c sc hgc (by omega)

theorem body_wrapRoot_of_live (h : Inv t g) (hn : g n = some s) :
    t.wrapRoot.body n = t.body n :=
  List.getElem?_append_left (h.lt_length hn)

/-- Wrapping the root adds one node above everything. -/
theorem Inv.wrapRoot (h : Inv t g) :
    ∃ l, g t.root = some ⟨⊥, ⊤, l⟩ ∧ Inv t.wrapRoot (withRoot g t.nodes.length (l + 1)) := by
  obtain ⟨l, hr, htop⟩ := h.root
  have hself : withRoot g t.nodes.length (l + 1) t.nodes.length = some ⟨⊥, ⊤, l + 1⟩ := by
    simp [withRoot]
  refine ⟨l, hr, ⟨l + 1, hself, fun n s hn => ?_⟩, fun n s hn => ?_, fun n s hn => ?_, ?_⟩
  · rcases withRoot_cases hn with ⟨-, rfl⟩ | ⟨-, hn'⟩
    · exact le_rfl
    · exact (htop n s hn').trans (Nat.le_succ l)
  · rcases withRoot_cases hn with ⟨rfl, rfl⟩ | ⟨-, hn'⟩
    · refine ⟨newInternal [] [t.root], List.getElem?_concat_length, .internal rfl ?_⟩
      exact ⟨withRoot_of_live h hr, bot_lt_top, trivial⟩
    · obtain ⟨b, hb, hok⟩ := h.body n s hn'
      exact ⟨b, (body_wrapRoot_of_live h hn').trans hb,
        hok.mono fun n' s' hn' _ => withRoot_of_live h hn'⟩
  · rcases withRoot_cases hn with ⟨-, rfl⟩ | ⟨-, hn'⟩
    · exact bot_lt_top
    · exact h.proper n s hn'
  · intro n n' s s' hn hn' hl h1 h2
    rcases withRoot_cases hn with ⟨rfl, rfl⟩ | ⟨hne, hgn⟩
    · rcases withRoot_cases hn' with ⟨rfl, -⟩ | ⟨-, hgn'⟩
      · rfl
      · have hle := htop n' s' hgn'
        simp only at hl
        omega
    · rcases withRoot_cases hn' with ⟨rfl, rfl⟩ | ⟨-, hgn'⟩
      · have hle := htop n s hgn
        simp only at hl
        omega
      · exact h.apart n n' s s' hgn hgn' hl h1 h2

theorem Holds.wrapRoot (h : Inv t g) (hm : Holds t g m) :
    Holds t.wrapRoot (withRoot g t.nodes.length l) m := by
  intro n s E next hn hb k hk
  rcases withRoot_cases hn with ⟨rfl, -⟩ | ⟨-, hn'⟩
  · have hroot : t.wrapRoot.body t.nodes.length = some (newInternal [] [t.root]) :=
      List.getElem?_concat_length
    rw [hroot] at hb
    simp [newInternal, leafBody, newLeafWith] at hb
  · rw [body_wrapRoot_of_live h hn'] at hb
    exact hm n s E next hn' hb k hk

theorem Stores.wrapRoot (h : Stores t m) : Stores t.wrapRoot m := by
  obtain ⟨g, hinv, hm⟩ := h
  obtain ⟨l, -, hinv'⟩ := hinv.wrapRoot
  exact ⟨_, hinv', hm.wrapRoot hinv⟩

theorem singleChild_eq (h : singleChild b = some c) :
    ∃ keys heads, b = .internal keys heads [c] := by
  unfold singleChild at h
  split at h
  · cases h
    exact ⟨_, _, rfl⟩
  · cases h

theorem withoutRoot_cases {r : NodeId} (h : withoutRoot g r n = some s) :
    n ≠ r ∧ g n = some s := by
  unfold withoutRoot at h
  split at h
  · cases h
  · next hne => exact ⟨hne, h⟩

theorem Inv.singleChild_span (h : Inv t g) (hb : t.body t.root = some b)
    (hc : singleChild b = some c) :
    ∃ l, g t.root = some ⟨⊥, ⊤, l + 1⟩ ∧ b = newInternal [] [c] ∧ g c = some ⟨⊥, ⊤, l⟩ ∧
      ∀ n s, g n = some s → s.level ≤ l + 1 := by
  obtain ⟨lr, hr, htop⟩ := h.root
  obtain ⟨keys, heads, rfl⟩ := singleChild_eq hc
  obtain ⟨b', hb', hok⟩ := h.body t.root _ hr
  rw [hb, Option.some.injEq] at hb'
  generalize hgen : NodeBody.internal keys heads [c] = b at hb' hok
  subst hb'
  cases hok with
  | leaf => simp [leafBody, newLeafWith] at hgen
  | @internal keys' children l hl hseg =>
    simp only [newInternal, NodeBody.internal.injEq] at hgen
    obtain ⟨rfl, rfl, rfl⟩ := hgen
    have hlen := hseg.length_eq
    rw [length_fencesOf, List.length_singleton] at hlen
    obtain rfl : keys = [] := List.length_eq_zero_iff.mp (by omega)
    simp only at hl
    subst hl
    exact ⟨l, hr, rfl, hseg.1, htop⟩

theorem Inv.collapse (h : Inv t g) (hb : t.body t.root = some b) (hc : singleChild b = some c) :
    Inv (t.collapseTo c) (withoutRoot g t.root) := by
  obtain ⟨l, hr, -, hgc, htop⟩ := h.singleChild_span hb hc
  -- the root is the only node at its level
  have honly : ∀ n s, g n = some s → s.level = l + 1 → n = t.root := fun n s hn hl =>
    h.apart n t.root s _ hn hr hl ((h.proper n s hn).trans_le le_top |>.trans_le le_rfl)
      (bot_le.trans_lt (h.proper n s hn))
  have hlow : ∀ n s, g n = some s → n ≠ t.root → s.level ≤ l := by
    intro n s hn hne
    rcases Nat.lt_or_eq_of_le (htop n s hn) with hlt | heq
    · omega
    · exact absurd (honly n s hn heq) hne
  have hkeep : ∀ n s, g n = some s → s.level ≤ l → withoutRoot g t.root n = some s := by
    intro n s hn hle
    have hne : n ≠ t.root := by
      rintro rfl
      rw [hr, Option.some.injEq] at hn
      subst hn
      simp at hle
    simp [withoutRoot, hne, hn]
  refine ⟨⟨l, hkeep c _ hgc le_rfl, fun n s hn => ?_⟩, fun n s hn => ?_, fun n s hn => ?_, ?_⟩
  · obtain ⟨hne, hn'⟩ := withoutRoot_cases hn
    exact hlow n s hn' hne
  · obtain ⟨hne, hn'⟩ := withoutRoot_cases hn
    obtain ⟨b', hb', hok⟩ := h.body n s hn'
    exact ⟨b', hb', hok.mono fun n' s' hgn' hle => hkeep n' s' hgn' (hle.trans (hlow n s hn' hne))⟩
  · exact h.proper n s (withoutRoot_cases hn).2
  · intro n n' s s' hn hn'
    exact h.apart n n' s s' (withoutRoot_cases hn).2 (withoutRoot_cases hn').2

theorem Holds.collapse (hm : Holds t g m) :
    Holds (t.collapseTo c) (withoutRoot g t.root) m :=
  fun n s E next hn hb k hk => hm n s E next (withoutRoot_cases hn).2 hb k hk

end Roots

end HenchDB.BTree
