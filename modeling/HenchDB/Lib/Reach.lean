import Mathlib.Logic.Relation
import Mathlib.Order.Bounds.Basic
import Mathlib.Data.Set.Card
import Mathlib.Tactic

/-!
# Depth-first walks

A walk starts from the successors of some roots and puts every node that it meets
into a set, together with what the node reaches, and passes over the nodes that
are in the set or among the roots.  `Covers` says what such a walk has done with
some of the nodes; it follows the way walks are put together: one part after the
other (`Covers.trans`), a node that is passed over (`Covers.skip`), a node that is
visited (`Covers.visit`).  A walk over all successors of the roots ends with the
least closed set (`Covers.eq_closure`), and a node that is visited leaves fewer
nodes to visit (`ncard_visit_lt`).
-/

namespace Reach

open Relation (ReflTransGen)

variable {α : Type*} {E : α → α → Prop} {F : α → Prop} {D P P₁ P₂ S S' : Set α} {s : α}

/-- A set that holds the roots and the successors of its nodes. -/
def Closed (E : α → α → Prop) (D S : Set α) : Prop := D ⊆ S ∧ ∀ x ∈ S, ∀ y, E x y → y ∈ S

/-- The nodes that the roots reach. -/
def closure (E : α → α → Prop) (D : Set α) : Set α := {y | ∃ x ∈ D, ReflTransGen E x y}

theorem closed_closure (E : α → α → Prop) (D : Set α) : Closed E D (closure E D) where
  left x hx := ⟨x, hx, .refl⟩
  right _ hx _ hxy := hx.elim fun d ⟨hd, hdx⟩ => ⟨d, hd, hdx.tail hxy⟩

theorem Closed.reaches (h : Closed E D S) {x y : α} (hx : x ∈ S) (hxy : ReflTransGen E x y) :
    y ∈ S := by
  induction hxy with
  | refl => exact hx
  | tail _ hyz ih => exact h.2 _ ih _ hyz

theorem isLeast_closure (E : α → α → Prop) (D : Set α) : IsLeast {S | Closed E D S} (closure E D) where
  left := closed_closure E D
  right _ hS _ hy := hy.elim fun _ ⟨hd, hdy⟩ => hS.reaches (hS.1 hd) hdy

/-- A walk over the nodes of `S` that began with the set `P` has ended with `P₁`; the
nodes that it visited pass `F`. -/
structure Covers (E : α → α → Prop) (F : α → Prop) (D P P₁ S : Set α) : Prop where
  mono : P ⊆ P₁
  reached : ∀ z ∈ P₁, z ∈ P ∨ ∃ s ∈ S, ReflTransGen E s z
  covered : S ⊆ D ∪ P₁
  closed : ∀ z ∈ P₁, z ∉ P → ∀ y, E z y → y ∈ D ∪ P₁
  passed : ∀ z ∈ P₁, z ∉ P → F z

namespace Covers

/-- Nodes that are in the set or among the roots. -/
theorem skip (h : S ⊆ D ∪ P) : Covers E F D P P S where
  mono := le_rfl
  reached _ hz := .inl hz
  covered := h
  closed _ hz hno := absurd hz hno
  passed _ hz hno := absurd hz hno

/-- One walk after the other. -/
theorem trans (h : Covers E F D P P₁ S) (h' : Covers E F D P₁ P₂ S') :
    Covers E F D P P₂ (S ∪ S') where
  mono := h.mono.trans h'.mono
  reached z hz := by
    rcases h'.reached z hz with hz | ⟨s, hs, hsz⟩
    · exact (h.reached z hz).imp id fun ⟨s, hs, hsz⟩ => ⟨s, .inl hs, hsz⟩
    · exact .inr ⟨s, .inr hs, hsz⟩
  covered := by
    rintro s (hs | hs)
    · exact (h.covered hs).imp id fun hs => h'.mono hs
    · exact h'.covered hs
  closed z hz hno y hzy := by
    by_cases hz₁ : z ∈ P₁
    · exact (h.closed z hz₁ hno y hzy).imp id fun hy => h'.mono hy
    · exact h'.closed z hz hz₁ y hzy
  passed z hz hno := by
    by_cases hz₁ : z ∈ P₁
    · exact h.passed z hz₁ hno
    · exact h'.passed z hz hz₁

/-- A node that is put into the set before its successors are walked over. -/
theorem visit (h : Covers E F D (insert s P) P₁ {y | E s y}) (hs : F s) : Covers E F D P P₁ {s} where
  mono := (Set.subset_insert s P).trans h.mono
  reached z hz := by
    rcases h.reached z hz with (rfl | hz) | ⟨y, hy, hyz⟩
    · exact .inr ⟨z, rfl, .refl⟩
    · exact .inl hz
    · exact .inr ⟨s, rfl, .head hy hyz⟩
  covered := by
    rintro _ rfl
    exact .inr (h.mono (.inl rfl))
  closed z hz hno y hzy := by
    by_cases hzs : z = s
    · exact h.covered (hzs ▸ hzy)
    · refine h.closed z hz (fun hin => ?_) y hzy
      exact hin.elim hzs hno
  passed z hz hno := by
    by_cases hzs : z = s
    · exact hzs ▸ hs
    · exact h.passed z hz fun hin => hin.elim hzs hno

/-- The nodes that are left out are in the set or among the roots already. -/
theorem widen (h : Covers E F D P P₁ S) (hS : S ⊆ S') (hS' : S' ⊆ S ∪ (D ∪ P)) :
    Covers E F D P P₁ S' where
  mono := h.mono
  reached z hz := (h.reached z hz).imp id fun ⟨s, hs, hsz⟩ => ⟨s, hS hs, hsz⟩
  covered s hs := by
    rcases hS' hs with hs | hs | hs
    · exact h.covered hs
    · exact .inl hs
    · exact .inr (h.mono hs)
  closed := h.closed
  passed := h.passed

/-- A walk over the successors of the roots ends with the closure. -/
theorem eq_closure (h : Covers E F D ∅ P₁ {y | ∃ x ∈ D, E x y}) : D ∪ P₁ = closure E D := by
  refine Set.Subset.antisymm ?_ ?_
  · rintro z (hz | hz)
    · exact (closed_closure E D).1 hz
    · rcases h.reached z hz with hno | ⟨y, ⟨x, hx, hxy⟩, hyz⟩
      · exact hno.elim
      · exact ⟨x, hx, .head hxy hyz⟩
  · have hclosed : Closed E D (D ∪ P₁) := by
      refine ⟨Set.subset_union_left, fun x hx y hxy => ?_⟩
      rcases hx with hx | hx
      · exact h.covered ⟨x, hx, hxy⟩
      · exact h.closed x hx (Set.notMem_empty x) y hxy
    exact (isLeast_closure E D).2 hclosed

/-- If the roots pass, everything that they reach does. -/
theorem forall_closure (h : Covers E F D ∅ P₁ {y | ∃ x ∈ D, E x y}) (hD : ∀ x ∈ D, F x) :
    ∀ x ∈ closure E D, F x := by
  rw [← h.eq_closure]
  rintro x (hx | hx)
  · exact hD x hx
  · exact h.passed x hx (Set.notMem_empty x)

end Covers

/-- A node that is visited leaves fewer nodes. -/
theorem ncard_visit_lt {N : Set α} (hN : N.Finite) (hs : s ∈ N) (hnew : s ∉ P) :
    (N \ insert s P).ncard < (N \ P).ncard := by
  refine Set.ncard_lt_ncard ⟨?_, fun h => ?_⟩ (hN.subset Set.sdiff_subset)
  · exact Set.sdiff_subset_sdiff_right (Set.subset_insert s P)
  · exact (h ⟨hs, hnew⟩).2 (.inl rfl)

theorem ncard_mono {N : Set α} (hN : N.Finite) (h : P ⊆ P₁) : (N \ P₁).ncard ≤ (N \ P).ncard :=
  Set.ncard_le_ncard (Set.sdiff_subset_sdiff_right h) (hN.subset Set.sdiff_subset)

end Reach
