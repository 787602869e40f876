import Mathlib.Tactic

/-!
# Interleavings of queues

`Interleaves qs l` says that the list `l` is an interleaving of the queues `qs`:
taking its elements one by one, each stands at the front of some queue when its
turn comes.  Queues that are only pushed at the back and popped at the front
keep an interleaving in step with the list of what they hold (`push`,
`pop_front`), and an element put back in front of its queue is in front again
(`putBack`).
-/

namespace Interleave

variable {α : Type*}

/-- Taking the elements of the list in order empties the queues. -/
inductive Interleaves : List (List α) → List α → Prop where
  | nil {qs : List (List α)} : (∀ q ∈ qs, q = []) → Interleaves qs []
  | cons {qs : List (List α)} {l q : List α} {i : Nat} {x : α} :
      qs[i]? = some (x :: q) → Interleaves (qs.set i q) l → Interleaves qs (x :: l)

variable {qs : List (List α)} {l q : List α} {i : Nat} {x y : α}

/-- Empty queues hold nothing. -/
theorem interleaves_replicate (n : Nat) : Interleaves (List.replicate n ([] : List α)) [] :=
  .nil fun _ hq => List.eq_of_mem_replicate hq

/-- An element put in front of its queue comes first. -/
theorem Interleaves.putBack (h : Interleaves qs l) (hq : qs[i]? = some q) :
    Interleaves (qs.set i (x :: q)) (x :: l) := by
  refine .cons (q := q) (i := i) ?_ ?_
  · rw [List.getElem?_set_self (List.getElem?_eq_some_iff.1 hq).1]
  · rw [List.set_set]
    obtain ⟨hi, rfl⟩ := List.getElem?_eq_some_iff.1 hq
    rwa [List.set_getElem_self]

/-- An element pushed behind its queue comes last. -/
theorem Interleaves.push (h : Interleaves qs l) (hq : qs[i]? = some q) :
    Interleaves (qs.set i (q ++ [x])) (l ++ [x]) := by
  induction h generalizing q with
  | @nil qs hempty =>
    obtain rfl : q = [] := hempty q (List.mem_of_getElem? hq)
    exact (Interleaves.nil hempty).putBack hq
  | @cons qs l p j y hj _ ih =>
    rw [List.cons_append]
    rcases eq_or_ne i j with rfl | hne
    · obtain rfl : q = y :: p := by
        rw [hq] at hj
        exact Option.some.inj hj
      have hi : i < qs.length := (List.getElem?_eq_some_iff.1 hq).1
      refine .cons (q := p ++ [x]) (i := i) ?_ ?_
      · rw [List.getElem?_set_self hi]
        rfl
      · rw [List.set_set]
        have hnext := ih (q := p) (by rw [List.getElem?_set_self hi])
        rwa [List.set_set] at hnext
    · refine .cons (q := p) (i := j) ?_ ?_
      · rw [List.getElem?_set_ne hne, hj]
      · rw [List.set_comm _ _ hne]
        exact ih (by rw [List.getElem?_set_ne hne.symm, hq])

/-- The queues hold what the list holds. -/
theorem Interleaves.perm (h : Interleaves qs l) : qs.flatten.Perm l := by
  induction h with
  | nil hempty => rw [List.flatten_eq_nil_iff.2 hempty]
  | @cons qs l q i x hi _ ih =>
    obtain ⟨hlt, hget⟩ := List.getElem?_eq_some_iff.1 hi
    have hfull : qs.Perm ((x :: q) :: qs.eraseIdx i) := by
      rw [← hget]
      exact (List.getElem_cons_eraseIdx_perm hlt).symm
    have hpopped : (qs.set i q).Perm (q :: qs.eraseIdx i) := List.set_perm_cons_eraseIdx hlt q
    have hfront : qs.flatten.Perm (x :: (q :: qs.eraseIdx i).flatten) := hfull.flatten
    have hrest : (x :: (q :: qs.eraseIdx i).flatten).Perm (x :: (qs.set i q).flatten) :=
      hpopped.flatten.symm.cons x
    exact hfront.trans (hrest.trans (ih.cons x))

theorem Interleaves.mem (h : Interleaves qs l) (hq : qs[i]? = some q) (hx : x ∈ q) : x ∈ l :=
  h.perm.mem_iff.1 (List.mem_flatten.2 ⟨q, List.mem_of_getElem? hq, hx⟩)

/-- The first element stands at the front of some queue. -/
theorem Interleaves.exists_front (h : Interleaves qs (x :: l)) :
    ∃ (i : Nat) (q : List α), qs[i]? = some (x :: q) := by
  cases h with
  | cons hi _ => exact ⟨_, _, hi⟩

/-- Where the keys differ, a front with the key of the first element is the
first element, and the others interleave without it. -/
theorem Interleaves.pop_front {κ : Type*} {key : α → κ} (h : Interleaves qs (x :: l))
    (hkeys : ∀ z ∈ l, key z ≠ key x) (hq : qs[i]? = some (y :: q)) (hkey : key y = key x) :
    y = x ∧ Interleaves (qs.set i q) l := by
  cases h with
  | @cons _ _ p j _ hj hrest =>
    rcases eq_or_ne j i with rfl | hne
    · rw [hj] at hq
      cases hq
      exact ⟨rfl, hrest⟩
    · -- the key would stand in two queues
      have hmem : y ∈ l := hrest.mem (i := i) (q := y :: q)
        (by rw [List.getElem?_set_ne hne, hq]) (by simp)
      exact absurd hkey (hkeys y hmem)

end Interleave
