import Mathlib.Data.List.InsertIdx
import Mathlib.Tactic

/-!
# Positional edits at a cut

Reading, inserting, replacing and erasing at position `i` of a list that is
written as `A ++ B` with `A` of length `i`.
-/

namespace List

variable {α : Type*} {A B : List α} {a b x : α} {i : Nat}

theorem getElem?_at (h : A.length = i) : (A ++ b :: B)[i]? = some b := by
  subst h
  simp

theorem getElem?_at_succ (h : A.length = i) : (A ++ a :: b :: B)[i + 1]? = some b := by
  subst h
  simp

theorem insertIdx_at (h : A.length = i) : (A ++ B).insertIdx i x = A ++ x :: B := by
  subst h
  induction A with
  | nil => rfl
  | cons c A ih => simpa using ih

theorem insertIdx_at_succ (h : A.length = i) :
    (A ++ a :: B).insertIdx (i + 1) x = A ++ a :: x :: B := by
  subst h
  induction A with
  | nil => rfl
  | cons c A ih => simpa using ih

theorem set_at (h : A.length = i) : (A ++ b :: B).set i x = A ++ x :: B := by
  subst h
  simp

theorem eraseIdx_at (h : A.length = i) : (A ++ b :: B).eraseIdx i = A ++ B := by
  subst h
  simp [List.eraseIdx_append_of_length_le]

theorem eraseIdx_at_succ (h : A.length = i) :
    (A ++ a :: b :: B).eraseIdx (i + 1) = A ++ a :: B := by
  subst h
  simp [List.eraseIdx_append_of_length_le]

theorem set_same {l : List α} (h : l[i]? = some a) : l.set i a = l := by
  obtain ⟨hlt, rfl⟩ := List.getElem?_eq_some_iff.mp h
  exact List.set_getElem_self hlt

/-- An entry of a list with one more entry at its end. -/
theorem getElem?_concat_eq_some {l : List α} (h : (l ++ [a])[i]? = some b) :
    l[i]? = some b ∨ (i = l.length ∧ b = a) := by
  rcases Nat.lt_or_ge i l.length with hlt | hge
  · rw [List.getElem?_append_left hlt] at h
    exact .inl h
  · right
    rw [List.getElem?_append_right hge] at h
    have hi : i - l.length = 0 := by
      by_contra hne
      rw [List.getElem?_eq_none (by simp; omega)] at h
      cases h
    rw [hi] at h
    cases h
    exact ⟨by omega, rfl⟩

theorem exists_cut {l : List α} (h : i < l.length) :
    ∃ A b B, l = A ++ b :: B ∧ A.length = i :=
  ⟨l.take i, l[i], l.drop (i + 1), by simp, by simp; omega⟩

/-! ## Selecting from a list with one entry replaced -/

section FilterMap

variable {β : Type*} {f : α → Option β} {l : List α} {a' : α} {y : β}

theorem filterMap_set_same (h : l[i]? = some a) (hf : f a' = f a) :
    (l.set i a').filterMap f = l.filterMap f := by
  obtain ⟨A, b, B, rfl, hA⟩ := exists_cut (List.getElem?_eq_some_iff.mp h).1
  rw [getElem?_at hA, Option.some.injEq] at h
  subst h
  rw [set_at hA, filterMap_append, filterMap_append, filterMap_cons, filterMap_cons, hf]

/-- An entry that begins to count is added to the selection. -/
theorem perm_filterMap_set (h : l[i]? = some a) (hf : f a = none) (hf' : f a' = some y) :
    (l.filterMap f ++ [y]).Perm ((l.set i a').filterMap f) := by
  obtain ⟨A, b, B, rfl, hA⟩ := exists_cut (List.getElem?_eq_some_iff.mp h).1
  rw [getElem?_at hA, Option.some.injEq] at h
  subst h
  rw [set_at hA, filterMap_append, filterMap_append, filterMap_cons_none hf,
    filterMap_cons_some hf', append_assoc]
  have hcomm : (B.filterMap f ++ [y]).Perm ([y] ++ B.filterMap f) := perm_append_comm
  exact hcomm.append_left _

end FilterMap

theorem eq_or_eq_of_perm_pair {l : List α} (h : l.Perm [a, b]) : l = [a, b] ∨ l = [b, a] := by
  obtain ⟨x, y, rfl⟩ := List.length_eq_two.mp h.length_eq
  have hx : x = a ∨ x = b := by simpa using h.subset (List.mem_cons_self ..)
  rcases hx with rfl | rfl
  · have hy := List.perm_singleton.mp (List.perm_cons x |>.mp h)
    exact Or.inl (congrArg _ hy)
  · have hy := List.perm_singleton.mp (List.perm_cons x |>.mp (h.trans (.swap ..)))
    exact Or.inr (congrArg _ hy)

end List
