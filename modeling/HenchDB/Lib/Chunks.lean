import Mathlib.Tactic

/-!
# Chunks of a list

A list cut into chunks of `n` elements, the last of which may be shorter.  Each law
follows from what the first chunk is and that the others are the chunks of the rest.
-/

namespace Chunks

variable {α β : Type} {n : Nat}

/-- The loop of `toChunks` with the chunk that is being filled. -/
theorem toChunks_go (hn : 0 < n) (xs : List α) (acc : Array α) (done : Array (List α))
    (hacc : acc.size ≤ n) :
    List.toChunks.go n xs acc done =
      done.toList ++ (acc.toList ++ xs.take (n - acc.size)) :: (xs.drop (n - acc.size)).toChunks n := by
  obtain ⟨m, rfl⟩ : ∃ m, n = m + 1 := ⟨n - 1, by omega⟩
  induction xs generalizing acc done with
  | nil => simp [List.toChunks.go, List.toChunks]
  | cons x xs ih =>
    rw [List.toChunks.go]
    by_cases hfull : acc.size = m + 1
    · have hfirst : (x :: xs).toChunks (m + 1) =
          (x :: xs.take m) :: (xs.drop m).toChunks (m + 1) := by
        rw [List.toChunks, ih _ _ (by simp)]
        · simp
        · simp
      rw [if_pos (by simpa using hfull), ih _ _ (by simp), hfull, Nat.sub_self, List.take_zero,
        List.drop_zero, hfirst]
      simp
    · rw [if_neg (by simpa using hfull), ih _ _ (by simp; omega)]
      obtain ⟨k, hk⟩ : ∃ k, m + 1 - acc.size = k + 1 := ⟨m - acc.size, by omega⟩
      have hk' : m + 1 - (acc.push x).size = k := by
        rw [Array.size_push]
        omega
      rw [hk, hk']
      simp

theorem toChunks_eq (hn : 0 < n) {xs : List α} (hxs : xs ≠ []) :
    xs.toChunks n = xs.take n :: (xs.drop n).toChunks n := by
  obtain ⟨m, rfl⟩ : ∃ m, n = m + 1 := ⟨n - 1, by omega⟩
  obtain ⟨x, xs, rfl⟩ := List.exists_cons_of_ne_nil hxs
  rw [List.toChunks, toChunks_go hn xs _ _ (by simp)]
  · simp
  · simp

theorem chunks_induction (hn : 0 < n) {motive : List α → Prop} (nil : motive [])
    (cons : ∀ xs, xs ≠ [] → motive (xs.drop n) → motive xs) : ∀ xs, motive xs
  | [] => nil
  | x :: xs => cons _ (List.cons_ne_nil x xs) (chunks_induction hn nil cons ((x :: xs).drop n))
termination_by xs => xs.length
decreasing_by
  rw [List.length_drop, List.length_cons]
  omega

theorem toChunks_map (hn : 0 < n) (f : α → β) (xs : List α) :
    (xs.map f).toChunks n = (xs.toChunks n).map (List.map f) := by
  induction xs using chunks_induction hn with
  | nil => rfl
  | cons xs hxs ih =>
    rw [List.map_drop] at ih
    rw [toChunks_eq hn hxs, toChunks_eq hn (by simpa using hxs), List.map_cons, List.map_take, ih]

/-- A chunk holds elements of the list, at least one. -/
theorem of_mem_toChunks (hn : 0 < n) {xs chunk : List α} (h : chunk ∈ xs.toChunks n) :
    chunk ≠ [] ∧ ∀ x ∈ chunk, x ∈ xs := by
  induction xs using chunks_induction hn with
  | nil => cases h
  | cons xs hxs ih =>
    rw [toChunks_eq hn hxs] at h
    rcases List.mem_cons.mp h with rfl | h
    · refine ⟨?_, fun x hx => List.mem_of_mem_take hx⟩
      rw [ne_eq, List.take_eq_nil_iff, not_or]
      exact ⟨Nat.pos_iff_ne_zero.mp hn, hxs⟩
    · obtain ⟨hne, hmem⟩ := ih h
      exact ⟨hne, fun x hx => List.mem_of_mem_drop (hmem x hx)⟩

end Chunks
