import Mathlib.Order.Basic
import Mathlib.Tactic

/-!
# Binary search over a downward closed predicate

The search keeps an interval `[lo, hi)` and halves it, moving right while the
predicate holds at the middle.  When the predicate is downward closed the
result is the boundary between the positions where it holds and those where
it does not.  The loop runs on a fuel counter, and `hi - lo` rounds suffice:
the loop that says whether it has returned (`loop`) returns after them.
-/

namespace Search

/-- The loop `while lo < hi`, moving `lo` past the middle while `p` holds. -/
def searchFrom (p : Nat → Bool) : Nat → Nat → Nat → Nat
  | 0, lo, _ => lo
  | fuel + 1, lo, hi =>
    if lo < hi then
      if p ((lo + hi) / 2) then searchFrom p fuel ((lo + hi) / 2 + 1) hi
      else searchFrom p fuel lo ((lo + hi) / 2)
    else lo

/-- The same loop, which has no result while `lo < hi`. -/
def loop (p : Nat → Bool) : Nat → Nat → Nat → Option Nat
  | 0, lo, hi => if lo < hi then none else some lo
  | fuel + 1, lo, hi =>
    if lo < hi then
      if p ((lo + hi) / 2) then loop p fuel ((lo + hi) / 2 + 1) hi
      else loop p fuel lo ((lo + hi) / 2)
    else some lo

/-- The loop returns within `hi - lo` rounds, and more of them change nothing. -/
theorem loop_eq {p : Nat → Bool} : ∀ {rounds fuel lo hi : Nat}, hi - lo ≤ rounds → hi - lo ≤ fuel →
    loop p rounds lo hi = some (searchFrom p fuel lo hi)
  | 0, 0, lo, hi, h, _ => by rw [loop, searchFrom, if_neg (by omega)]
  | 0, fuel + 1, lo, hi, h, _ => by
    rw [loop, searchFrom, if_neg (by omega), if_neg (by omega)]
  | rounds + 1, 0, lo, hi, _, h => by rw [loop, searchFrom, if_neg (by omega)]
  | rounds + 1, fuel + 1, lo, hi, _, _ => by
    rw [loop, searchFrom]
    split
    · split
      · exact loop_eq (by omega) (by omega)
      · exact loop_eq (by omega) (by omega)
    · rfl

/-- `r` cuts `[lo, hi)` into the positions where `p` holds and the others. -/
structure Boundary (p : Nat → Bool) (lo hi r : Nat) : Prop where
  lower : lo ≤ r
  upper : r ≤ hi
  holds : ∀ i, lo ≤ i → i < r → p i = true
  fails : ∀ i, r ≤ i → i < hi → p i = false

/-- With `hi - lo` rounds the loop ends on the boundary of `p`. -/
theorem searchFrom_boundary {p : Nat → Bool} {n : Nat}
    (closed : ∀ i j, i ≤ j → j < n → p j = true → p i = true) :
    ∀ fuel lo hi, lo ≤ hi → hi ≤ n → hi - lo ≤ fuel →
      Boundary p lo hi (searchFrom p fuel lo hi) := by
  intro fuel
  induction fuel with
  | zero =>
    intro lo hi hle _ hfuel
    have heq : lo = hi := by omega
    subst heq
    exact ⟨le_rfl, le_rfl, fun i h1 h2 => absurd h1 (by simp [searchFrom] at h2; omega),
      fun i h1 h2 => absurd h1 (by simp [searchFrom]; omega)⟩
  | succ fuel ih =>
    intro lo hi hle hn hfuel
    rw [searchFrom]
    by_cases hlt : lo < hi
    · rw [if_pos hlt]
      have hmid : lo ≤ (lo + hi) / 2 ∧ (lo + hi) / 2 < hi := by omega
      by_cases hp : p ((lo + hi) / 2) = true
      · rw [if_pos hp]
        obtain ⟨h1, h2, h3, h4⟩ := ih ((lo + hi) / 2 + 1) hi (by omega) hn (by omega)
        refine ⟨by omega, h2, fun i hi1 hi2 => ?_, h4⟩
        by_cases hcase : i ≤ (lo + hi) / 2
        · exact closed i _ hcase (by omega) hp
        · exact h3 i (by omega) hi2
      · rw [if_neg hp]
        obtain ⟨h1, h2, h3, h4⟩ := ih lo ((lo + hi) / 2) (by omega) (by omega) (by omega)
        refine ⟨h1, by omega, h3, fun i hi1 hi2 => ?_⟩
        by_cases hcase : i < (lo + hi) / 2
        · exact h4 i hi1 hcase
        · -- past the middle the predicate fails because it fails at the middle
          by_contra hne
          exact hp (closed _ i (by omega) (by omega) (by simpa using hne))
    · rw [if_neg hlt]
      exact ⟨le_rfl, hle, fun i h1 h2 => by omega, fun i h1 h2 => by omega⟩

end Search
