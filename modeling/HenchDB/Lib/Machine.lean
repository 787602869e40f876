import Mathlib.Tactic

/-!
# Machine integers that note what they lose

A computation returns the value that the machine computes and notes whether every
step stayed within the width of its integers.  A step that fits is no step at all
(`bind_i64`, `bind_u32`), so a computation whose steps fit is the one over the
integers.
-/

namespace Machine

/-- A value, and whether every step to it fitted. -/
structure Noted (α : Type) where
  value : α
  fits : Bool
deriving DecidableEq, Repr

variable {α β : Type}

namespace Noted

instance : Monad Noted where
  pure a := ⟨a, true⟩
  bind x f := ⟨(f x.value).value, x.fits && (f x.value).fits⟩

@[simp] theorem value_pure (a : α) : (pure a : Noted α).value = a := rfl

@[simp] theorem fits_pure (a : α) : (pure a : Noted α).fits = true := rfl

@[simp] theorem value_bind (x : Noted α) (f : α → Noted β) :
    (x >>= f).value = (f x.value).value := rfl

@[simp] theorem fits_bind (x : Noted α) (f : α → Noted β) :
    (x >>= f).fits = (x.fits && (f x.value).fits) := rfl

@[simp] theorem pure_bind (a : α) (f : α → Noted β) : (pure a >>= f) = f a := rfl

end Noted

/-- The numbers of `i64`. -/
def InI64 (n : Int) : Prop := -2 ^ 63 ≤ n ∧ n < 2 ^ 63

instance (n : Int) : Decidable (InI64 n) := inferInstanceAs (Decidable (_ ∧ _))

/-- The numbers of `u32`. -/
def InU32 (n : Int) : Prop := 0 ≤ n ∧ n < 2 ^ 32

instance (n : Int) : Decidable (InU32 n) := inferInstanceAs (Decidable (_ ∧ _))

/-- A result as `i64`. -/
def i64 (n : Int) : Noted Int := ⟨n.bmod (2 ^ 64), decide (InI64 n)⟩

/-- A result as `u32`. -/
def u32 (n : Int) : Noted Int := ⟨n % 2 ^ 32, decide (InU32 n)⟩

theorem i64_of_fits {n : Int} (h : InI64 n) : i64 n = pure n := by
  rw [i64, decide_eq_true h, Int.bmod_eq_of_le (by have := h.1; omega) (by have := h.2; omega)]
  rfl

theorem u32_of_fits {n : Int} (h : InU32 n) : u32 n = pure n := by
  rw [u32, decide_eq_true h, Int.emod_eq_of_lt h.1 h.2]
  rfl

theorem bind_i64 {n : Int} (h : InI64 n) (f : Int → Noted α) : (i64 n >>= f) = f n := by
  rw [i64_of_fits h, Noted.pure_bind]

theorem bind_u32 {n : Int} (h : InU32 n) (f : Int → Noted α) : (u32 n >>= f) = f n := by
  rw [u32_of_fits h, Noted.pure_bind]

@[simp] theorem value_i64 (n : Int) : (i64 n).value = n.bmod (2 ^ 64) := rfl

@[simp] theorem fits_i64 (n : Int) : (i64 n).fits = true ↔ InI64 n := decide_eq_true_iff

/-- `i64` forgets the multiples of its size. -/
theorem ofInt_bmod (n : Int) : Int64.ofInt (n.bmod (2 ^ 64)) = Int64.ofInt n := by
  refine Int64.toInt_inj.mp ?_
  rw [Int64.toInt_ofInt, Int64.toInt_ofInt]
  exact Int.bmod_bmod

theorem ofInt_i64_add (n k : Int) :
    Int64.ofInt ((i64 n).value + k) = Int64.ofInt (n + k) := by
  rw [value_i64, Int64.ofInt_add, ofInt_bmod, ← Int64.ofInt_add]

end Machine
