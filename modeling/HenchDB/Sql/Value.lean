import HenchDB.Keys
import HenchDB.Validate

/-!
# Comparing values

The total order of values, the coercion of a pair before it is compared and the
text a value is printed as.  A float is its 64-bit pattern: `F64.ofInt` and
`F64.toInt` are the casts between `i64` and `f64`, the first rounding to the
nearest even pattern, the second truncating and saturating.

`F64.ofInt` of an integer is a float without a fraction in the range of `i64`
(`F64.isIntegral_ofInt`, `F64.inRange_ofInt`), so it always has an integer to go
back to; above 2⁵³ that need not be the integer it came from.
-/

namespace HenchDB

namespace F64

/-! ## Casts -/

/-- `n / 2 ^ s`, to the nearest, a half to the even one. -/
def roundShift (n s : Nat) : Nat :=
  let q := n / 2 ^ s
  let r := n % 2 ^ s
  if 2 ^ s < 2 * r ∨ (2 * r = 2 ^ s ∧ q % 2 = 1) then q + 1 else q

/-- The pattern of a natural number below 2⁶⁴ without its sign.  The hidden bit
of the significand and a carry out of it go into the exponent. -/
def ofNat (n : Nat) : Nat :=
  if n = 0 then 0
  else
    let e := n.log2
    let q := if e ≤ 52 then n * 2 ^ (52 - e) else roundShift n (e - 52)
    (e + 1022) * 2 ^ 52 + q

/-- `v as f64`. -/
def ofInt (v : Int64) : UInt64 :=
  UInt64.ofNat (ofNat v.toInt.natAbs + if v.toInt < 0 then 2 ^ 63 else 0)

/-- The pattern without its sign. -/
def magnitude (bits : UInt64) : Nat := bits.toNat % 2 ^ 63

def exponent (bits : UInt64) : Nat := magnitude bits / 2 ^ 52

def significand (bits : UInt64) : Nat :=
  magnitude bits % 2 ^ 52 + if exponent bits = 0 then 0 else 2 ^ 52

/-- `is_sign_negative`. -/
def isNegative (bits : UInt64) : Bool := 2 ^ 63 ≤ bits.toNat

/-- `v.fract() == 0.0`; the fraction of an infinity is not a number. -/
def isIntegral (bits : UInt64) : Bool :=
  exponent bits ≠ 2047 &&
    (1075 ≤ exponent bits || significand bits % 2 ^ (1075 - exponent bits) = 0)

/-- The magnitude without its fraction. -/
def truncated (bits : UInt64) : Nat :=
  if exponent bits ≤ 1075 then significand bits / 2 ^ (1075 - exponent bits)
  else significand bits * 2 ^ (exponent bits - 1075)

/-- `v as i64`. -/
def toInt (bits : UInt64) : Int64 :=
  if isNaN bits then 0
  else if isNegative bits then Int64.ofInt (-(min (truncated bits) (2 ^ 63) : Nat))
  else Int64.ofInt (min (truncated bits) (2 ^ 63 - 1) : Nat)

/-! ## Order -/

/-- The place of a pattern in the order of the floats; both zeros have one. -/
def place (bits : UInt64) : Int :=
  if isNegative bits then -(magnitude bits : Int) else magnitude bits

def le (a b : UInt64) : Bool := !isNaN a && !isNaN b && place a ≤ place b

/-- `a.partial_cmp(&b)`. -/
def partialCmp (a b : UInt64) : Option Ordering :=
  if isNaN a || isNaN b then none else some (compare (place a) (place b))

/-- Between `i64::MIN as f64` and `i64::MAX as f64`. -/
def inRange (bits : UInt64) : Bool :=
  le (ofInt Int64.minValue) bits && le bits (ofInt Int64.maxValue)

/-! ## The floats of integers -/

theorem roundShift_bounds {n s : Nat} (hlo : 2 ^ (52 + s) ≤ n) (hhi : n < 2 ^ (53 + s)) :
    2 ^ 52 ≤ roundShift n s ∧ roundShift n s ≤ 2 ^ 53 := by
  have hq_lo : 2 ^ 52 ≤ n / 2 ^ s := by
    rw [Nat.le_div_iff_mul_le (Nat.two_pow_pos s), ← Nat.pow_add]
    exact hlo
  have hq_hi : n / 2 ^ s < 2 ^ 53 := by
    rw [Nat.div_lt_iff_lt_mul (Nat.two_pow_pos s), ← Nat.pow_add]
    exact hhi
  simp only [roundShift]
  split <;> omega

/-- The exponent and the significand `ofNat` puts together: a small number is
shifted up without loss, a large one has no bits behind the point. -/
theorem ofNat_spec {n : Nat} (hpos : n ≠ 0) (hmax : n ≤ 2 ^ 63) :
    ∃ e q, ofNat n = (e + 1022) * 2 ^ 52 + q ∧ 2 ^ 52 ≤ q ∧ e ≤ 63 ∧
      (e ≤ 52 → q < 2 ^ 53 ∧ 2 ^ (52 - e) ∣ q) ∧ (e ≤ 62 → q ≤ 2 ^ 53) ∧ (e = 63 → q = 2 ^ 52) := by
  have hlo : 2 ^ n.log2 ≤ n := Nat.log2_self_le hpos
  have hhi : n < 2 ^ (n.log2 + 1) := Nat.lt_log2_self
  have he : n.log2 ≤ 63 := by
    by_contra hlt
    have := Nat.pow_le_pow_right (n := 2) (by omega) (by omega : 64 ≤ n.log2)
    omega
  refine ⟨n.log2, _, by rw [ofNat, if_neg hpos], ?_⟩
  by_cases hsmall : n.log2 ≤ 52
  · rw [if_pos hsmall]
    have hscale : 2 ^ n.log2 * 2 ^ (52 - n.log2) = 2 ^ 52 := by
      rw [← Nat.pow_add, Nat.add_sub_cancel' hsmall]
    have hlo' : 2 ^ 52 ≤ n * 2 ^ (52 - n.log2) := by
      rw [← hscale]
      exact Nat.mul_le_mul_right _ hlo
    have hhi' : n * 2 ^ (52 - n.log2) < 2 ^ 53 := by
      calc n * 2 ^ (52 - n.log2)
          < 2 ^ (n.log2 + 1) * 2 ^ (52 - n.log2) :=
            Nat.mul_lt_mul_of_pos_right hhi (Nat.two_pow_pos _)
        _ = 2 ^ 53 := by rw [Nat.pow_succ, Nat.mul_right_comm, hscale, ← Nat.pow_succ]
    exact ⟨hlo', he, fun _ => ⟨hhi', Nat.dvd_mul_left ..⟩, fun _ => hhi'.le, fun h => by omega⟩
  · rw [if_neg hsmall]
    obtain ⟨hq_lo, hq_hi⟩ := roundShift_bounds (n := n) (s := n.log2 - 52)
      (by rwa [show 52 + (n.log2 - 52) = n.log2 by omega])
      (by rwa [show 53 + (n.log2 - 52) = n.log2 + 1 by omega])
    refine ⟨hq_lo, he, fun h => absurd h hsmall, fun _ => hq_hi, fun h63 => ?_⟩
    have hn : n = 2 ^ 63 := by
      rw [h63] at hlo
      omega
    subst hn
    decide

theorem ofNat_le {n : Nat} (hmax : n ≤ 2 ^ 63) : ofNat n ≤ 1086 * 2 ^ 52 := by
  by_cases hpos : n = 0
  · subst hpos
    decide
  obtain ⟨e, q, hq, -, he, -, hmid, htop⟩ := ofNat_spec hpos hmax
  by_cases h : e = 63
  · have := htop h
    omega
  · have := hmid (by omega)
    omega

theorem natAbs_toInt_le (v : Int64) : v.toInt.natAbs ≤ 2 ^ 63 := by
  have := v.toInt_lt
  have := v.le_toInt
  omega

theorem toNat_ofInt (v : Int64) :
    (ofInt v).toNat = ofNat v.toInt.natAbs + if v.toInt < 0 then 2 ^ 63 else 0 := by
  have := ofNat_le (natAbs_toInt_le v)
  rw [ofInt, UInt64.toNat_ofNat']
  split <;> omega

theorem magnitude_ofInt (v : Int64) : magnitude (ofInt v) = ofNat v.toInt.natAbs := by
  have := ofNat_le (natAbs_toInt_le v)
  rw [magnitude, toNat_ofInt]
  split <;> omega

theorem isNegative_ofInt (v : Int64) : isNegative (ofInt v) = decide (v.toInt < 0) := by
  have := ofNat_le (natAbs_toInt_le v)
  rw [isNegative, toNat_ofInt]
  split <;> simp <;> omega

theorem isNaN_eq (bits : UInt64) : isNaN bits = decide (2047 * 2 ^ 52 < magnitude bits) := by
  rw [Bool.eq_iff_iff, isNaN_iff, decide_eq_true_eq]
  rfl

theorem isNaN_ofInt (v : Int64) : isNaN (ofInt v) = false := by
  have := ofNat_le (natAbs_toInt_le v)
  rw [isNaN_eq, magnitude_ofInt]
  simp only [decide_eq_false_iff_not]
  omega

/-- The float of an integer has no fraction. -/
theorem isIntegral_ofInt (v : Int64) : isIntegral (ofInt v) = true := by
  have hm := magnitude_ofInt v
  by_cases hpos : v.toInt.natAbs = 0
  · rw [hpos] at hm
    have hsig : significand (ofInt v) = 0 := by
      rw [significand, exponent, hm]
      rfl
    rw [isIntegral, hsig, Nat.zero_mod, exponent, hm]
    rfl
  obtain ⟨e, q, hq, hlo, he, hsmall, hmid, htop⟩ := ofNat_spec hpos (natAbs_toInt_le v)
  rw [hq] at hm
  have hle : (e + 1022) * 2 ^ 52 + q ≤ 1086 * 2 ^ 52 := hq ▸ ofNat_le (natAbs_toInt_le v)
  have hexp : exponent (ofInt v) = ((e + 1022) * 2 ^ 52 + q) / 2 ^ 52 := by rw [exponent, hm]
  have hne : exponent (ofInt v) ≠ 2047 := by omega
  rw [isIntegral, Bool.and_eq_true, Bool.or_eq_true]
  refine ⟨by simpa using hne, ?_⟩
  by_cases h52 : e ≤ 52
  · obtain ⟨hhi, hdvd⟩ := hsmall h52
    have hexp' : exponent (ofInt v) = e + 1023 := by omega
    have hsig : significand (ofInt v) = q := by
      rw [significand, hm, hexp', if_neg (by omega)]
      omega
    refine Or.inr ?_
    rw [hsig, hexp', show 1075 - (e + 1023) = 52 - e by omega]
    exact decide_eq_true (Nat.mod_eq_zero_of_dvd hdvd)
  · exact Or.inl (decide_eq_true (by omega))

/-- The float of an integer is in the range of `i64` as the code tests it. -/
theorem inRange_ofInt (v : Int64) : inRange (ofInt v) = true := by
  have hv := ofNat_le (natAbs_toInt_le v)
  have hlow : place (ofInt Int64.minValue) = -(1086 * 2 ^ 52) := by decide
  have hhigh : place (ofInt Int64.maxValue) = 1086 * 2 ^ 52 := by decide
  have hplace : place (ofInt v) =
      if v.toInt < 0 then -(ofNat v.toInt.natAbs : Int) else ofNat v.toInt.natAbs := by
    rw [place, isNegative_ofInt, magnitude_ofInt]
    simp only [decide_eq_true_eq]
  simp only [inRange, le, isNaN_ofInt, hlow, hhigh, hplace, Bool.not_false, Bool.true_and,
    Bool.and_eq_true, decide_eq_true_eq]
  split <;> omega

end F64

namespace Datum

def typeRank : Datum → Nat
  | .null => 0
  | .bool _ => 1
  | .int _ | .float _ => 2
  | .dateTime _ => 3
  | .text _ => 4

def asF64 : Datum → Option UInt64
  | .int v => some (F64.ofInt v)
  | .float bits => some bits
  | _ => none

def cmp (a b : Datum) : Ordering :=
  if a.typeRank ≠ b.typeRank then compare a.typeRank b.typeRank
  else
    match a, b with
    | .bool a, .bool b => compare a b
    | .int a, .int b => compare a b
    | .float a, .float b => (F64.partialCmp a b).getD .eq
    | .dateTime a, .dateTime b => compare a b
    | .text a, .text b => compare a b
    | a, b => ((a.asF64.bind fun a => b.asF64.map (F64.partialCmp a)).join).getD .eq

def coercePair : Datum → Datum → Datum × Datum
  | .bool b, .int i => (.int (if b then 1 else 0), .int i)
  | .int i, .bool b => (.int i, .int (if b then 1 else 0))
  | .bool b, .float f => (.float (F64.ofInt (if b then 1 else 0)), .float f)
  | .float f, .bool b => (.float f, .float (F64.ofInt (if b then 1 else 0)))
  | .int a, .float b => (.float (F64.ofInt a), .float b)
  | .float a, .int b => (.float a, .float (F64.ofInt b))
  | .dateTime a, .text b => (.dateTime a, (parseDatetimeStr b).elim (.text b) .dateTime)
  | .text a, .dateTime b => ((parseDatetimeStr a).elim (.text a) .dateTime, .dateTime b)
  | a, b => (a, b)

/-- Equal as a comparison sees it: neither is `NULL`, and they are the same once
coerced. -/
def sameValue (a b : Datum) : Bool :=
  a ≠ .null && b ≠ .null && (coercePair a b).1.eqv (coercePair a b).2

end Datum

end HenchDB
