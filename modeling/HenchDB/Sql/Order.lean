import HenchDB.KeyOrder

/-!
# The laws of the order of values

`Datum.cmp` compares values of different kinds by their rank.  Integers and floats
share a rank: two integers are compared exactly, an integer and a float as floats.

The conversion of an integer to a float is monotone (`F64.place_ofInt_mono`), so the
order is antisymmetric and fails to be transitive only where a float stands between
two integers that it cannot tell apart (`cmp_trans_iff`).  An integer equals the float
that it rounds to although `==` keeps the two apart, and with that exception all laws
hold (`order_laws_iff`).
-/

namespace HenchDB

/-! ## The conversion is monotone -/

namespace F64

theorem roundShift_mono {m n : Nat} (h : m ≤ n) (s : Nat) : roundShift m s ≤ roundShift n s := by
  have hdiv : m / 2 ^ s ≤ n / 2 ^ s := Nat.div_le_div_right h
  simp only [roundShift]
  rcases Nat.lt_or_eq_of_le hdiv with hlt | heq
  · split <;> split <;> omega
  · have hm := Nat.div_add_mod m (2 ^ s)
    have hn := Nat.div_add_mod n (2 ^ s)
    rw [heq] at hm ⊢
    have hmod : m % 2 ^ s ≤ n % 2 ^ s := by omega
    split <;> split <;> omega

/-- The significand begins with the hidden bit and is there. -/
theorem ofNat_bounds {n : Nat} (hpos : n ≠ 0) :
    (n.log2 + 1023) * 2 ^ 52 ≤ ofNat n ∧ ofNat n ≤ (n.log2 + 1 + 1023) * 2 ^ 52 := by
  have hlo : 2 ^ n.log2 ≤ n := Nat.log2_self_le hpos
  have hhi : n < 2 ^ (n.log2 + 1) := Nat.lt_log2_self
  rw [ofNat, if_neg hpos]
  dsimp only
  split
  · next hsmall =>
    have hscale : 2 ^ n.log2 * 2 ^ (52 - n.log2) = 2 ^ 52 := by
      rw [← Nat.pow_add, Nat.add_sub_cancel' hsmall]
    have hlo' := Nat.mul_le_mul_right (2 ^ (52 - n.log2)) hlo
    have hhi' := Nat.mul_le_mul_right (2 ^ (52 - n.log2)) hhi.le
    rw [Nat.pow_succ, Nat.mul_right_comm] at hhi'
    omega
  · next hlarge =>
    obtain ⟨hq_lo, hq_hi⟩ := roundShift_bounds (n := n) (s := n.log2 - 52)
      (by rwa [show 52 + (n.log2 - 52) = n.log2 by omega])
      (by rwa [show 53 + (n.log2 - 52) = n.log2 + 1 by omega])
    omega

/-- With one exponent the significand grows with the number; the next exponent begins
where the significand of the last one can end. -/
theorem ofNat_mono {m n : Nat} (h : m ≤ n) : ofNat m ≤ ofNat n := by
  by_cases hm : m = 0
  · subst hm
    exact Nat.zero_le _
  have hn : n ≠ 0 := by omega
  have hlog : m.log2 ≤ n.log2 :=
    (Nat.le_log2 hn).mpr ((Nat.log2_self_le hm).trans h)
  rcases Nat.lt_or_eq_of_le hlog with hlt | heq
  · calc ofNat m
        ≤ (m.log2 + 1 + 1023) * 2 ^ 52 := (ofNat_bounds hm).2
      _ ≤ (n.log2 + 1023) * 2 ^ 52 := Nat.mul_le_mul_right _ (Nat.add_le_add_right hlt 1023)
      _ ≤ ofNat n := (ofNat_bounds hn).1
  · rw [ofNat, ofNat, if_neg hm, if_neg hn, heq]
    dsimp only
    split
    · have := Nat.mul_le_mul_right (2 ^ (52 - n.log2)) h
      omega
    · have := roundShift_mono h (n.log2 - 52)
      omega

theorem place_ofInt (v : Int64) :
    place (ofInt v) = if v.toInt < 0 then -(ofNat v.toInt.natAbs : Int) else ofNat v.toInt.natAbs := by
  simp only [place, isNegative_ofInt, magnitude_ofInt, decide_eq_true_eq]

theorem place_ofInt_mono {a b : Int64} (h : a ≤ b) : place (ofInt a) ≤ place (ofInt b) := by
  have hle := Int64.le_iff_toInt_le.mp h
  rw [place_ofInt, place_ofInt]
  split <;> split
  · have := ofNat_mono (m := b.toInt.natAbs) (n := a.toInt.natAbs) (by omega)
    omega
  · omega
  · omega
  · have := ofNat_mono (m := a.toInt.natAbs) (n := b.toInt.natAbs) (by omega)
    omega

/-- Floats are equal where their places are. -/
theorem eq_iff_place {f g : UInt64} (hf : isNaN f = false) (hg : isNaN g = false) :
    F64.eq f g = true ↔ place f = place g := by
  have hzf := isZero_iff f
  have hzg := isZero_iff g
  have hlf := f.toNat_lt
  have hlg := g.toNat_lt
  simp only [F64.eq, hf, hg, Bool.not_false, Bool.true_and, Bool.or_eq_true, decide_eq_true_eq,
    Bool.and_eq_true, hzf, hzg, place, isNegative, magnitude, ← UInt64.toNat_inj]
  split <;> split <;> omega

end F64

/-! ## Comparisons -/

namespace Datum

/-- The value is a number as a comparison sees it: a float has a place in the order. -/
def Comparable : Datum → Prop
  | .float bits => F64.isNaN bits = false
  | _ => True

/-- The one is an integer and the other the float that it rounds to. -/
def Rounds : Datum → Datum → Prop
  | .int i, .float f | .float f, .int i => F64.place (F64.ofInt i) = F64.place f
  | _, _ => False

/-- A float between two integers that both round to it, the larger one first. -/
def Blurs : Datum → Datum → Datum → Prop
  | .int i, .float f, .int j =>
    j < i ∧ F64.place (F64.ofInt i) = F64.place f ∧ F64.place (F64.ofInt j) = F64.place f
  | _, _, _ => False

theorem cmp_of_ne {a b : Datum} (h : a.typeRank ≠ b.typeRank) :
    a.cmp b = compare a.typeRank b.typeRank := if_pos h

theorem cmp_int (i j : Int64) : (Datum.int i).cmp (.int j) = compare i j := if_neg (by simp [typeRank])

theorem cmp_int_float {f : UInt64} (hf : F64.isNaN f = false) (i : Int64) :
    (Datum.int i).cmp (.float f) = compare (F64.place (F64.ofInt i)) (F64.place f) := by
  simp [cmp, typeRank, asF64, F64.partialCmp, F64.isNaN_ofInt, hf]

theorem cmp_float_int {f : UInt64} (hf : F64.isNaN f = false) (i : Int64) :
    (Datum.float f).cmp (.int i) = compare (F64.place f) (F64.place (F64.ofInt i)) := by
  simp [cmp, typeRank, asF64, F64.partialCmp, F64.isNaN_ofInt, hf]

variable {a b c : Datum}

/-- The order is antisymmetric. -/
theorem cmp_swap (ha : a.Comparable) (hb : b.Comparable) : b.cmp a = (a.cmp b).swap := by
  cases a with
  | int i =>
    cases b with
    | float f =>
      rw [cmp_int_float hb, cmp_float_int hb]
      exact Std.OrientedOrd.eq_swap
    | _ => exact Std.OrientedOrd.eq_swap
  | float f =>
    cases b with
    | int i =>
      rw [cmp_int_float ha, cmp_float_int ha]
      exact Std.OrientedOrd.eq_swap
    | float g =>
      rw [cmp_float ha hb, cmp_float hb ha]
      exact Std.OrientedOrd.eq_swap
    | _ => exact Std.OrientedOrd.eq_swap
  | _ => cases b <;> first | rfl | exact Std.OrientedOrd.eq_swap

/-- Values in order are in the order of their ranks. -/
theorem typeRank_le (h : (a.cmp b).isLE = true) : a.typeRank ≤ b.typeRank := by
  by_cases hrank : a.typeRank = b.typeRank
  · exact hrank.le
  · rw [cmp_of_ne hrank] at h
    exact Std.isLE_compare.mp h

section
variable {i j : Int64} {f g : UInt64}

theorem isLE_int : ((Datum.int i).cmp (.int j)).isLE = true ↔ i ≤ j := by
  rw [cmp_int, Std.isLE_compare]

theorem isLE_int_float (hf : F64.isNaN f = false) :
    ((Datum.int i).cmp (.float f)).isLE = true ↔ F64.place (F64.ofInt i) ≤ F64.place f := by
  rw [cmp_int_float hf, Std.isLE_compare]

theorem isLE_float_int (hf : F64.isNaN f = false) :
    ((Datum.float f).cmp (.int i)).isLE = true ↔ F64.place f ≤ F64.place (F64.ofInt i) := by
  rw [cmp_float_int hf, Std.isLE_compare]

theorem isLE_float (hf : F64.isNaN f = false) (hg : F64.isNaN g = false) :
    ((Datum.float f).cmp (.float g)).isLE = true ↔ F64.place f ≤ F64.place g := by
  rw [cmp_float hf hg, Std.isLE_compare]

end

/-- Two integers are in order if the floats they round to are, and a float between them
does not blur them. -/
theorem cmp_trans_blur {i k : Int64} {g : UInt64} (hg : F64.isNaN g = false) :
    (((Datum.int i).cmp (.float g)).isLE = true → ((Datum.float g).cmp (.int k)).isLE = true →
      ((Datum.int i).cmp (.int k)).isLE = true) ↔ ¬ Blurs (.int i) (.float g) (.int k) := by
  rw [isLE_int_float hg, isLE_float_int hg, isLE_int]
  constructor
  · rintro h ⟨hlt, hi, hk⟩
    exact Int64.not_le.mpr hlt (h hi.le hk.ge)
  · intro h hi hk
    by_contra hle
    have hlt : k < i := Int64.not_le.mp hle
    have hmono := F64.place_ofInt_mono (Int64.le_of_lt hlt)
    exact h ⟨hlt, by omega, by omega⟩

/-- Numbers are transitive unless the middle one blurs the others. -/
theorem cmp_trans_number (ha : a.Comparable) (hb : b.Comparable) (hc : c.Comparable)
    (har : a.typeRank = 2) (hbr : b.typeRank = 2) (hcr : c.typeRank = 2) :
    ((a.cmp b).isLE = true → (b.cmp c).isLE = true → (a.cmp c).isLE = true) ↔ ¬ Blurs a b c := by
  cases a with
  | int i =>
    cases b with
    | int j =>
      cases c with
      | int k =>
        refine iff_of_true ?_ not_false
        rw [isLE_int, isLE_int, isLE_int]
        exact Int64.le_trans
      | float h =>
        refine iff_of_true ?_ not_false
        rw [isLE_int, isLE_int_float hc, isLE_int_float hc]
        exact fun hij hjh => (F64.place_ofInt_mono hij).trans hjh
      | _ => cases hcr
    | float g =>
      cases c with
      | int k => exact cmp_trans_blur hb
      | float h =>
        refine iff_of_true ?_ not_false
        rw [isLE_int_float hb, isLE_float hb hc, isLE_int_float hc]
        exact le_trans
      | _ => cases hcr
    | _ => cases hbr
  | float f =>
    refine iff_of_true ?_ not_false
    cases b with
    | int j =>
      cases c with
      | int k =>
        rw [isLE_float_int ha, isLE_int, isLE_float_int ha]
        exact fun hfj hjk => hfj.trans (F64.place_ofInt_mono hjk)
      | float h =>
        rw [isLE_float_int ha, isLE_int_float hc, isLE_float ha hc]
        exact le_trans
      | _ => cases hcr
    | float g =>
      cases c with
      | int k =>
        rw [isLE_float ha hb, isLE_float_int hb, isLE_float_int ha]
        exact le_trans
      | float h =>
        rw [isLE_float ha hb, isLE_float hb hc, isLE_float ha hc]
        exact le_trans
      | _ => cases hcr
    | _ => cases hbr
  | _ => cases har

/-- Values of one kind that is not the numbers are transitive. -/
theorem cmp_trans_kind (hab : a.typeRank = b.typeRank) (hbc : b.typeRank = c.typeRank)
    (hne : a.typeRank ≠ 2) : (a.cmp b).isLE = true → (b.cmp c).isLE = true → (a.cmp c).isLE = true := by
  cases a with
  | null =>
    cases b with
    | null => cases c <;> exact fun _ _ => rfl
    | _ => cases hab
  | bool x =>
    cases b with
    | bool y => cases c <;> first | exact Std.TransOrd.isLE_trans (α := Bool) | cases hbc
    | _ => cases hab
  | dateTime x =>
    cases b with
    | dateTime y => cases c <;> first | exact Std.TransOrd.isLE_trans (α := Int64) | cases hbc
    | _ => cases hab
  | text x =>
    cases b with
    | text y => cases c <;> first | exact Std.TransOrd.isLE_trans (α := String) | cases hbc
    | _ => cases hab
  | int | float => exact absurd rfl hne

theorem Blurs.typeRank (h : Blurs a b c) : a.typeRank = 2 ∧ b.typeRank = 2 ∧ c.typeRank = 2 := by
  cases a <;> cases b <;> cases c <;> first | exact ⟨rfl, rfl, rfl⟩ | cases h

/-- The order is transitive exactly where no float blurs two integers. -/
theorem cmp_trans_iff (ha : a.Comparable) (hb : b.Comparable) (hc : c.Comparable) :
    ((a.cmp b).isLE = true → (b.cmp c).isLE = true → (a.cmp c).isLE = true) ↔ ¬ Blurs a b c := by
  by_cases hranks : a.typeRank = b.typeRank ∧ b.typeRank = c.typeRank
  · obtain ⟨hab, hbc⟩ := hranks
    by_cases hnum : a.typeRank = 2
    · exact cmp_trans_number ha hb hc hnum (hab ▸ hnum) (hbc ▸ hab ▸ hnum)
    · exact iff_of_true (cmp_trans_kind hab hbc hnum) fun h => hnum h.typeRank.1
  · refine iff_of_true (fun hab hbc => ?_) fun h => ?_
    · have hle := typeRank_le hab
      have hle' := typeRank_le hbc
      have hlt : a.typeRank < c.typeRank := by omega
      rw [cmp_of_ne hlt.ne]
      exact Std.isLE_compare.mpr hlt.le
    · obtain ⟨ha', hb', hc'⟩ := h.typeRank
      omega

/-! ## Equality -/

/-- The order calls equal what `==` does, and an integer and the float that it rounds to. -/
theorem cmp_eq_iff (ha : a.Comparable) (hb : b.Comparable) :
    a.cmp b = .eq ↔ a.eqv b = true ∨ Rounds a b := by
  cases a with
  | int i =>
    cases b with
    | int j => simp [cmp_int, eqv, Rounds]
    | float f => simp [cmp_int_float hb, eqv, Rounds]
    | _ => simp [cmp, typeRank, eqv, Rounds]
  | float f =>
    cases b with
    | int j =>
      rw [cmp_float_int ha, Std.compare_eq_iff_eq, eq_comm]
      simp [eqv, Rounds]
    | float g => simp [cmp_float ha hb, eqv, Rounds, F64.eq_iff_place ha hb]
    | _ => simp [cmp, typeRank, eqv, Rounds]
  | _ => cases b <;> simp [cmp, typeRank, eqv, Rounds, asF64]

theorem not_rounds_of_eqv (h : a.eqv b = true) : ¬ Rounds a b := by
  cases a <;> cases b <;> first | exact not_false | cases h

theorem Blurs.rounds (h : Blurs a b c) : Rounds a b ∧ Rounds c b := by
  cases a <;> cases b <;> cases c <;> first | exact ⟨h.2.1, h.2.2⟩ | cases h

/-- The laws of an order at three values, with `==` for its equality. -/
structure OrderLaws (a b c : Datum) : Prop where
  swap : b.cmp a = (a.cmp b).swap
  trans : (a.cmp b).isLE = true → (b.cmp c).isLE = true → (a.cmp c).isLE = true
  eq_trans : a.cmp b = .eq → b.cmp c = .eq → a.cmp c = .eq
  eq_iff : a.cmp b = .eq ↔ a.eqv b = true

/-- The laws hold exactly where the first two values are not an integer and the float that
it rounds to. -/
theorem order_laws_iff (ha : a.Comparable) (hb : b.Comparable) (hc : c.Comparable) :
    OrderLaws a b c ↔ ¬ Rounds a b := by
  constructor
  · intro h hround
    exact not_rounds_of_eqv (h.eq_iff.mp ((cmp_eq_iff ha hb).mpr (.inr hround))) hround
  · intro hround
    have hiff : a.cmp b = .eq ↔ a.eqv b = true := by
      rw [cmp_eq_iff ha hb, or_iff_left hround]
    have htrans := (cmp_trans_iff ha hb hc).mpr fun h => hround h.rounds.1
    have htrans' := (cmp_trans_iff hc hb ha).mpr fun h => hround h.rounds.2
    refine ⟨cmp_swap ha hb, htrans, fun hab hbc => ?_, hiff⟩
    have hle : (a.cmp c).isLE = true := htrans (by rw [hab]; rfl) (by rw [hbc]; rfl)
    have hge : (c.cmp a).isLE = true :=
      htrans' (by rw [cmp_swap hb hc, hbc]; rfl) (by rw [cmp_swap ha hb, hab]; rfl)
    rw [cmp_swap ha hc] at hge
    cases hac : a.cmp c with
    | eq => rfl
    | lt =>
      rw [hac] at hge
      cases hge
    | gt =>
      rw [hac] at hle
      cases hle

/-- 1 and 1.5 are apart; 2⁵³ + 1 rounds to the float 2⁵³. -/
theorem order_laws_of_numbers :
    OrderLaws (.int 1) (.float 0x3FF8000000000000) (.int 2) ∧
      ¬ OrderLaws (.int 9007199254740993) (.float 0x4340000000000000) (.text "a") := by
  have hthree : F64.isNaN 0x3FF8000000000000 = false := by decide
  have hlarge : F64.isNaN 0x4340000000000000 = false := by decide
  have hapart : ¬ F64.place (F64.ofInt 1) = F64.place 0x3FF8000000000000 := by decide
  have hrounds : F64.place (F64.ofInt 9007199254740993) = F64.place 0x4340000000000000 := by decide
  refine ⟨(order_laws_iff (a := .int 1) (b := .float 0x3FF8000000000000) (c := .int 2) trivial hthree
    trivial).mpr hapart, fun h => ?_⟩
  exact (order_laws_iff (a := .int 9007199254740993) (b := .float 0x4340000000000000)
    (c := .text "a") trivial hlarge trivial).mp h hrounds

/-- Two integers above 2⁵³ differ and equal the float between them. -/
theorem order_not_transitive : ¬ ∀ a b c : Datum, a.Comparable → b.Comparable → c.Comparable →
    OrderLaws a b c := by
  intro h
  have hfloat : F64.isNaN 0x4340000000000000 = false := by decide
  have hlaws := h (.int 9007199254740993) (.float 0x4340000000000000) (.int 9007199254740992)
    trivial hfloat trivial
  have heq := hlaws.eq_trans (by decide) (by decide)
  exact absurd heq (by decide)

end Datum

end HenchDB
