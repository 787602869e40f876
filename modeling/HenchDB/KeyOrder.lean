import HenchDB.Lib.Utf8
import HenchDB.Sql.Value

/-!
# Keys in the order of values

The bytes of keys compare as the values do: integers and times by their flipped
sign (`compare_keyInt`), texts by their encoding (`compare_utf8`) and floats by
their flipped patterns (`F64.compare_ordered`), with one exception.

`encode_key` flips every bit of a negative float, and it finds these by
`v >= 0.0`, which the negative zero passes.  So the key of the negative zero is
the smallest of all float keys, below that of minus infinity, and `decode_key`
makes a NaN of it.  `key_embedding_iff` says that this is the only value that
goes wrong.
-/

namespace HenchDB

open Codec

/-! ## Byte strings -/

/-- The comparison of byte strings is the one of their order. -/
theorem compare_bytes_lt : ∀ {a b : Bytes}, compare a b = .lt ↔ a < b
  | [], [] => iff_of_false (by decide) (lt_irrefl _)
  | [], b :: bs => iff_of_true rfl (List.nil_lt_cons b bs)
  | a :: as, [] => iff_of_false (by simp [List.compare_cons_nil]) (not_lt.mpr (List.nil_lt_cons a as).le)
  | a :: as, b :: bs => by
    rw [List.compare_cons_cons, Ordering.then_eq_lt, compare_bytes_lt, List.cons_lt_cons_iff]
    exact or_congr (Std.compare_eq_lt.trans UInt8.lt_iff_toNat_lt)
      (and_congr_left fun _ => Std.compare_eq_iff_eq)

/-- The bytes of values whose order they keep compare as the values do. -/
theorem compare_of_lt {α : Type} [Ord α] [Std.TransOrd α] [Std.LawfulEqOrd α] {f : α → Bytes}
    {x y : α} (hlt : compare x y = .lt → f x < f y) (hgt : compare y x = .lt → f y < f x) :
    compare (f x) (f y) = compare x y := by
  cases h : compare x y with
  | lt => exact compare_bytes_lt.mpr (hlt h)
  | eq => rw [Std.compare_eq_iff_eq.mp h, Std.compare_self]
  | gt => exact Std.OrientedCmp.gt_of_lt (compare_bytes_lt.mpr (hgt (Std.OrientedCmp.lt_of_gt h)))

/-- A common first byte does not decide. -/
theorem compare_tagged (tag : UInt8) (x y : Bytes) :
    compare (tag :: x) (tag :: y) = compare x y := by
  rw [List.compare_cons_cons, Std.compare_self]
  rfl

/-! ## Numbers -/

theorem leValue_append : ∀ (x y : Bytes), leValue (x ++ y) = leValue x + 256 ^ x.length * leValue y
  | [], y => by simp [leValue]
  | b :: x, y => by
    rw [List.cons_append, leValue, leValue, leValue_append x y, List.length_cons]
    ring

/-- A prefix of the whole length is the big-endian number. -/
theorem prefixValue_length : ∀ x : Bytes, BTree.prefixValue x.length x = beValue x
  | [] => rfl
  | b :: x => by
    rw [List.length_cons, BTree.prefixValue, prefixValue_length x, beValue, beValue,
      List.reverse_cons, leValue_append, List.length_reverse, leValue, leValue]
    ring

/-- The smaller number has the smaller bytes. -/
theorem beBytes_lt {m n : Nat} (h : m < n) (hn : n < 2 ^ 64) : beBytes m < beBytes n := by
  by_contra hle
  have hback : ∀ k < 2 ^ 64, BTree.prefixValue 8 (beBytes k) = k := by
    intro k hk
    rw [← length_beBytes k, prefixValue_length, beValue_beBytes hk]
  have := BTree.prefixValue_le_of_le 8 (not_lt.mp hle)
  rw [hback n hn, hback m (h.trans hn)] at this
  omega

theorem compare_beBytes {m n : Nat} (hm : m < 2 ^ 64) (hn : n < 2 ^ 64) :
    compare (beBytes m) (beBytes n) = compare m n :=
  compare_of_lt (fun h => beBytes_lt (Nat.compare_eq_lt.mp h) hn)
    fun h => beBytes_lt (Nat.compare_eq_lt.mp h) hm

/-! ## Integers and times -/

/-- The sign is flipped, so the negative numbers come first. -/
theorem toNat_keyInt (v : Int64) :
    ((v.toUInt64 ^^^ 0x8000000000000000).toNat : Int) = v.toInt + 2 ^ 63 := by
  have hlt := v.toUInt64.toNat_lt
  have hv : v.toInt = if 2 * v.toUInt64.toNat < 2 ^ 64 then (v.toUInt64.toNat : Int)
      else v.toUInt64.toNat - 2 ^ 64 := BitVec.toInt_eq_toNat_cond v.toBitVec
  rw [F64.toNat_xor_sign, hv]
  split <;> split <;> omega

theorem compare_keyInt (a b : Int64) : compare (keyInt a) (keyInt b) = compare a b := by
  have hlt : ∀ x y : Int64, compare x y = .lt → keyInt x < keyInt y := by
    intro x y h
    have hint : x.toInt < y.toInt := Int64.lt_iff_toInt_lt.mp (Std.compare_eq_lt.mp h)
    have hx := toNat_keyInt x
    have hy := toNat_keyInt y
    exact beBytes_lt (by omega) (UInt64.toNat_lt _)
  exact compare_of_lt (hlt a b) (hlt b a)

/-! ## Texts -/

theorem utf8_eq (s : String) : utf8 s = s.toList.flatMap String.utf8EncodeChar := by
  have h : s.toUTF8 = s.toList.utf8Encode := by
    conv_lhs => rw [← String.ofList_toList (s := s)]
    exact String.toByteArray_ofList
  rw [utf8, h, List.utf8Encode, List.data_toByteArray]

theorem compare_utf8 (s t : String) : compare (utf8 s) (utf8 t) = compare s t := by
  have hlt : ∀ x y : String, compare x y = .lt → utf8 x < utf8 y := by
    intro x y h
    rw [utf8_eq, utf8_eq]
    exact Utf8.lex_flatMap (String.lt_iff.mp (compareOfLessAndEq_eq_lt.mp h))
  exact compare_of_lt (hlt s t) (hlt t s)

/-! ## Floats -/

namespace F64

/-- The pattern of `-0.0`. -/
def negZero : UInt64 := 0x8000000000000000

theorem eq_negZero_iff (bits : UInt64) : bits = negZero ↔ bits.toNat = 2 ^ 63 := by
  rw [← UInt64.toNat_inj]
  rfl

/-- The flipped pattern, without the case the test gets wrong. -/
theorem toNat_ordered {bits : UInt64} (hnan : isNaN bits = false) (hzero : bits ≠ negZero) :
    (ordered bits).toNat =
      if bits.toNat < 2 ^ 63 then bits.toNat + 2 ^ 63 else 2 ^ 64 - 1 - bits.toNat := by
  have hlt := bits.toNat_lt
  rw [← Bool.not_eq_true, isNaN_iff] at hnan
  rw [ne_eq, eq_negZero_iff] at hzero
  by_cases h : nonneg bits = true
  · rw [toNat_ordered_of_nonneg bits h]
    rw [nonneg_iff] at h
    split <;> omega
  · rw [toNat_ordered_of_not_nonneg bits h]
    rw [nonneg_iff] at h
    split <;> omega

theorem place_eq (bits : UInt64) :
    place bits = if bits.toNat < 2 ^ 63 then (bits.toNat : Int) else 2 ^ 63 - bits.toNat := by
  have hlt := bits.toNat_lt
  simp only [place, isNegative, magnitude, decide_eq_true_eq]
  split <;> split <;> omega

theorem toNat_ordered_negZero : (ordered negZero).toNat = 0 := by decide

theorem place_negZero : place negZero = 0 := by decide

/-- A float key holds the float. -/
theorem ofOrdered_ordered {bits : UInt64} (hnan : isNaN bits = false) (hzero : bits ≠ negZero) :
    ofOrdered (ordered bits) = bits := by
  have hlt := bits.toNat_lt
  have hord := toNat_ordered hnan hzero
  have hback := toNat_ofOrdered (ordered bits)
  rw [← UInt64.toNat_inj]
  split at hord <;> split at hback <;> omega

/-- The flipped patterns are in the order of the floats. -/
theorem compare_ordered {a b : UInt64} (ha : isNaN a = false) (hb : isNaN b = false)
    (ha' : a ≠ negZero) (hb' : b ≠ negZero) :
    compare (ordered a).toNat (ordered b).toNat = compare (place a) (place b) := by
  have hlta := a.toNat_lt
  have hltb := b.toNat_lt
  have hoa := toNat_ordered ha ha'
  have hob := toNat_ordered hb hb'
  have hpa := place_eq a
  have hpb := place_eq b
  rw [ne_eq, eq_negZero_iff] at ha' hb'
  rcases lt_trichotomy (place a) (place b) with h | h | h
  · rw [compare_lt_iff_lt.mpr h, Nat.compare_eq_lt]
    split at hoa <;> split at hob <;> omega
  · rw [compare_eq_iff_eq.mpr h, Nat.compare_eq_eq]
    split at hoa <;> split at hob <;> omega
  · rw [compare_gt_iff_gt.mpr h, Nat.compare_eq_gt]
    split at hoa <;> split at hob <;> omega

/-- No float but the negative zero has the smallest key. -/
theorem ordered_pos {bits : UInt64} (hnan : isNaN bits = false) (hzero : bits ≠ negZero) :
    0 < (ordered bits).toNat := by
  have hlt := bits.toNat_lt
  have hord := toNat_ordered hnan hzero
  rw [← Bool.not_eq_true, isNaN_iff] at hnan
  split at hord <;> omega

end F64

/-! ## Keys -/

namespace Datum

/-- A float that is not a number. -/
def isNaN : Datum → Bool
  | .float bits => F64.isNaN bits
  | _ => false

/-- A float above both zeros. -/
def isPositive : Datum → Bool
  | .float bits => 0 < F64.place bits
  | _ => false

end Datum

/-- The key of `a` reads back as `a`, and it stands to the key of `b` as `a` to `b`. -/
def KeyEmbeds (a b : Datum) : Prop :=
  ∃ ka kb, encodeKey a = .ok ka ∧ encodeKey b = .ok kb ∧ decodeKey ka = .ok a ∧
    compare ka kb = a.cmp b

theorem keyEmbeds_int (a b : Int64) : KeyEmbeds (.int a) (.int b) := by
  refine ⟨_, _, rfl, rfl, ?_, ?_⟩
  · rw [decodeKey, keyInt, keyWord_beBytes]
    exact congrArg (fun v => Except.ok (Datum.int v)) (ofKeyInt_keyInt a)
  · rw [compare_tagged, compare_keyInt]
    rfl

theorem keyEmbeds_dateTime (a b : Int64) : KeyEmbeds (.dateTime a) (.dateTime b) := by
  refine ⟨_, _, rfl, rfl, ?_, ?_⟩
  · rw [decodeKey, keyInt, keyWord_beBytes]
    exact congrArg (fun v => Except.ok (Datum.dateTime v)) (ofKeyInt_keyInt a)
  · rw [compare_tagged, compare_keyInt]
    rfl

theorem keyEmbeds_text (a b : String) : KeyEmbeds (.text a) (.text b) := by
  refine ⟨_, _, rfl, rfl, ?_, ?_⟩
  · simp only [decodeKey, fromUtf8_utf8]
  · rw [compare_tagged, compare_utf8]
    rfl

theorem keyEmbeds_bool (a b : Bool) : KeyEmbeds (.bool a) (.bool b) := by
  refine ⟨_, _, rfl, rfl, ?_, ?_⟩
  · cases a <;> rfl
  · cases a <;> cases b <;> rfl

theorem decodeKey_float (bits : UInt64) :
    decodeKey (2 :: beBytes (F64.ordered bits).toNat) =
      .ok (.float (F64.ofOrdered (F64.ordered bits))) := by
  rw [decodeKey, keyWord_beBytes]
  simp only [Except.map, beValue_beBytes (UInt64.toNat_lt _), UInt64.ofNat_toNat]

theorem cmp_float {a b : UInt64} (ha : F64.isNaN a = false) (hb : F64.isNaN b = false) :
    (Datum.float a).cmp (.float b) = compare (F64.place a) (F64.place b) := by
  simp [Datum.cmp, Datum.typeRank, F64.partialCmp, ha, hb]

theorem keyEmbeds_float_iff {a b : UInt64} (ha : F64.isNaN a = false) (hb : F64.isNaN b = false) :
    KeyEmbeds (.float a) (.float b) ↔
      a ≠ F64.negZero ∧ (b = F64.negZero → 0 < F64.place a) := by
  have hcmp : compare (2 :: beBytes (F64.ordered a).toNat) (2 :: beBytes (F64.ordered b).toNat) =
      compare (F64.ordered a).toNat (F64.ordered b).toNat := by
    rw [compare_tagged, compare_beBytes (UInt64.toNat_lt _) (UInt64.toNat_lt _)]
  have hiff : KeyEmbeds (.float a) (.float b) ↔ F64.ofOrdered (F64.ordered a) = a ∧
      compare (F64.ordered a).toNat (F64.ordered b).toNat =
        compare (F64.place a) (F64.place b) := by
    rw [← hcmp, ← cmp_float ha hb]
    constructor
    · rintro ⟨ka, kb, hka, hkb, hback, horder⟩
      cases hka
      cases hkb
      rw [decodeKey_float] at hback
      exact ⟨Datum.float.inj (Except.ok.inj hback), horder⟩
    · rintro ⟨hback, horder⟩
      exact ⟨_, _, rfl, rfl, by rw [decodeKey_float, hback], horder⟩
  rw [hiff]
  by_cases hza : a = F64.negZero
  · subst hza
    exact iff_of_false (fun h => absurd h.1 (by decide)) fun h => h.1 rfl
  rw [and_iff_right hza, and_iff_right (F64.ofOrdered_ordered ha hza)]
  by_cases hzb : b = F64.negZero
  · subst hzb
    rw [F64.toNat_ordered_negZero, F64.place_negZero, Nat.compare_eq_gt.mpr (F64.ordered_pos ha hza),
      eq_comm, compare_gt_iff_gt]
    exact ⟨fun h _ => h, fun h => h rfl⟩
  · exact iff_of_true (F64.compare_ordered ha hb hza hzb) fun h => absurd h hzb

/-- The keys of values other than floats read back and are in order. -/
theorem keyEmbeds_of_not_float {a b : Datum} (hkind : a.typeName = b.typeName) (hnull : a ≠ .null)
    (hfloat : ∀ bits, a ≠ .float bits) : KeyEmbeds a b := by
  cases a with
  | null => exact absurd rfl hnull
  | int a =>
    cases b with
    | int b => exact keyEmbeds_int a b
    | _ => simp [Datum.typeName] at hkind
  | text a =>
    cases b with
    | text b => exact keyEmbeds_text a b
    | _ => simp [Datum.typeName] at hkind
  | bool a =>
    cases b with
    | bool b => exact keyEmbeds_bool a b
    | _ => simp [Datum.typeName] at hkind
  | dateTime a =>
    cases b with
    | dateTime b => exact keyEmbeds_dateTime a b
    | _ => simp [Datum.typeName] at hkind
  | float bits => exact absurd rfl (hfloat bits)

/-- For two values of one kind, none of them a NaN, the key encoding is right
unless the first is the negative zero, or the second is and the first is not
above it. -/
theorem key_embedding_iff {a b : Datum} (hkind : a.typeName = b.typeName) (hnull : a ≠ .null)
    (ha : a.isNaN = false) (hb : b.isNaN = false) :
    KeyEmbeds a b ↔ a ≠ .float F64.negZero ∧ (b = .float F64.negZero → a.isPositive = true) := by
  cases a with
  | float a =>
    cases b with
    | float b =>
      rw [keyEmbeds_float_iff ha hb]
      simp [Datum.isPositive]
    | _ => simp [Datum.typeName] at hkind
  | _ =>
    refine iff_of_true (keyEmbeds_of_not_float hkind hnull nofun) ⟨nofun, fun hb => ?_⟩
    rw [hb] at hkind
    simp [Datum.typeName] at hkind

/-- Minus one and one. -/
theorem key_embedding_iff_one :
    KeyEmbeds (.float 0xBFF0000000000000) (.float 0x3FF0000000000000) :=
  (key_embedding_iff (by decide) (by decide) (by decide) (by decide)).mpr (by decide)

/-- The negative zero is read back as a NaN, and its key is not the one of the zero. -/
theorem negZero_not_embedded :
    encodeKey (.float 0x8000000000000000) = .ok [2, 0, 0, 0, 0, 0, 0, 0, 0] ∧
      decodeKey [2, 0, 0, 0, 0, 0, 0, 0, 0] = .ok (.float 0xFFFFFFFFFFFFFFFF) ∧
      ¬ ∀ a b : Datum, a.typeName = b.typeName → a ≠ .null → a.isNaN = false → b.isNaN = false →
        KeyEmbeds a b := by
  refine ⟨by decide, by decide, fun h => ?_⟩
  obtain ⟨ka, kb, hka, -, hback, -⟩ := h (.float F64.negZero) (.float F64.negZero) rfl nofun rfl rfl
  cases hka
  rw [decodeKey_float] at hback
  exact absurd (Datum.float.inj (Except.ok.inj hback)) (by decide)

end HenchDB
