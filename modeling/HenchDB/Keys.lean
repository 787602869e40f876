import HenchDB.Table

/-!
# Keys are codes

What `decode_key` finds in a key that `encode_key` made encodes to the same
key (`decodeKey_encodeKey`).  It need not be the value that was encoded: a
negative zero comes back as a NaN, and a NaN as another float.

The encoded value at the front of a secondary key marks its own end, so a
secondary key determines the encoded column value and the primary key
(`encodeSecKeyPrefix_append_inj`).
-/

namespace HenchDB

open Codec

/-! ## Floats in keys -/

namespace F64

variable (bits : UInt64)

theorem toNat_and_magnitude : (bits &&& 0x7FFFFFFFFFFFFFFF).toNat = bits.toNat % 2 ^ 63 := by
  rw [UInt64.toNat_and]
  exact Nat.and_two_pow_sub_one_eq_mod bits.toNat 63

theorem and_sign_eq_zero : bits &&& 0x8000000000000000 = 0 ↔ bits.toNat < 2 ^ 63 := by
  have hlt := bits.toNat_lt
  have htoNat : (bits &&& 0x8000000000000000).toNat = bits.toNat &&& 2 ^ 63 := UInt64.toNat_and _ _
  have hmod : (bits.toNat &&& 2 ^ 63) % 2 ^ 63 = 0 := by
    rw [Nat.and_mod_two_pow]
    simp
  have hdiv : (bits.toNat &&& 2 ^ 63) / 2 ^ 63 = bits.toNat / 2 ^ 63 := by
    rw [Nat.and_div_two_pow, Nat.div_self (by decide), Nat.and_one_is_mod]
    omega
  rw [← UInt64.toNat_inj, htoNat]
  constructor
  · intro hzero
    rw [hzero] at hdiv
    have : (UInt64.toNat 0) / 2 ^ 63 = 0 := rfl
    omega
  · intro hsmall
    have hnone : (bits.toNat &&& 2 ^ 63) = 0 := by omega
    exact hnone

theorem toNat_xor_sign :
    (bits ^^^ 0x8000000000000000).toNat =
      if bits.toNat < 2 ^ 63 then bits.toNat + 2 ^ 63 else bits.toNat - 2 ^ 63 := by
  have hlt := bits.toNat_lt
  have htoNat : (bits ^^^ 0x8000000000000000).toNat = bits.toNat ^^^ 2 ^ 63 := UInt64.toNat_xor _ _
  have hmod : (bits.toNat ^^^ 2 ^ 63) % 2 ^ 63 = bits.toNat % 2 ^ 63 := by
    rw [Nat.xor_mod_two_pow]
    simp
  have hdiv : (bits.toNat ^^^ 2 ^ 63) / 2 ^ 63 = bits.toNat / 2 ^ 63 ^^^ 1 := by
    rw [Nat.xor_div_two_pow, Nat.div_self (by decide)]
  rw [htoNat]
  split
  · next h =>
    rw [Nat.div_eq_of_lt h, Nat.zero_xor] at hdiv
    omega
  · next h =>
    rw [show bits.toNat / 2 ^ 63 = 1 by omega, Nat.xor_self] at hdiv
    omega

theorem toNat_complement : (~~~bits).toNat = 2 ^ 64 - 1 - bits.toNat := by
  rw [UInt64.toNat_not]
  rfl

theorem isNaN_iff : isNaN bits = true ↔ 0x7FF0000000000000 < bits.toNat % 2 ^ 63 := by
  rw [isNaN, decide_eq_true_eq, UInt64.lt_iff_toNat_lt, toNat_and_magnitude]
  rfl

theorem isZero_iff : isZero bits = true ↔ bits.toNat % 2 ^ 63 = 0 := by
  rw [isZero, decide_eq_true_eq, ← UInt64.toNat_inj, toNat_and_magnitude]
  rfl

theorem nonneg_iff : nonneg bits = true ↔
    bits.toNat % 2 ^ 63 ≤ 0x7FF0000000000000 ∧ (bits.toNat < 2 ^ 63 ∨ bits.toNat % 2 ^ 63 = 0) := by
  rw [nonneg, Bool.and_eq_true, Bool.or_eq_true, decide_eq_true_eq, and_sign_eq_zero, isZero_iff,
    Bool.not_eq_true', ← Bool.not_eq_true, isNaN_iff, Nat.not_lt]

theorem toNat_ordered_of_nonneg (h : nonneg bits = true) :
    (ordered bits).toNat = if bits.toNat < 2 ^ 63 then bits.toNat + 2 ^ 63 else bits.toNat - 2 ^ 63 := by
  rw [ordered, if_pos h, toNat_xor_sign]

theorem toNat_ordered_of_not_nonneg (h : ¬ nonneg bits = true) :
    (ordered bits).toNat = 2 ^ 64 - 1 - bits.toNat := by
  rw [ordered, if_neg h, toNat_complement]

theorem toNat_ofOrdered :
    (ofOrdered bits).toNat =
      if bits.toNat < 2 ^ 63 then 2 ^ 64 - 1 - bits.toNat else bits.toNat - 2 ^ 63 := by
  rw [ofOrdered]
  split
  · next h =>
    rw [ne_eq, and_sign_eq_zero] at h
    rw [toNat_xor_sign, if_neg h, if_neg h]
  · next h =>
    rw [ne_eq, not_not, and_sign_eq_zero] at h
    rw [toNat_complement, if_pos h]

/-- What a key holds encodes to the same key. -/
theorem ordered_ofOrdered_ordered : ordered (ofOrdered (ordered bits)) = ordered bits := by
  have hlt := bits.toNat_lt
  have hback := toNat_ofOrdered (ordered bits)
  rw [← UInt64.toNat_inj]
  by_cases h : nonneg bits = true
  · have hto := toNat_ordered_of_nonneg bits h
    rw [nonneg_iff] at h
    by_cases h' : nonneg (ofOrdered (ordered bits)) = true
    · rw [toNat_ordered_of_nonneg _ h']
      rw [nonneg_iff] at h'
      split at hto <;> split at hback <;> split <;> omega
    · rw [toNat_ordered_of_not_nonneg _ h']
      rw [nonneg_iff] at h'
      split at hto <;> split at hback <;> omega
  · have hto := toNat_ordered_of_not_nonneg bits h
    rw [nonneg_iff] at h
    by_cases h' : nonneg (ofOrdered (ordered bits)) = true
    · rw [toNat_ordered_of_nonneg _ h']
      rw [nonneg_iff] at h'
      split at hback <;> split <;> omega
    · rw [toNat_ordered_of_not_nonneg _ h']
      rw [nonneg_iff] at h'
      split at hback <;> omega

end F64

/-! ## Keys of values -/

theorem beValue_beBytes {n : Nat} (h : n < 2 ^ 64) : beValue (beBytes n) = n := by
  rw [beValue, beBytes, List.reverse_reverse]
  exact leValue_leBytes h

theorem keyWord_beBytes (n : Nat) : keyWord (beBytes n) = .ok (beBytes n) := by
  have hlen := length_beBytes n
  rw [keyWord, if_neg (by omega), List.take_of_length_le (by omega)]

theorem ofKeyInt_keyInt (v : Int64) : ofKeyInt (keyInt v) = v := by
  rw [ofKeyInt, keyInt, beValue_beBytes (UInt64.toNat_lt _), UInt64.ofNat_toNat, UInt64.xor_assoc,
    UInt64.xor_self, UInt64.xor_zero]

/-- `decode_key` reads the keys of values, and what it reads has the same key. -/
theorem decodeKey_encodeKey {d : Datum} {key : Bytes} (h : encodeKey d = .ok key) :
    ∃ d', decodeKey key = .ok d' ∧ encodeKey d' = .ok key := by
  cases d with
  | null => cases h
  | int v =>
    cases h
    refine ⟨.int (ofKeyInt (keyInt v)), ?_, by rw [ofKeyInt_keyInt]; rfl⟩
    rw [decodeKey, keyInt, keyWord_beBytes]
    rfl
  | float bits =>
    cases h
    refine ⟨.float (F64.ofOrdered (F64.ordered bits)), ?_, ?_⟩
    · rw [decodeKey, keyWord_beBytes]
      simp only [Except.map, beValue_beBytes (UInt64.toNat_lt _), UInt64.ofNat_toNat]
    · rw [encodeKey, F64.ordered_ofOrdered_ordered]
  | text v =>
    cases h
    exact ⟨.text v, by simp only [decodeKey, fromUtf8_utf8], rfl⟩
  | bool v =>
    cases h
    cases v <;> exact ⟨_, rfl, rfl⟩
  | dateTime v =>
    cases h
    refine ⟨.dateTime (ofKeyInt (keyInt v)), ?_, by rw [ofKeyInt_keyInt]; rfl⟩
    rw [decodeKey, keyInt, keyWord_beBytes]
    rfl

/-! ## Secondary keys -/

theorem escapeText_append_inj : ∀ {v v' k k' : Bytes}, escapeText v ++ k = escapeText v' ++ k' →
    escapeText v = escapeText v' ∧ k = k'
  | [], [], k, k', h => ⟨rfl, List.append_cancel_left h⟩
  | [], b :: v', k, k', h => by
    rw [escapeText, escapeText] at h
    split at h
    · simp at h
    · next hb =>
      simp only [List.cons_append, List.cons.injEq] at h
      exact absurd h.1.symm hb
  | b :: v, [], k, k', h => by
    rw [escapeText, escapeText] at h
    split at h
    · simp at h
    · next hb =>
      simp only [List.cons_append, List.cons.injEq] at h
      exact absurd h.1 hb
  | b :: v, b' :: v', k, k', h => by
    rw [escapeText, escapeText] at h ⊢
    split at h
    · next hb =>
      split at h
      · next hb' =>
        simp only [List.cons_append, List.cons.injEq, true_and] at h
        obtain ⟨hv, rfl⟩ := escapeText_append_inj h
        rw [if_pos hb, if_pos hb', hv]
        exact ⟨rfl, rfl⟩
      · next hb' =>
        simp only [List.cons_append, List.cons.injEq] at h
        exact absurd h.1.symm hb'
    · next hb =>
      split at h
      · simp only [List.cons_append, List.cons.injEq] at h
        exact absurd h.1 hb
      · next hb' =>
        simp only [List.cons_append, List.cons.injEq] at h
        obtain ⟨hv, rfl⟩ := escapeText_append_inj h.2
        rw [if_neg hb, if_neg hb', hv, h.1]
        exact ⟨rfl, rfl⟩

theorem length_keyInt (v : Int64) : (keyInt v).length = 8 := length_beBytes _

/-- Codes of one length mark their own end too. -/
theorem cons_append_inj {tag : UInt8} {p p' k k' : Bytes} (hlen : p.length = p'.length)
    (h : tag :: p ++ k = tag :: p' ++ k') : tag :: p = tag :: p' ∧ k = k' := by
  obtain ⟨-, h⟩ := List.cons.inj h
  obtain ⟨rfl, rfl⟩ := List.append_inj h hlen
  exact ⟨rfl, rfl⟩

/-- A secondary key determines the encoded value and the primary key. -/
theorem encodeSecKeyPrefix_append_inj {v v' : Datum} {k k' : Bytes}
    (h : encodeSecKeyPrefix v ++ k = encodeSecKeyPrefix v' ++ k') :
    encodeSecKeyPrefix v = encodeSecKeyPrefix v' ∧ k = k' := by
  cases v with
  | null =>
    cases v' with
    | null => exact cons_append_inj rfl h
    | _ => simp [encodeSecKeyPrefix] at h
  | int v =>
    cases v' with
    | int v' => exact cons_append_inj ((length_keyInt v).trans (length_keyInt v').symm) h
    | _ => simp [encodeSecKeyPrefix] at h
  | float bits =>
    cases v' with
    | float bits' => exact cons_append_inj ((length_beBytes _).trans (length_beBytes _).symm) h
    | _ => simp [encodeSecKeyPrefix] at h
  | text v =>
    cases v' with
    | text v' =>
      obtain ⟨-, h⟩ := List.cons.inj h
      obtain ⟨hv, rfl⟩ := escapeText_append_inj h
      exact ⟨congrArg (3 :: ·) hv, rfl⟩
    | _ => simp [encodeSecKeyPrefix] at h
  | bool v =>
    cases v' with
    | bool v' => exact cons_append_inj rfl h
    | _ => simp [encodeSecKeyPrefix] at h
  | dateTime v =>
    cases v' with
    | dateTime v' => exact cons_append_inj ((length_keyInt v).trans (length_keyInt v').symm) h
    | _ => simp [encodeSecKeyPrefix] at h

end HenchDB
