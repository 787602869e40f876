import HenchDB.KeyOrder
import HenchDB.Query.Visible

/-!
# Secondary keys in the order of values

An entry of a secondary index is the encoded column value followed by the encoded
primary key.  The value marks its own end: its code has a fixed length for its tag,
or is a text in which a zero byte is followed by `0xFF` and that ends in two zeros.
So an entry is read back (`decodeSecIndexKey_entry`), and entries compare first by
the values and then by the keys (`compare_entry`).  The texts keep their order
since `0xFF` lies above the second zero of the end, and every other byte above the
first (`compare_escapeText`).
-/

namespace HenchDB

open Query (unescapeText secWord splitSecKey decodeSecIndexKey)

/-! ## Texts -/

/-- Byte strings that begin with parts of one length. -/
theorem compare_append : ∀ {a b x y : Bytes}, a.length = b.length →
    compare (a ++ x) (b ++ y) = (compare a b).then (compare x y)
  | [], [], _, _, _ => rfl
  | a :: as, b :: bs, x, y, h => by
    rw [List.cons_append, List.cons_append, List.compare_cons_cons, List.compare_cons_cons,
      compare_append (Nat.succ.inj h), Ordering.then_assoc]

theorem unescapeText_escapeText : ∀ (v rest : Bytes),
    unescapeText (escapeText v ++ rest) = .ok (v, rest)
  | [], rest => rfl
  | b :: v, rest => by
    have ih := unescapeText_escapeText v rest
    rw [escapeText]
    split
    · next hb =>
      subst hb
      simp only [List.cons_append, unescapeText, if_true, ih, Except.map]
      rfl
    · next hb =>
      simp only [List.cons_append, unescapeText.eq_def (b :: _), if_neg hb, ih, Except.map]

theorem compare_zero_byte {b : UInt8} (hb : b ≠ 0) : compare 0 b = .lt := by
  refine Std.compare_eq_lt.mpr (UInt8.lt_iff_toNat_lt.mpr ?_)
  have hne : b.toNat ≠ 0 := fun h => hb (UInt8.toNat.inj h)
  exact Nat.pos_of_ne_zero hne

theorem compare_byte_zero {b : UInt8} (hb : b ≠ 0) : compare b 0 = .gt :=
  Std.OrientedCmp.gt_of_lt (compare_zero_byte hb)

theorem compare_escapeText : ∀ (v v' k k' : Bytes),
    compare (escapeText v ++ k) (escapeText v' ++ k') = (compare v v').then (compare k k')
  | [], [], k, k' => by
    rw [compare_append rfl, Std.compare_self, Std.compare_self]
  | [], b :: v', k, k' => by
    rw [escapeText, escapeText]
    split
    · rfl
    · next hb =>
      simp only [List.cons_append, List.compare_cons_cons, compare_zero_byte hb]
      rfl
  | b :: v, [], k, k' => by
    rw [escapeText, escapeText]
    split
    · rfl
    · next hb =>
      simp only [List.cons_append, List.compare_cons_cons, compare_byte_zero hb]
      rfl
  | b :: v, b' :: v', k, k' => by
    have ih := compare_escapeText v v' k k'
    rw [escapeText, escapeText, List.compare_cons_cons]
    split
    · next hb =>
      subst hb
      split
      · next hb' =>
        subst hb'
        simp only [List.cons_append, List.compare_cons_cons, Std.compare_self, Ordering.eq_then,
          ih]
      · next hb' =>
        simp only [List.cons_append, List.compare_cons_cons, compare_zero_byte hb']
        rfl
    · next hb =>
      split
      · next hb' =>
        subst hb'
        simp only [List.cons_append, List.compare_cons_cons, compare_byte_zero hb]
        rfl
      · rw [List.cons_append, List.cons_append, List.compare_cons_cons, ih, Ordering.then_assoc]

/-! ## Entries -/

theorem secWord_append {what : String} {w k : Bytes} (hlen : w.length = 8) :
    secWord what (w ++ k) = .ok (w, k) := by
  rw [secWord, if_neg (by rw [List.length_append]; omega), List.take_left' hlen, List.drop_left' hlen]

/-- The column value of an entry. -/
theorem splitSecKey_prefix {s : Datum} (hs : ∀ bits, s ≠ .float bits) (k : Bytes) :
    splitSecKey (encodeSecKeyPrefix s ++ k) = .ok (s, k) := by
  cases s with
  | null => rfl
  | int v =>
    rw [encodeSecKeyPrefix, List.cons_append, splitSecKey]
    simp only [secWord_append (length_keyInt v), Except.map, ofKeyInt_keyInt]
  | float bits => exact absurd rfl (hs bits)
  | text v =>
    rw [encodeSecKeyPrefix, List.cons_append, splitSecKey]
    simp only [unescapeText_escapeText, fromUtf8_utf8]
  | bool v => cases v <;> rfl
  | dateTime v =>
    rw [encodeSecKeyPrefix, List.cons_append, splitSecKey]
    simp only [secWord_append (length_keyInt v), Except.map, ofKeyInt_keyInt]

theorem decodeSecIndexKey_entry {s p : Datum} {k : Bytes} (hs : ∀ bits, s ≠ .float bits)
    (hk : decodeKey k = .ok p) : decodeSecIndexKey (encodeSecKeyPrefix s ++ k) = .ok (s, p) := by
  simp only [decodeSecIndexKey, splitSecKey_prefix hs, Except.mapError, bind, Except.bind, hk, pure,
    Except.pure]

/-- Entries with values of one kind compare by the values and then by the keys. -/
theorem compare_entry {s s' : Datum} (hkind : s.typeName = s'.typeName) (hs : ∀ bits, s ≠ .float bits)
    (k k' : Bytes) : compare (encodeSecKeyPrefix s ++ k) (encodeSecKeyPrefix s' ++ k') =
      (s.cmp s').then (compare k k') := by
  cases s with
  | null =>
    cases s' with
    | null => rw [compare_append rfl, Std.compare_self]; rfl
    | _ => simp [Datum.typeName] at hkind
  | int v =>
    cases s' with
    | int v' =>
      rw [encodeSecKeyPrefix, encodeSecKeyPrefix, compare_append (by simp [length_keyInt]),
        compare_tagged, compare_keyInt]
      rfl
    | _ => simp [Datum.typeName] at hkind
  | float bits => exact absurd rfl (hs bits)
  | text v =>
    cases s' with
    | text v' =>
      rw [encodeSecKeyPrefix, encodeSecKeyPrefix, List.cons_append, List.cons_append, compare_tagged,
        compare_escapeText, compare_utf8]
      rfl
    | _ => simp [Datum.typeName] at hkind
  | bool v =>
    cases s' with
    | bool v' => cases v <;> cases v' <;> rfl
    | _ => simp [Datum.typeName] at hkind
  | dateTime v =>
    cases s' with
    | dateTime v' =>
      rw [encodeSecKeyPrefix, encodeSecKeyPrefix, compare_append (by simp [length_keyInt]),
        compare_tagged, compare_keyInt]
      rfl
    | _ => simp [Datum.typeName] at hkind

/-- A code that begins with that of another value is its code. -/
theorem eq_of_prefixed {s s' : Datum} (hs : ∀ bits, s ≠ .float bits) (hs' : ∀ bits, s' ≠ .float bits)
    (h : encodeSecKeyPrefix s <+: encodeSecKeyPrefix s') : s = s' := by
  obtain ⟨k, hk⟩ := h
  have hsplit := splitSecKey_prefix hs k
  rw [hk, ← List.append_nil (encodeSecKeyPrefix s'), splitSecKey_prefix hs' []] at hsplit
  exact (Prod.ext_iff.mp (Except.ok.inj hsplit)).1.symm

/-- Entries of values other than floats are read back, no code of a value begins another
of its kind, and entries of one kind are in the order of their values and keys. -/
theorem secKeys_embed {s s' p p' : Datum} (hs : ∀ bits, s ≠ .float bits)
    (hs' : ∀ bits, s' ≠ .float bits) (hp : ∀ bits, p ≠ .float bits) (hnull : p ≠ .null) :
    (∃ k, encodeSecIndexKey s p = .ok k ∧ decodeSecIndexKey k = .ok (s, p)) ∧
    (s.typeName = s'.typeName → s ≠ s' → ¬ encodeSecKeyPrefix s <+: encodeSecKeyPrefix s') ∧
    (s.typeName = s'.typeName → p.typeName = p'.typeName →
      ∃ k k', encodeSecIndexKey s p = .ok k ∧ encodeSecIndexKey s' p' = .ok k' ∧
        compare k k' = (s.cmp s').then (p.cmp p')) := by
  have hentry : ∀ {s p : Datum} {k : Bytes}, encodeKey p = .ok k →
      encodeSecIndexKey s p = .ok (encodeSecKeyPrefix s ++ k) := by
    intro s p k hk
    rw [encodeSecIndexKey, hk]
    rfl
  refine ⟨?_, fun _ hne h => hne (eq_of_prefixed hs hs' h), fun hkind hkind' => ?_⟩
  · obtain ⟨k, -, hk, -, hback, -⟩ := keyEmbeds_of_not_float rfl hnull hp
    exact ⟨_, hentry hk, decodeSecIndexKey_entry hs hback⟩
  · obtain ⟨k, k', hk, hk', -, hcmp⟩ := keyEmbeds_of_not_float hkind' hnull hp
    exact ⟨_, _, hentry hk, hentry hk', by rw [compare_entry hkind hs, hcmp]⟩

/-- A text with a zero byte inside before a longer one. -/
theorem secKeys_embed_zero :
    (∃ k, encodeSecIndexKey (.text "a\x00") (.int 1) = .ok k ∧
      decodeSecIndexKey k = .ok (.text "a\x00", .int 1)) ∧
    (Datum.typeName (.text "a\x00") = Datum.typeName (.text "a\x00b") →
      Datum.text "a\x00" ≠ .text "a\x00b" →
      ¬ encodeSecKeyPrefix (.text "a\x00") <+: encodeSecKeyPrefix (.text "a\x00b")) ∧
    (Datum.typeName (.text "a\x00") = Datum.typeName (.text "a\x00b") →
      Datum.typeName (.int 1) = Datum.typeName (.int 0) →
      ∃ k k', encodeSecIndexKey (.text "a\x00") (.int 1) = .ok k ∧
        encodeSecIndexKey (.text "a\x00b") (.int 0) = .ok k' ∧
        compare k k' = (Datum.cmp (.text "a\x00") (.text "a\x00b")).then (Datum.cmp (.int 1) (.int 0))) :=
  secKeys_embed nofun nofun nofun nofun

end HenchDB
