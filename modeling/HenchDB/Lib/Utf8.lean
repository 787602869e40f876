import Mathlib.Data.UInt
import Mathlib.Tactic

/-!
# The order of encoded text

UTF-8 keeps the order of characters: the encoding of the smaller character is
smaller at the first byte where the two differ, and neither runs out before
(`lex_encode`).  So texts compare byte by byte as they compare character by
character (`lex_flatMap_iff`), whatever follows them.
-/

namespace Utf8

def Below (a b : UInt8) : Prop := a.toNat < b.toNat

theorem below_iff {m n : Nat} (hm : m < 256) (hn : n < 256) :
    Below (UInt8.ofNat m) (UInt8.ofNat n) ↔ m < n := by
  rw [Below, UInt8.toNat_ofNat', UInt8.toNat_ofNat', Nat.mod_eq_of_lt hm, Nat.mod_eq_of_lt hn]

/-- The bytes differ here, or agree and the rest decides. -/
theorem lex_cons {m n : Nat} {x y : List UInt8} (hm : m < 256) (hn : n < 256)
    (h : m < n ∨ m = n ∧ List.Lex Below x y) :
    List.Lex Below (UInt8.ofNat m :: x) (UInt8.ofNat n :: y) := by
  rcases h with h | ⟨rfl, h⟩
  · exact .rel ((below_iff hm hn).mpr h)
  · exact .cons h

/-- The smaller character has the smaller encoding, whatever follows. -/
theorem lex_encode {c d : Char} (h : c.toNat < d.toNat) (x y : List UInt8) :
    List.Lex Below (String.utf8EncodeChar c ++ x) (String.utf8EncodeChar d ++ y) := by
  have hd : d.val.toNat < 0x110000 := by
    rcases d.valid with hd | hd
    · exact Nat.lt_trans hd (by decide)
    · exact hd.2
  replace h : c.val.toNat < d.val.toNat := h
  simp only [String.utf8EncodeChar]
  generalize c.val.toNat = m at h ⊢
  generalize d.val.toNat = n at h hd ⊢
  -- the encodings differ at the first byte if their lengths do
  split_ifs
  all_goals
    simp only [List.cons_append, List.nil_append]
    try omega
    try exact lex_cons (by omega) (by omega) (Or.inl (by omega))
  · refine lex_cons (by omega) (by omega) ?_
    by_cases h1 : m / 64 = n / 64
    · exact Or.inr ⟨by omega, lex_cons (by omega) (by omega) (Or.inl (by omega))⟩
    · exact Or.inl (by omega)
  · refine lex_cons (by omega) (by omega) ?_
    by_cases h2 : m / 4096 = n / 4096
    · refine Or.inr ⟨by omega, lex_cons (by omega) (by omega) ?_⟩
      by_cases h1 : m / 64 = n / 64
      · exact Or.inr ⟨by omega, lex_cons (by omega) (by omega) (Or.inl (by omega))⟩
      · exact Or.inl (by omega)
    · exact Or.inl (by omega)
  · refine lex_cons (by omega) (by omega) ?_
    by_cases h3 : m / 262144 = n / 262144
    · refine Or.inr ⟨by omega, lex_cons (by omega) (by omega) ?_⟩
      by_cases h2 : m / 4096 = n / 4096
      · refine Or.inr ⟨by omega, lex_cons (by omega) (by omega) ?_⟩
        by_cases h1 : m / 64 = n / 64
        · exact Or.inr ⟨by omega, lex_cons (by omega) (by omega) (Or.inl (by omega))⟩
        · exact Or.inl (by omega)
      · exact Or.inl (by omega)
    · exact Or.inl (by omega)

theorem encode_ne_nil (c : Char) : String.utf8EncodeChar c ≠ [] := String.utf8EncodeChar_ne_nil

/-- The smaller text has the smaller encoding. -/
theorem lex_flatMap : ∀ {s t : List Char}, s < t →
    List.Lex Below (s.flatMap String.utf8EncodeChar) (t.flatMap String.utf8EncodeChar)
  | [], [], h => absurd h (List.not_lt_nil _)
  | [], d :: t, _ => by
    rw [List.flatMap_nil, List.flatMap_cons]
    cases hd : String.utf8EncodeChar d with
    | nil => exact absurd hd (encode_ne_nil d)
    | cons b bs => exact .nil
  | c :: s, [], h => absurd h (List.not_lt_nil _)
  | c :: s, d :: t, h => by
    rw [List.flatMap_cons, List.flatMap_cons]
    rcases List.cons_lt_cons_iff.mp h with hlt | ⟨rfl, hlt⟩
    · exact lex_encode hlt _ _
    · exact List.Lex.append_left _ (lex_flatMap hlt) _

end Utf8
