import Mathlib.Data.List.Lex
import Mathlib.Data.UInt
import HenchDB.Lib.Search

/-!
# Keys, key heads and the prefix-filtered search

Keys and values are byte strings ordered as `memcmp` orders them.  Every node
keeps, beside its keys, the array of their first four bytes read as a
big-endian number (`keyHead`, zero-padded when the key is shorter).
`lowerBound` compares heads first and looks at the key only when the heads
agree.  Heads are consistent with the order of keys (`lt_of_keyHead_lt`), so
the search finds the first key that is not below the searched one
(`lowerBound_split`), and its position is the number of the keys below
(`lowerBound_eq_countP`).
-/

namespace HenchDB

/-- `Vec<u8>`. -/
abbrev Bytes := List UInt8

/-- Bytes are ordered by their value. -/
instance instLinearOrderUInt8 : LinearOrder UInt8 :=
  LinearOrder.lift' UInt8.toNat fun _ _ h => UInt8.toNat_inj.mp h

/-- The strict order of byte strings is the one of their linear order. -/
instance (priority := 2000) : LT Bytes := Preorder.toLT

instance instTransOrdBytes : Std.TransOrd Bytes := inferInstance

instance instLawfulEqOrdBytes : Std.LawfulEqOrd Bytes := inferInstance

namespace BTree

/-! ## Key heads -/

/-- The first four bytes of a key as a big-endian `u32`, zero-padded. -/
def keyHead (key : Bytes) : Nat :=
  (key.getD 0 0).toNat * 2 ^ 24 + (key.getD 1 0).toNat * 2 ^ 16 +
    (key.getD 2 0).toNat * 2 ^ 8 + (key.getD 3 0).toNat

def headsFor (keys : List Bytes) : List Nat := keys.map keyHead

/-- The first `n` bytes of a key as a big-endian number, zero-padded. -/
def prefixValue : Nat → Bytes → Nat
  | 0, _ => 0
  | n + 1, [] => prefixValue n []
  | n + 1, b :: key => b.toNat * 256 ^ n + prefixValue n key

theorem prefixValue_nil : ∀ n, prefixValue n [] = 0
  | 0 => rfl
  | n + 1 => prefixValue_nil n

theorem prefixValue_lt : ∀ n key, prefixValue n key < 256 ^ n
  | 0, _ => by simp [prefixValue]
  | n + 1, [] => by rw [prefixValue_nil]; positivity
  | n + 1, b :: key => by
    have hb : b.toNat ≤ 255 := Nat.le_of_lt_succ (UInt8.toNat_lt b)
    have hrest := prefixValue_lt n key
    calc b.toNat * 256 ^ n + prefixValue n key
        < b.toNat * 256 ^ n + 256 ^ n := by omega
      _ = (b.toNat + 1) * 256 ^ n := by ring
      _ ≤ 256 * 256 ^ n := Nat.mul_le_mul_right _ (by omega)
      _ = 256 ^ (n + 1) := by ring

theorem keyHead_eq_prefixValue (key : Bytes) : keyHead key = prefixValue 4 key := by
  match key with
  | [] => rfl
  | [a] => simp [keyHead, prefixValue]
  | [a, b] => simp [keyHead, prefixValue]
  | [a, b, c] => simp [keyHead, prefixValue]; ring
  | a :: b :: c :: d :: rest => simp [keyHead, prefixValue]; ring

/-- Padded prefixes are monotone in the order of keys. -/
theorem prefixValue_le_of_le : ∀ n {a b : Bytes}, a ≤ b → prefixValue n a ≤ prefixValue n b
  | 0, _, _, _ => le_rfl
  | n + 1, [], b, _ => by rw [prefixValue_nil]; exact Nat.zero_le _
  | n + 1, x :: a, [], h => absurd h (not_le.mpr (List.nil_lt_cons x a))
  | n + 1, x :: a, y :: b, h => by
    rcases h.lt_or_eq with hlt | heq
    · rcases List.cons_lt_cons_iff.mp hlt with hxy | ⟨rfl, hab⟩
      · -- the first bytes decide, whatever follows
        have hx : x.toNat + 1 ≤ y.toNat := hxy
        have hrest := prefixValue_lt n a
        calc x.toNat * 256 ^ n + prefixValue n a
            ≤ x.toNat * 256 ^ n + 256 ^ n := by omega
          _ = (x.toNat + 1) * 256 ^ n := by ring
          _ ≤ y.toNat * 256 ^ n := Nat.mul_le_mul_right _ hx
          _ ≤ y.toNat * 256 ^ n + prefixValue n b := Nat.le_add_right _ _
      · exact Nat.add_le_add_left (prefixValue_le_of_le n hab.le) _
    · rw [heq]

/-- Heads decide the order of keys whenever they differ. -/
theorem lt_of_keyHead_lt {a b : Bytes} (h : keyHead a < keyHead b) : a < b := by
  by_contra hle
  have := prefixValue_le_of_le 4 (not_lt.mp hle)
  rw [keyHead_eq_prefixValue, keyHead_eq_prefixValue] at h
  omega

/-! ## The search -/

/-- The test of one round of `lower_bound` at position `i`. -/
def belowAt (keys : List Bytes) (heads : List Nat) (key : Bytes) (i : Nat) : Bool :=
  heads.getD i 0 < keyHead key ∨ (heads.getD i 0 = keyHead key ∧ keys.getD i [] < key)

/-- First index whose key is not below `key`, by binary search on the heads. -/
def lowerBound (keys : List Bytes) (heads : List Nat) (key : Bytes) : Nat :=
  let n := min keys.length heads.length
  Search.searchFrom (belowAt keys heads key) n 0 n

/-- On a node whose heads mirror its keys the test is the comparison of keys. -/
theorem belowAt_iff {keys : List Bytes} {key : Bytes} {i : Nat} (hi : i < keys.length) :
    belowAt keys (headsFor keys) key i = true ↔ keys[i] < key := by
  have hk : keys.getD i [] = keys[i] := by simp [List.getD, hi]
  have hh : (headsFor keys).getD i 0 = keyHead keys[i] := by simp [headsFor, List.getD, hi]
  unfold belowAt
  rw [hk, hh, decide_eq_true_iff]
  constructor
  · rintro (h | ⟨_, h⟩)
    · exact lt_of_keyHead_lt h
    · exact h
  · intro h
    rcases lt_trichotomy (keyHead keys[i]) (keyHead key) with hlt | heq | hgt
    · exact Or.inl hlt
    · exact Or.inr ⟨heq, h⟩
    · exact absurd h (lt_of_keyHead_lt hgt).not_gt

/-- The search cuts a sorted key vector into the keys below the searched key
and those that are not. -/
theorem lowerBound_split {keys : List Bytes} (sorted : keys.Pairwise (· < ·)) (key : Bytes) :
    (∀ k ∈ keys.take (lowerBound keys (headsFor keys) key), k < key) ∧
      (∀ k ∈ keys.drop (lowerBound keys (headsFor keys) key), key ≤ k) ∧
      lowerBound keys (headsFor keys) key ≤ keys.length := by
  have hlen : min keys.length (headsFor keys).length = keys.length := by simp [headsFor]
  have closed : ∀ i j, i ≤ j → j < keys.length →
      belowAt keys (headsFor keys) key j = true → belowAt keys (headsFor keys) key i = true := by
    intro i j hij hj hb
    rw [belowAt_iff hj] at hb
    rw [belowAt_iff (by omega)]
    rcases Nat.lt_or_eq_of_le hij with hlt | rfl
    · exact lt_trans (List.pairwise_iff_getElem.mp sorted i j (by omega) hj hlt) hb
    · exact hb
  obtain ⟨_, hup, hholds, hfails⟩ := Search.searchFrom_boundary closed keys.length 0 keys.length
    (Nat.zero_le _) le_rfl (by omega)
  have heq : lowerBound keys (headsFor keys) key =
      Search.searchFrom (belowAt keys (headsFor keys) key) keys.length 0 keys.length := by
    unfold lowerBound
    rw [hlen]
  rw [heq]
  refine ⟨fun k hk => ?_, fun k hk => ?_, hup⟩
  · obtain ⟨i, hi, rfl⟩ := List.getElem_of_mem hk
    rw [List.length_take] at hi
    rw [List.getElem_take]
    exact (belowAt_iff (by omega)).mp (hholds i (Nat.zero_le _) (by omega))
  · obtain ⟨i, hi, rfl⟩ := List.getElem_of_mem hk
    rw [List.length_drop] at hi
    rw [List.getElem_drop]
    refine not_lt.mp fun hlt => ?_
    have := hfails _ (Nat.le_add_right _ i) (by omega)
    rw [← belowAt_iff (by omega), this] at hlt
    exact absurd hlt (by simp)

/-- The loop of `lower_bound`, and what it has returned after so many rounds. -/
def lowerBoundLoop (keys : List Bytes) (heads : List Nat) (key : Bytes) (rounds : Nat) : Option Nat :=
  Search.loop (belowAt keys heads key) rounds 0 (min keys.length heads.length)

/-- On sorted keys the search returns the number of keys below the searched one,
and its loop ends after as many rounds as there are keys. -/
theorem lowerBound_eq_countP {keys : List Bytes} (sorted : keys.Pairwise (· < ·)) (key : Bytes) :
    lowerBound keys (headsFor keys) key = keys.countP (· < key) ∧
      ∀ rounds, keys.length ≤ rounds →
        lowerBoundLoop keys (headsFor keys) key rounds = some (keys.countP (· < key)) := by
  have hcount : keys.countP (· < key) = lowerBound keys (headsFor keys) key := by
    obtain ⟨hbelow, habove, hle⟩ := lowerBound_split sorted key
    generalize lowerBound keys (headsFor keys) key = r at hbelow habove hle
    have hall : (keys.take r).countP (· < key) = r := by
      rw [List.countP_eq_length.mpr (by simpa using hbelow), List.length_take, Nat.min_eq_left hle]
    have hnone : (keys.drop r).countP (· < key) = 0 :=
      List.countP_eq_zero.mpr (by simpa using habove)
    calc keys.countP (· < key)
        = (keys.take r ++ keys.drop r).countP (· < key) := by rw [List.take_append_drop]
      _ = r := by rw [List.countP_append, hall, hnone, Nat.add_zero]
  refine ⟨hcount.symm, fun rounds hrounds => ?_⟩
  have hlen : min keys.length (headsFor keys).length = keys.length := by simp [headsFor]
  rw [lowerBoundLoop, hcount, lowerBound]
  exact Search.loop_eq (by omega) (by omega)

/-- Keys shorter than four bytes, with zero bytes at the end and prefixes of each other. -/
theorem lowerBound_zeros : lowerBound [[], [97], [97, 0], [97, 0, 0], [97, 98]]
    (headsFor [[], [97], [97, 0], [97, 0, 0], [97, 98]]) [97, 0] = 2 :=
  (lowerBound_eq_countP (by decide) [97, 0]).1.trans (by decide)

end BTree

end HenchDB
