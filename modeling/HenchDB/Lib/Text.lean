import Mathlib.Data.List.TakeWhile
import Mathlib.Tactic

/-!
# Text that is cut at byte offsets

A text is a list of characters, an offset counts the bytes of its UTF-8 encoding.
Cutting a text at an offset panics where the offset is inside a character or behind
the end.  An offset that a search returns is never such an offset (`split_find`,
`split_findLower`): the search finds it between two characters.
-/

namespace Text

def byteLen : List Char → Nat
  | [] => 0
  | c :: s => c.utf8Size + byteLen s

/-- The two sides of an offset, if it is between two characters. -/
def splitAt? : Nat → List Char → Option (List Char × List Char)
  | 0, s => some ([], s)
  | _ + 1, [] => none
  | n + 1, c :: s =>
    if c.utf8Size ≤ n + 1 then
      (splitAt? (n + 1 - c.utf8Size) s).map fun p => (c :: p.1, p.2)
    else none

/-- How a cut goes wrong. -/
inductive Panic where
  | boundary
deriving DecidableEq, Repr

/-- `str::split_at`. -/
def split (n : Nat) (s : List Char) : Except Panic (List Char × List Char) :=
  match splitAt? n s with
  | some p => .ok p
  | none => .error .boundary

/-- `s[..n]`. -/
def before (n : Nat) (s : List Char) : Except Panic (List Char) := (split n s).map Prod.fst

/-- `s[n..]`. -/
def behind (n : Nat) (s : List Char) : Except Panic (List Char) := (split n s).map Prod.snd

/-- `s[m..n]`. -/
def between (m n : Nat) (s : List Char) : Except Panic (List Char) := do behind m (← before n s)

/-- The offset of the first place where the rest of the text satisfies `p`. -/
def find (p : List Char → Bool) : List Char → Option Nat
  | [] => if p [] then some 0 else none
  | c :: s => if p (c :: s) then some 0 else (find p s).map (c.utf8Size + ·)

/-- The offset of a text in the lower-case copy of another. -/
def findLower (pat s : List Char) : Option Nat := find pat.isPrefixOf (s.map Char.toLower)

/-! ## Offsets -/

theorem byteLen_append : ∀ a b : List Char, byteLen (a ++ b) = byteLen a + byteLen b
  | [], b => (Nat.zero_add _).symm
  | c :: a, b => by
    rw [List.cons_append, byteLen, byteLen_append a b, byteLen, Nat.add_assoc]

theorem splitAt?_append : ∀ a b : List Char, splitAt? (byteLen a) (a ++ b) = some (a, b)
  | [], b => by
    cases b <;> rfl
  | c :: a, b => by
    have hpos := c.utf8Size_pos
    obtain ⟨n, hn⟩ : ∃ n, c.utf8Size + byteLen a = n + 1 := ⟨c.utf8Size + byteLen a - 1, by omega⟩
    rw [byteLen, hn, List.cons_append, splitAt?, if_pos (by omega),
      show n + 1 - c.utf8Size = byteLen a by omega, splitAt?_append a b]
    rfl

theorem split_append (a b : List Char) : split (byteLen a) (a ++ b) = .ok (a, b) := by
  rw [split, splitAt?_append]

theorem before_append (a b : List Char) : before (byteLen a) (a ++ b) = .ok a := by
  rw [before, split_append]
  rfl

theorem behind_append (a b : List Char) : behind (byteLen a) (a ++ b) = .ok b := by
  rw [behind, split_append]
  rfl

theorem between_append (a b c : List Char) :
    between (byteLen a) (byteLen (a ++ b)) (a ++ b ++ c) = .ok b := by
  rw [between, before_append]
  exact behind_append a b

theorem byteLen_le_of_sublist {a b : List Char} (h : a.Sublist b) : byteLen a ≤ byteLen b := by
  induction h with
  | slnil => exact le_rfl
  | cons c _ ih => exact ih.trans (Nat.le_add_left _ _)
  | cons_cons c _ ih => exact Nat.add_le_add_left ih _

/-! ## Searches -/

theorem find_spec {p : List Char → Bool} : ∀ {s : List Char} {n : Nat}, find p s = some n →
    ∃ a b, s = a ++ b ∧ n = byteLen a ∧ p b = true
  | [], n, h => by
    rw [find] at h
    split at h
    · cases h
      exact ⟨[], [], rfl, rfl, ‹_›⟩
    · cases h
  | c :: s, n, h => by
    rw [find] at h
    split at h
    · cases h
      exact ⟨[], c :: s, rfl, rfl, ‹_›⟩
    · obtain ⟨m, hm, rfl⟩ := Option.map_eq_some_iff.1 h
      obtain ⟨a, b, rfl, rfl, hp⟩ := find_spec hm
      exact ⟨c :: a, b, rfl, rfl, hp⟩

/-- The letters that have another case are single bytes in both. -/
theorem utf8Size_toLower (c : Char) : c.toLower.utf8Size = c.utf8Size := by
  delta Char.toLower
  split
  · rename_i h
    have hz : c.val.toNat ≤ 90 := UInt32.le_iff_toNat_le.1 h.2
    have hupper : c.utf8Size = 1 := Char.utf8Size_eq_one_iff.2 (UInt32.le_trans h.2 (by decide))
    rw [hupper, Char.utf8Size_eq_one_iff, UInt32.le_iff_toNat_le]
    show (c.val.toNat + 32) % 2 ^ 32 ≤ 127
    omega
  · rfl

theorem byteLen_lower : ∀ s : List Char, byteLen (s.map Char.toLower) = byteLen s
  | [] => rfl
  | c :: s => by rw [List.map_cons, byteLen, byteLen, utf8Size_toLower, byteLen_lower s]

variable {pat s : List Char} {n : Nat}

/-- A text found in the lower-case copy stands at the same offset in the text. -/
theorem findLower_spec (h : findLower pat s = some n) :
    ∃ a p b, s = a ++ p ++ b ∧ n = byteLen a ∧ byteLen p = byteLen pat := by
  obtain ⟨a', b', hs, rfl, hp⟩ := find_spec h
  obtain ⟨a, q, rfl, rfl, rfl⟩ := List.map_eq_append_iff.1 hs
  obtain ⟨t, ht⟩ := List.isPrefixOf_iff_prefix.1 hp
  obtain ⟨p, b, rfl, hpat, -⟩ := List.map_eq_append_iff.1 ht.symm
  refine ⟨a, p, b, (List.append_assoc a p b).symm, byteLen_lower a, ?_⟩
  rw [← hpat, byteLen_lower]

/-- Both cuts around a text that was found are between characters. -/
theorem cut_findLower (h : findLower pat s = some n) :
    ∃ a b, before n s = .ok a ∧ behind (n + byteLen pat) s = .ok b := by
  obtain ⟨a, p, b, rfl, rfl, hlen⟩ := findLower_spec h
  refine ⟨a, b, ?_, ?_⟩
  · rw [List.append_assoc, before_append]
  · rw [← hlen, ← byteLen_append, behind_append]

/-- The first character of a kind is behind those that are not of it. -/
theorem find_head (p : Char → Bool) : ∀ s : List Char, find (fun t => t.head?.any p) s =
    if s.dropWhile (fun c => !p c) = [] then none
    else some (byteLen (s.takeWhile fun c => !p c))
  | [] => rfl
  | c :: s => by
    rw [find, find_head p s]
    cases hc : p c with
    | true => simp [hc, byteLen]
    | false =>
      simp only [List.head?_cons, Option.any_some, hc, List.dropWhile_cons, List.takeWhile_cons,
        Bool.not_false, if_true, Bool.false_eq_true, if_false, byteLen]
      split <;> rfl

/-! ## Texts that are cut without a panic -/

variable {α β : Type}

def Completes (x : Except Panic α) : Prop := ∃ a, x = .ok a

@[simp]
theorem completes_pure (a : α) : Completes (pure a : Except Panic α) := ⟨a, rfl⟩

@[simp]
theorem completes_ok (a : α) : Completes (.ok a : Except Panic α) := ⟨a, rfl⟩

theorem completes_bind_iff {x : Except Panic α} {f : α → Except Panic β} :
    Completes (x >>= f) ↔ ∃ a, x = .ok a ∧ Completes (f a) := by
  cases x with
  | error e =>
    constructor
    · rintro ⟨b, hb⟩
      cases hb
    · rintro ⟨a, ha, -⟩
      cases ha
  | ok a =>
    constructor
    · intro h
      exact ⟨a, rfl, h⟩
    · rintro ⟨b, ⟨⟩, h⟩
      exact h

theorem Completes.bind {x : Except Panic α} {f : α → Except Panic β} (h : Completes x)
    (h' : ∀ a, Completes (f a)) : Completes (x >>= f) := by
  obtain ⟨a, ha⟩ := h
  exact completes_bind_iff.2 ⟨a, ha, h' a⟩

theorem Completes.map {x : Except Panic α} (h : Completes x) (f : α → β) :
    Completes (x.map f) := by
  obtain ⟨a, rfl⟩ := h
  exact ⟨f a, rfl⟩

theorem completes_before (h : findLower pat s = some n) :
    Completes (before n s) := by
  obtain ⟨a, b, ha, -⟩ := cut_findLower h
  exact ⟨a, ha⟩

theorem completes_behind (h : findLower pat s = some n) :
    Completes (behind (n + byteLen pat) s) := by
  obtain ⟨a, b, -, hb⟩ := cut_findLower h
  exact ⟨b, hb⟩

theorem completes_split_iff :
    Completes (split n s) ↔ (splitAt? n s).isSome := by
  rw [split]
  cases splitAt? n s with
  | none => simp [Completes]
  | some p => simp

end Text
