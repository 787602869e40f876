import Mathlib.Data.Bool.AllAny
import HenchDB.Sql.Expr

/-!
# Parameters of prepared statements

A prepared statement is a text with `?` markers.  `findPlaceholders` looks for
the markers outside quotes and comments, `substitute` puts texts in their place
and `datumLiteral` writes a value as such a text.

Texts are lists of characters.  The source works on bytes, but it only compares
them with characters of one byte, and a byte of another character is none of
those; an offset is the position of a character here.

`pieces` cuts a text at a mark outside quotes and comments.  A doubled quote
closes a quote and opens it again, so it needs no case of its own.  What
`substitute` makes is the pieces with the literals between them
(`substitute_findPlaceholders`).
-/

namespace HenchDB

/-- What the standard library prints of a float. -/
structure FloatText where
  /-- `{v}`. -/
  display : UInt64 → String
  /-- `{v:.17}`. -/
  fixed : UInt64 → String

def renderFloat (fmt : FloatText) (bits : UInt64) : String :=
  let s := fmt.display bits
  if s.toList.all fun c => c.isDigit || c = '.' || c = '-' || c = '+' then s else fmt.fixed bits

/-- `s.replace('\'', "''")`. -/
def escapeQuotes (s : List Char) : List Char :=
  s.flatMap fun c => if c = '\'' then ['\'', '\''] else [c]

def datumLiteral (fmt : FloatText) : Datum → List Char
  | .null => "NULL".toList
  | .int n => (toString n.toInt).toList
  | .float v => (renderFloat fmt v).toList
  | .bool b => if b then "TRUE".toList else "FALSE".toList
  | .text s => '\'' :: escapeQuotes s.toList ++ ['\'']
  | .dateTime v => '\'' :: (formatDatetimeMicros v).toList ++ ['\'']

/-- What a scanner is inside of. -/
inductive Zone where
  | top
  | quoted (q : Char)
  | comment
deriving DecidableEq

def isQuote (c : Char) : Bool := c = '\'' || c = '"' || c = '`'

/-- The loop of `find_placeholders` from an offset. -/
def findPlaceholdersFrom : Zone → Nat → List Char → List Nat
  | _, _, [] => []
  | .quoted _, _, [_] => []
  | .quoted q, i, c :: c' :: cs =>
    if c = q then
      if c' = q then findPlaceholdersFrom (.quoted q) (i + 2) cs
      else findPlaceholdersFrom .top (i + 1) (c' :: cs)
    else findPlaceholdersFrom (.quoted q) (i + 1) (c' :: cs)
  | .comment, i, c :: cs =>
    findPlaceholdersFrom (if c = '\n' then .top else .comment) (i + 1) cs
  | .top, i, c :: cs =>
    if isQuote c then findPlaceholdersFrom (.quoted c) (i + 1) cs
    else if c = '-' ∧ cs.head? = some '-' then findPlaceholdersFrom .comment (i + 1) cs
    else if c = '?' then i :: findPlaceholdersFrom .top (i + 1) cs
    else findPlaceholdersFrom .top (i + 1) cs

def findPlaceholders (sql : List Char) : List Nat := findPlaceholdersFrom .top 0 sql

/-- The loop of `substitute`. -/
def substituteFrom (sql : List Char) : Nat → List (Nat × List Char) → List Char
  | prev, [] => sql.drop prev
  | prev, (off, lit) :: rest =>
    (sql.drop prev).take (off - prev) ++ lit ++ substituteFrom sql (off + 1) rest

def substitute (sql : List Char) (offsets : List Nat) (lits : List (List Char)) :
    Except String (List Char) :=
  if offsets.length ≠ lits.length then
    .error s!"parameter count mismatch: {offsets.length} markers, {lits.length} values"
  else .ok (substituteFrom sql 0 (offsets.zip lits))

/-! ## Zones -/

/-- The zone behind a character in front of the others. -/
def Zone.next : Zone → Char → List Char → Zone
  | .top, c, cs =>
    if isQuote c then .quoted c else if c = '-' ∧ cs.head? = some '-' then .comment else .top
  | .quoted q, c, _ => if c = q then .top else .quoted q
  | .comment, c, _ => if c = '\n' then .top else .comment

/-- The places of a mark outside quotes and comments. -/
def marks (mark : Char) : Zone → Nat → List Char → List Nat
  | _, _, [] => []
  | z, i, c :: cs =>
    if z = .top ∧ c = mark then i :: marks mark (z.next c cs) (i + 1) cs
    else marks mark (z.next c cs) (i + 1) cs

/-- A text cut at a mark outside quotes and comments: the first piece and the others. -/
def pieces (mark : Char) : Zone → List Char → List Char × List (List Char)
  | _, [] => ([], [])
  | z, c :: cs =>
    let (p, ps) := pieces mark (z.next c cs) cs
    if z = .top ∧ c = mark then ([], p :: ps) else (c :: p, ps)

/-- Pieces with texts between them. -/
def weave : List Char → List (List Char) → List (List Char) → List Char
  | p, p' :: ps, lit :: lits => p ++ lit ++ weave p' ps lits
  | p, _, _ => p

theorem isQuote_iff {c : Char} : isQuote c ↔ c = '\'' ∨ c = '"' ∨ c = '`' := by
  simp [isQuote, or_assoc]

variable {mark : Char} {z : Zone} {c : Char} {cs : List Char}

theorem pieces_mark (h : z = .top ∧ c = mark) :
    pieces mark z (c :: cs) =
      ([], (pieces mark (z.next c cs) cs).1 :: (pieces mark (z.next c cs) cs).2) := by
  simp [pieces, h]

theorem pieces_char (h : ¬(z = .top ∧ c = mark)) :
    pieces mark z (c :: cs) =
      (c :: (pieces mark (z.next c cs) cs).1, (pieces mark (z.next c cs) cs).2) := by
  rw [pieces]
  simp only [if_neg h]

/-- The first piece begins as the text does, if it is not empty. -/
theorem head?_piece {d : Char} (h : (pieces mark z cs).1.head? = some d) : cs.head? = some d := by
  cases cs with
  | nil => cases h
  | cons c cs =>
    by_cases hmark : z = .top ∧ c = mark
    · rw [pieces_mark hmark] at h
      cases h
    · rwa [pieces_char hmark] at h

theorem findPlaceholdersFrom_eq (z : Zone) (i : Nat) (cs : List Char)
    (hz : ∀ q, z = .quoted q → isQuote q) :
    findPlaceholdersFrom z i cs = marks '?' z i cs := by
  induction z, i, cs using findPlaceholdersFrom.induct with
  | case1 => simp [findPlaceholdersFrom, marks]
  | case2 => simp [findPlaceholdersFrom, marks]
  | case3 i q cs ih =>
    have hq := hz q rfl
    have hne : q ≠ '?' := by rintro rfl; cases hq
    simp [findPlaceholdersFrom, marks, Zone.next, hq, hne, ih hz]
  | case4 i q c' cs hc' ih =>
    simp [findPlaceholdersFrom, marks, Zone.next, hc', ih (by simp)]
  | case5 i q c c' cs hc ih =>
    simp [findPlaceholdersFrom, marks, Zone.next, hc, ih hz]
  | case6 i c cs ih =>
    rw [findPlaceholdersFrom, ih (by split <;> simp)]
    simp [marks, Zone.next]
  | case7 i c cs hc ih =>
    have hne : c ≠ '?' := by rintro rfl; cases hc
    simp [findPlaceholdersFrom, marks, Zone.next, hc, hne, ih (by rintro q ⟨⟩; exact hc)]
  | case8 i c cs hc hd ih =>
    obtain ⟨rfl, hd⟩ := hd
    simp [findPlaceholdersFrom, marks, Zone.next, hc, hd, ih (by simp)]
  | case9 i cs hc hd ih =>
    simp [findPlaceholdersFrom, marks, Zone.next, hc, ih (by simp)]
  | case10 i c cs hc hd hne ih =>
    simp [findPlaceholdersFrom, marks, Zone.next, hc, hd, hne, ih (by simp)]

theorem length_marks (mark : Char) (z : Zone) (i : Nat) (cs : List Char) :
    (marks mark z i cs).length = (pieces mark z cs).2.length := by
  induction cs generalizing z i with
  | nil => rfl
  | cons c cs ih =>
    by_cases h : z = .top ∧ c = mark
    · simp [marks, pieces_mark h, if_pos h, ih]
    · simp [marks, pieces_char h, if_neg h, ih]

/-- Substituting at the marks puts the texts between the pieces. -/
theorem substituteFrom_marks (sql : List Char) {prev i : Nat} (hcs : sql.drop i = cs)
    (hprev : prev ≤ i) {lits : List (List Char)} (hlits : lits.length = (pieces mark z cs).2.length) :
    substituteFrom sql prev ((marks mark z i cs).zip lits) =
      (sql.drop prev).take (i - prev) ++ weave (pieces mark z cs).1 (pieces mark z cs).2 lits := by
  induction cs generalizing z prev i lits with
  | nil =>
    have hlen : sql.length ≤ i := List.drop_eq_nil_iff.mp hcs
    rw [marks, List.zip_nil_left, substituteFrom, pieces, weave.eq_2 _ _ _ (by simp),
      List.take_of_length_le (by simp; omega), List.append_nil]
  | cons c cs ih =>
    have hnext : sql.drop (i + 1) = cs := by
      rw [← List.drop_drop, hcs, List.drop_one, List.tail_cons]
    by_cases h : z = .top ∧ c = mark
    · rw [pieces_mark h] at hlits ⊢
      obtain ⟨lit, lits, rfl⟩ := List.exists_of_length_succ lits hlits
      rw [marks, if_pos h, List.zip_cons_cons, substituteFrom, weave,
        ih hnext (Nat.le_refl _) (by simpa using hlits)]
      simp
    · rw [pieces_char h] at hlits ⊢
      rw [marks, if_neg h, ih hnext (by omega) hlits]
      have htake : (sql.drop prev).take (i + 1 - prev) = (sql.drop prev).take (i - prev) ++ [c] := by
        rw [show i + 1 - prev = i - prev + 1 by omega, List.take_add_one, List.getElem?_drop,
          show prev + (i - prev) = i by omega, ← List.head?_drop, hcs]
        rfl
      rw [htake, List.append_assoc, List.singleton_append]
      cases (pieces mark (z.next c cs) cs).2 <;> cases lits <;> rfl

/-- `substitute` at the placeholders. -/
theorem substitute_findPlaceholders (sql : List Char) {lits : List (List Char)}
    (hlits : lits.length = (pieces '?' .top sql).2.length) :
    substitute sql (findPlaceholders sql) lits =
      .ok (weave (pieces '?' .top sql).1 (pieces '?' .top sql).2 lits) := by
  have hmarks : findPlaceholders sql = marks '?' .top 0 sql :=
    findPlaceholdersFrom_eq .top 0 sql (by simp)
  have hlen := length_marks '?' .top 0 sql
  rw [substitute, hmarks, if_neg (by omega), substituteFrom_marks sql List.drop_zero (Nat.le_refl 0) hlits]
  rfl

theorem weave_append (xs p : List Char) (ps lits : List (List Char)) :
    weave (xs ++ p) ps lits = xs ++ weave p ps lits := by
  cases ps <;> cases lits <;> simp [weave]

theorem length_findPlaceholders (sql : List Char) :
    (findPlaceholders sql).length = (pieces '?' .top sql).2.length := by
  rw [← length_marks '?' .top 0 sql, ← findPlaceholdersFrom_eq .top 0 sql (by simp)]
  rfl

end HenchDB
