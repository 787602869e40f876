import HenchDB.Wire.Statement

/-!
# COPY

`COPY ... FROM STDIN` sends its rows in chunks that the client cuts anywhere.
`CopyRunner.feed` takes one chunk; `CopyRunner.finish` ends the input and makes
the `INSERT` statements.

Text rows are lines; what is behind the last newline waits for the next chunk.
CSV rows are read byte by byte, and two bytes are read together: a doubled quote
inside a quoted field and a carriage return with its newline.  `CsvTokenizer.byte`
looks at the next byte, which is not there at the end of a chunk.
-/

namespace HenchDB

open Codec

inductive CopyFormat where
  | text
  | csv
deriving DecidableEq, Repr

/-- `CopySpec`; the columns are resolved to the targets of the runner. -/
structure CopySpec where
  table : String
  format : CopyFormat
  delimiter : UInt8
  null : Bytes
  header : Bool
deriving DecidableEq, Repr

/-- What the standard library does with texts of values. -/
structure CopyText where
  /-- `str::parse::<f64>`. -/
  parseFloat : String → Option UInt64
  /-- `String::from_utf8_lossy`. -/
  lossy : Bytes → String
  float : FloatText

def byteOf (c : Char) : UInt8 := UInt8.ofNat c.toNat

/-! ## Fields -/

def hexDigit (b : UInt8) : Option Nat :=
  if byteOf '0' ≤ b ∧ b ≤ byteOf '9' then some (b.toNat - 48)
  else if byteOf 'a' ≤ b ∧ b ≤ byteOf 'f' then some (b.toNat - 87)
  else if byteOf 'A' ≤ b ∧ b ≤ byteOf 'F' then some (b.toNat - 55)
  else none

/-- `u8::from_str_radix` on two bytes. -/
def hexByte (a b : UInt8) : Option UInt8 :=
  if a = byteOf '+' then (hexDigit b).map UInt8.ofNat
  else do return UInt8.ofNat (16 * (← hexDigit a) + (← hexDigit b))

/-- The value of at most `n` octal digits, which wraps, and how many there are. -/
def octal : Nat → UInt8 → Bytes → UInt8 × Nat
  | n + 1, val, b :: bs =>
    if byteOf '0' ≤ b ∧ b ≤ byteOf '7' then
      let (v, k) := octal n (val * 8 + (b - byteOf '0')) bs
      (v, k + 1)
    else (val, 0)
  | _, val, _ => (val, 0)

def textEscape : Bytes → Except String (UInt8 × Nat)
  | [] => .error "trailing backslash"
  | b :: bs =>
    if b = byteOf 'b' then .ok (8, 1)
    else if b = byteOf 'f' then .ok (12, 1)
    else if b = byteOf 'n' then .ok (10, 1)
    else if b = byteOf 'r' then .ok (13, 1)
    else if b = byteOf 't' then .ok (9, 1)
    else if b = byteOf 'v' then .ok (11, 1)
    else if b = byteOf '\\' then .ok (b, 1)
    else if b = byteOf 'x' then
      match bs with
      | h :: l :: _ =>
        match hexByte h l with
        | some v => .ok (v, 3)
        | none => .error "bad \\x escape"
      | _ => .error "bad \\x escape"
    else if byteOf '0' ≤ b ∧ b ≤ byteOf '7' then .ok (octal 3 0 (b :: bs))
    else .error ("invalid escape \\" ++ String.singleton (Char.ofNat b.toNat))

/-- The loop of `unescape_text`; the count is of bytes an escape has taken. -/
def unescapeFrom : Nat → Bytes → Except String Bytes
  | _, [] => .ok []
  | k + 1, _ :: bs => unescapeFrom k bs
  | 0, b :: bs =>
    if b = byteOf '\\' then do
      let (v, used) ← textEscape bs
      return v :: (← unescapeFrom used bs)
    else do return b :: (← unescapeFrom 0 bs)

def unescapeText (raw : Bytes) : Except String Bytes := unescapeFrom 0 raw

/-- The loop of `split_text_line`, with the field it is in. -/
def splitTextFrom (delim : UInt8) : Bytes → Bytes → List Bytes
  | field, [] => [field]
  | field, [b] => if b = delim then [field, []] else [field ++ [b]]
  | field, b :: b' :: bs =>
    if b = byteOf '\\' then splitTextFrom delim (field ++ [b, b']) bs
    else if b = delim then field :: splitTextFrom delim [] (b' :: bs)
    else splitTextFrom delim (field ++ [b]) (b' :: bs)

def splitTextLine (line : Bytes) (delim : UInt8) : List Bytes := splitTextFrom delim [] line

/-- `u8::to_ascii_lowercase`. -/
def lowerByte (b : UInt8) : UInt8 := if byteOf 'A' ≤ b ∧ b ≤ byteOf 'Z' then b + 32 else b

/-- `str::parse::<i64>`. -/
def parseI64 (s : List Char) : Option Int64 :=
  let n := match s with
    | '+' :: s => (DateTime.digits s).map Int.ofNat
    | '-' :: s => (DateTime.digits s).map fun n => -Int.ofNat n
    | s => (DateTime.digits s).map Int.ofNat
  (n.filter fun n => -2 ^ 63 ≤ n ∧ n < 2 ^ 63).map Int64.ofInt

def fieldValue (txt : CopyText) (ctype : ColumnType) (raw : Bytes) : Except String Datum :=
  let orBad (what : String) (d : Option Datum) : Except String Datum :=
    match d with
    | some d => .ok d
    | none => .error ("invalid " ++ what ++ ": '" ++ txt.lossy raw ++ "'")
  match ctype with
  | .int | .bigInt =>
    orBad "integer" (((fromUtf8 raw).bind fun s => parseI64 s.toList).map Datum.int)
  | .float | .double => orBad "float" (((fromUtf8 raw).bind txt.parseFloat).map Datum.float)
  | .text | .varChar => orBad "text" ((fromUtf8 raw).map Datum.text)
  | .bool =>
    let word := raw.map lowerByte
    let words (ws : List String) : Bool := ws.any fun w => utf8 w = word
    if words ["true", "t", "yes", "on", "1"] then .ok (.bool true)
    else if words ["false", "f", "no", "off", "0"] then .ok (.bool false)
    else orBad "boolean" none
  | .dateTime | .timestamp =>
    orBad "timestamp" (((fromUtf8 raw).bind parseDatetimeStr).map Datum.dateTime)

def coerceField (txt : CopyText) (raw : Bytes) (quoted textMode : Bool) (ctype : ColumnType)
    (null : Bytes) : Except String Datum :=
  if textMode then
    if raw = null then .ok .null else do fieldValue txt ctype (← unescapeText raw)
  else if !quoted ∧ raw = null then .ok .null
  else fieldValue txt ctype raw

/-! ## CSV -/

structure CsvField where
  bytes : Bytes
  quoted : Bool
deriving DecidableEq, Repr

structure CsvTokenizer where
  inQuotes : Bool
  field : Bytes
  fieldQuoted : Bool
  fieldStarted : Bool
  row : List CsvField
deriving DecidableEq, Repr

namespace CsvTokenizer

/-- `CsvTokenizer::default`. -/
def empty : CsvTokenizer := ⟨false, [], false, false, []⟩

def endField (t : CsvTokenizer) : CsvTokenizer :=
  { t with field := [], fieldQuoted := false, fieldStarted := false,
           row := t.row ++ [⟨t.field, t.fieldQuoted⟩] }

/-- `end_field`, and the row is handed over. -/
def endRow (t : CsvTokenizer) : CsvTokenizer × Option (List CsvField) :=
  ({ t.endField with row := [] }, some t.endField.row)

/-- What one byte does: the tokenizer behind it, the row it ends, and whether the next
byte is taken with it. -/
structure ByteStep where
  after : CsvTokenizer
  row : Option (List CsvField)
  takesNext : Bool

/-- One round of the loop of `feed`. -/
def byte (delim : UInt8) (t : CsvTokenizer) (c : UInt8) (next : Option UInt8) : ByteStep :=
  if t.inQuotes then
    if c = byteOf '"' then
      if next = some (byteOf '"') then ⟨{ t with field := t.field ++ [c] }, none, true⟩
      else ⟨{ t with inQuotes := false }, none, false⟩
    else ⟨{ t with field := t.field ++ [c] }, none, false⟩
  else if c = byteOf '"' ∧ !t.fieldStarted then
    ⟨{ t with inQuotes := true, fieldQuoted := true, fieldStarted := true }, none, false⟩
  else if c = byteOf '\r' then ⟨t.endRow.1, t.endRow.2, next = some (byteOf '\n')⟩
  else if c = byteOf '\n' then ⟨t.endRow.1, t.endRow.2, false⟩
  else if c = delim then ⟨t.endField, none, false⟩
  else ⟨{ t with field := t.field ++ [c], fieldStarted := true }, none, false⟩

/-- The loop of `feed`; the flag says that the first byte has been taken. -/
def feedFrom (delim : UInt8) : Bool → CsvTokenizer → Bytes → CsvTokenizer × List (List CsvField)
  | _, t, [] => (t, [])
  | true, t, _ :: cs => feedFrom delim false t cs
  | false, t, c :: cs =>
    let step := t.byte delim c cs.head?
    let (t', rows) := feedFrom delim step.takesNext step.after cs
    (t', step.row.toList ++ rows)

def feed (delim : UInt8) (t : CsvTokenizer) (chunk : Bytes) : CsvTokenizer × List (List CsvField) :=
  feedFrom delim false t chunk

def endInput (t : CsvTokenizer) : Except String (List (List CsvField)) :=
  if t.inQuotes then .error "unterminated quoted field at end of COPY"
  else if t.fieldStarted ∨ t.row ≠ [] then .ok t.endRow.2.toList
  else .ok []

/-- The two bytes are read together. -/
def readsPair (t : CsvTokenizer) (c : UInt8) (next : Option UInt8) : Bool :=
  (t.inQuotes && c = byteOf '"' && next = some (byteOf '"')) ||
    (!t.inQuotes && c = byteOf '\r' && next = some (byteOf '\n'))

/-- The end of a chunk in front of the next byte does not part two bytes that are read
together. -/
def cleanCut (delim : UInt8) : Bool → CsvTokenizer → Bytes → Option UInt8 → Bool
  | _, _, [], _ => true
  | true, t, _ :: cs, next => cleanCut delim false t cs next
  | false, t, [c], next => !t.readsPair c next
  | false, t, c :: c' :: cs, next =>
    let step := t.byte delim c (some c')
    cleanCut delim step.takesNext step.after (c' :: cs) next

/-- No chunk but the last ends between two such bytes. -/
def cleanCuts (delim : UInt8) : CsvTokenizer → List Bytes → Bool
  | _, [] => true
  | t, x :: xs => cleanCut delim false t x xs.flatten.head? && cleanCuts delim (t.feed delim x).1 xs

variable {delim : UInt8}

theorem byte_none {t : CsvTokenizer} {c : UInt8} {next : Option UInt8}
    (h : t.readsPair c next = false) : t.byte delim c next = t.byte delim c none := by
  rw [readsPair, Bool.or_eq_false_iff] at h
  rw [byte, byte]
  cases hquotes : t.inQuotes with
  | true =>
    simp only [hquotes, Bool.true_and, Bool.and_eq_false_iff, decide_eq_false_iff_not] at h
    by_cases hc : c = byteOf '"'
    · simp [hc, h.1.resolve_left (not_not_intro hc)]
    · simp [hc]
  | false =>
    simp only [hquotes, Bool.not_false, Bool.true_and, Bool.and_eq_false_iff,
      decide_eq_false_iff_not] at h
    by_cases hc : c = byteOf '\r'
    · simp [hc, h.2.resolve_left (not_not_intro hc)]
    · simp [hc]

theorem takesNext_none (t : CsvTokenizer) (c : UInt8) : (t.byte delim c none).takesNext = false := by
  rw [byte]
  repeat (first | rfl | split)

theorem feedFrom_append {taken : Bool} {t : CsvTokenizer} {xs ys : Bytes}
    (htaken : taken = true → xs ≠ []) (hclean : cleanCut delim taken t xs ys.head?) :
    feedFrom delim taken t (xs ++ ys) =
      ((feedFrom delim false (feedFrom delim taken t xs).1 ys).1,
        (feedFrom delim taken t xs).2 ++ (feedFrom delim false (feedFrom delim taken t xs).1 ys).2) := by
  generalize hnext : ys.head? = next at hclean
  induction taken, t, xs, next using cleanCut.induct delim with
  | case1 taken t next =>
    cases taken with
    | true => exact absurd rfl (htaken rfl)
    | false => rfl
  | case2 t c cs next ih =>
    cases cs with
    | nil => rfl
    | cons c' cs => exact ih (by simp) hnext hclean
  | case3 t c next =>
    rw [cleanCut, Bool.not_eq_true', ← hnext] at hclean
    have hstep := @byte_none delim _ _ _ hclean
    rw [List.singleton_append, feedFrom, feedFrom, List.head?_nil, hstep, takesNext_none, feedFrom]
    simp
  | case4 t c c' cs next step ih =>
    have hrest := ih (by simp) hnext hclean
    rw [List.cons_append] at hrest
    rw [List.cons_append, List.cons_append, feedFrom, feedFrom, List.head?_cons, List.head?_cons]
    simp only [step] at hrest
    simp [hrest]

theorem feed_append {t : CsvTokenizer} {xs ys : Bytes} (hclean : cleanCut delim false t xs ys.head?) :
    t.feed delim (xs ++ ys) =
      (((t.feed delim xs).1.feed delim ys).1,
        (t.feed delim xs).2 ++ ((t.feed delim xs).1.feed delim ys).2) :=
  feedFrom_append (by simp) hclean

end CsvTokenizer

/-! ## The runner -/

/-- `CopyRunner`, without the transaction it may have begun. -/
structure CopyRunner where
  spec : CopySpec
  targets : List (Nat × ColumnType)
  tuples : List (List Char)
  textBuf : Bytes
  csv : CsvTokenizer
  rowCount : Nat
  headerSkipped : Bool
deriving DecidableEq

namespace CopyRunner

variable (txt : CopyText)

/-- The state in which `begin` leaves the runner. -/
def start (spec : CopySpec) (targets : List (Nat × ColumnType)) : CopyRunner :=
  ⟨spec, targets, [], [], .empty, 0, false⟩

def pushDatums (r : CopyRunner) (datums : List Datum) : CopyRunner :=
  let width := (r.targets.map Prod.fst).foldl max 0 + 1
  let row := (r.targets.zip datums).foldl (fun row (t, d) => row.set t.1 d)
    (List.replicate width .null)
  let lits := List.intercalate [','] (row.map (datumLiteral txt.float))
  { r with tuples := r.tuples ++ ['(' :: lits ++ [')']], rowCount := r.rowCount + 1 }

def rowDatums (textMode : Bool) (r : CopyRunner) (fields : List CsvField) :
    Except String (List Datum) :=
  (r.targets.zip fields).mapM fun (t, f) =>
    (coerceField txt f.bytes f.quoted textMode t.2 r.spec.null).mapError fun m =>
      s!"row {r.rowCount + 1}: {m}"

def pushRow (textMode : Bool) (r : CopyRunner) (fields : List CsvField) : Except String CopyRunner :=
  if r.spec.header ∧ !r.headerSkipped then .ok { r with headerSkipped := true }
  else if fields.length ≠ r.targets.length then
    .error s!"row {r.rowCount + 1}: expected {r.targets.length} fields, got {fields.length}"
  else (rowDatums txt textMode r fields).map (r.pushDatums txt)

def pushRowText (r : CopyRunner) (fields : List Bytes) : Except String CopyRunner :=
  pushRow txt true r (fields.map fun f => ⟨f, false⟩)

def pushRowCsv (r : CopyRunner) (fields : List CsvField) : Except String CopyRunner :=
  pushRow txt false r fields

/-- `line.pop()` for a carriage return at the end. -/
def popReturn (line : Bytes) : Bytes :=
  if line.getLast? = some (byteOf '\r') then line.dropLast else line

/-- A line of text; the mark of the end is tolerated. -/
def pushLine (r : CopyRunner) (line : Bytes) : Except String CopyRunner :=
  if popReturn line = [byteOf '\\', byteOf '.'] then .ok r
  else pushRowText txt r (splitTextLine (popReturn line) r.spec.delimiter)

/-- The lines that end in a text and what is behind the last one. -/
def cutLines : Bytes → List Bytes × Bytes
  | [] => ([], [])
  | b :: bs =>
    let (lines, rest) := cutLines bs
    if b = byteOf '\n' then ([] :: lines, rest)
    else match lines with
      | line :: lines => ((b :: line) :: lines, rest)
      | [] => ([], b :: rest)

def withCode {α : Type} (code : String) (e : Except String α) : Except (String × String) α :=
  e.mapError fun m => (code, m)

def feed (r : CopyRunner) (chunk : Bytes) : Except (String × String) CopyRunner :=
  match r.spec.format with
  | .csv =>
    let (csv, rows) := r.csv.feed r.spec.delimiter chunk
    withCode "22P02" (rows.foldlM (pushRowCsv txt) { r with csv })
  | .text =>
    let (lines, textBuf) := cutLines (r.textBuf ++ chunk)
    withCode "22P02" (lines.foldlM (pushLine txt) { r with textBuf })

/-- `finish_inner` up to the rows. -/
def finishRows (r : CopyRunner) : Except (String × String) CopyRunner :=
  match r.spec.format with
  | .csv => do
    let rows ← withCode "22P04" r.csv.endInput
    withCode "22P02" (rows.foldlM (pushRowCsv txt) r)
  | .text =>
    if r.textBuf = [] then .ok r
    else withCode "22P02" (pushLine txt { r with textBuf := [] } r.textBuf)

/-- Rows per `INSERT` statement. -/
def insertChunkRows : Nat := 2000

/-- The `INSERT` statements of the rows. -/
def inserts (r : CopyRunner) : List (List Char) :=
  (r.tuples.toChunks insertChunkRows).map fun tuples =>
    "INSERT INTO ".toList ++ r.spec.table.toList ++ " VALUES ".toList ++
      List.intercalate [','] tuples

/-! ## Lines over cuts -/

theorem cutLines_cons (b : UInt8) (bs : Bytes) :
    cutLines (b :: bs) =
      if b = byteOf '\n' then ([] :: (cutLines bs).1, (cutLines bs).2)
      else match (cutLines bs).1 with
        | line :: lines => ((b :: line) :: lines, (cutLines bs).2)
        | [] => ([], b :: (cutLines bs).2) := rfl

theorem cutLines_append (xs ys : Bytes) :
    cutLines (xs ++ ys) =
      ((cutLines xs).1 ++ (cutLines ((cutLines xs).2 ++ ys)).1, (cutLines ((cutLines xs).2 ++ ys)).2) := by
  induction xs with
  | nil => rfl
  | cons b bs ih =>
    rw [List.cons_append, cutLines_cons, cutLines_cons, ih]
    by_cases hb : b = byteOf '\n'
    · simp [hb]
    · rw [if_neg hb, if_neg hb]
      cases hlines : (cutLines bs).1 with
      | nil => rw [List.cons_append, cutLines_cons, if_neg hb]; rfl
      | cons line lines => rfl

/-- What waits for the next chunk holds no line. -/
theorem cutLines_rest (xs : Bytes) : cutLines (cutLines xs).2 = ([], (cutLines xs).2) := by
  induction xs with
  | nil => rfl
  | cons b bs ih =>
    rw [cutLines_cons]
    by_cases hb : b = byteOf '\n'
    · rw [if_pos hb]
      exact ih
    · rw [if_neg hb]
      cases hlines : (cutLines bs).1 with
      | nil =>
        simp only
        rw [cutLines_cons, if_neg hb, ih]
      | cons line lines => exact ih

/-! ## Pushing over cuts -/

def withInput (r : CopyRunner) (textBuf : Bytes) (csv : CsvTokenizer) : CopyRunner :=
  { r with textBuf, csv }

/-- A push does not look at the input that waits, and keeps the specification. -/
structure Ignores {α : Type} (push : CopyRunner → α → Except String CopyRunner) : Prop where
  frame : ∀ r a textBuf csv, push (r.withInput textBuf csv) a =
    (push r a).map fun r => r.withInput textBuf csv
  spec : ∀ {r a r'}, push r a = .ok r' → r'.spec = r.spec

theorem ignores_pushRow (textMode : Bool) : Ignores (pushRow txt textMode) := by
  constructor
  · intro r fields textBuf csv
    have hdatums : rowDatums txt textMode (r.withInput textBuf csv) fields =
        rowDatums txt textMode r fields := rfl
    by_cases hheader : r.spec.header ∧ !r.headerSkipped
    · rw [pushRow, pushRow, if_pos hheader, if_pos (by exact hheader)]
      rfl
    by_cases hlen : fields.length ≠ r.targets.length
    · rw [pushRow, pushRow, if_neg hheader, if_neg (by exact hheader), if_pos hlen, if_pos (by exact hlen)]
      rfl
    · rw [pushRow, pushRow, if_neg hheader, if_neg (by exact hheader), if_neg hlen, if_neg (by exact hlen),
        hdatums]
      cases rowDatums txt textMode r fields <;> rfl
  · intro r fields r' h
    rw [pushRow] at h
    split at h
    · cases h
      rfl
    · split at h
      · cases h
      · cases hdatums : rowDatums txt textMode r fields with
        | error e =>
          rw [hdatums] at h
          cases h
        | ok datums =>
          rw [hdatums] at h
          cases h
          rfl

theorem ignores_pushLine : Ignores (pushLine txt) := by
  constructor
  · intro r line textBuf csv
    rw [pushLine, pushLine]
    split
    · rfl
    · exact (ignores_pushRow txt true).frame r _ textBuf csv
  · intro r line r' h
    rw [pushLine] at h
    split at h
    · cases h
      rfl
    · exact (ignores_pushRow txt true).spec h

section

variable {α : Type} {push : CopyRunner → α → Except String CopyRunner} (hpush : Ignores push)
  (textBuf : Bytes) (csv : CsvTokenizer)

include hpush

theorem Ignores.foldlM (as : List α) (r : CopyRunner) :
    as.foldlM push (r.withInput textBuf csv) =
      (as.foldlM push r).map fun r => r.withInput textBuf csv := by
  induction as generalizing r with
  | nil => rfl
  | cons a as ih =>
    rw [List.foldlM_cons, List.foldlM_cons, hpush.frame]
    cases hr : push r a with
    | error e => rfl
    | ok r' => exact ih r'

theorem Ignores.foldlM_spec {as : List α} {r r' : CopyRunner} (h : as.foldlM push r = .ok r') :
    r'.spec = r.spec := by
  induction as generalizing r with
  | nil =>
    cases h
    rfl
  | cons a as ih =>
    rw [List.foldlM_cons] at h
    cases hr : push r a with
    | error e =>
      rw [hr] at h
      cases h
    | ok r₁ =>
      rw [hr] at h
      exact (ih h).trans (hpush.spec hr)

end

/-! ## The law -/

variable {α : Type} {r : CopyRunner}

theorem withCode_ok {code : String} {e : Except String α} {a : α} (h : withCode code e = .ok a) :
    e = .ok a := by
  cases e with
  | error m => cases h
  | ok a' =>
    cases h
    rfl

variable {push : CopyRunner → α → Except String CopyRunner}

/-- What is pushed for one chunk and then for another is pushed for both together. -/
theorem Ignores.two (hpush : Ignores push) (as bs : List α) (r : CopyRunner)
    (textBuf textBuf' : Bytes) (csv csv' : CsvTokenizer) :
    (as.foldlM push (r.withInput textBuf csv)).bind (fun r' => bs.foldlM push (r'.withInput textBuf' csv')) =
      (as ++ bs).foldlM push (r.withInput textBuf' csv') := by
  rw [List.foldlM_append, hpush.foldlM, hpush.foldlM]
  cases as.foldlM push r with
  | error e => rfl
  | ok r' => rfl

/-- The input that waits behind the pushes of a chunk is what the chunk has left. -/
theorem Ignores.foldlM_input (hpush : Ignores push) {as : List α} {r' : CopyRunner}
    {textBuf : Bytes} {csv : CsvTokenizer} (h : as.foldlM push (r.withInput textBuf csv) = .ok r') :
    r'.spec = r.spec ∧ r'.textBuf = textBuf ∧ r'.csv = csv := by
  have hspec := hpush.foldlM_spec h
  rw [hpush.foldlM] at h
  cases hr : as.foldlM push r with
  | error e =>
    rw [hr] at h
    cases h
  | ok r₁ =>
    rw [hr] at h
    cases h
    exact ⟨hspec, rfl, rfl⟩

theorem withCode_bind {code : String} {e : Except String α} {f : α → Except (String × String) α}
    {g : α → Except String α} (h : ∀ a, e = .ok a → f a = withCode code (g a)) :
    (withCode code e).bind f = withCode code (e.bind g) := by
  cases e with
  | error m => rfl
  | ok a => exact h a rfl

theorem ignores_pushRowCsv : Ignores (pushRowCsv txt) := ignores_pushRow txt false

theorem feed_csv (h : r.spec.format = .csv) (chunk : Bytes) :
    feed txt r chunk = withCode "22P02" ((r.csv.feed r.spec.delimiter chunk).2.foldlM (pushRowCsv txt)
      (r.withInput r.textBuf (r.csv.feed r.spec.delimiter chunk).1)) := by
  rw [feed, h]
  rfl

theorem feed_text (h : r.spec.format = .text) (chunk : Bytes) :
    feed txt r chunk = withCode "22P02" ((cutLines (r.textBuf ++ chunk)).1.foldlM (pushLine txt)
      (r.withInput (cutLines (r.textBuf ++ chunk)).2 r.csv)) := by
  rw [feed, h]
  rfl

/-- A clean cut of the input makes no difference to the runner. -/
theorem feed_append (r : CopyRunner) (xs ys : Bytes)
    (hclean : r.spec.format = .csv →
      CsvTokenizer.cleanCut r.spec.delimiter false r.csv xs ys.head?) :
    feed txt r (xs ++ ys) = (feed txt r xs).bind fun r' => feed txt r' ys := by
  cases hformat : r.spec.format with
  | csv =>
    rw [feed_csv txt hformat, feed_csv txt hformat, CsvTokenizer.feed_append (hclean hformat),
      ← (ignores_pushRowCsv txt).two _ _ r r.textBuf, ← withCode_bind]
    intro r' h
    obtain ⟨hspec, hbuf, hcsv⟩ := (ignores_pushRowCsv txt).foldlM_input h
    rw [feed_csv txt (by rw [hspec, hformat]), hspec, hbuf, hcsv]
  | text =>
    rw [feed_text txt hformat, feed_text txt hformat, ← List.append_assoc, cutLines_append,
      ← (ignores_pushLine txt).two _ _ r (cutLines (r.textBuf ++ xs)).2 _ r.csv, ← withCode_bind]
    intro r' h
    obtain ⟨hspec, hbuf, hcsv⟩ := (ignores_pushLine txt).foldlM_input h
    rw [feed_text txt (by rw [hspec, hformat]), hbuf, hcsv]

theorem feed_ok_input {r' : CopyRunner} {chunk : Bytes} (h : feed txt r chunk = .ok r') :
    r'.spec = r.spec ∧ (r.spec.format = .csv → r'.csv = (r.csv.feed r.spec.delimiter chunk).1) ∧
      (r.spec.format = .text → r'.textBuf = (cutLines (r.textBuf ++ chunk)).2) := by
  cases hformat : r.spec.format with
  | csv =>
    rw [feed_csv txt hformat] at h
    obtain ⟨hspec, hbuf, hcsv⟩ := (ignores_pushRowCsv txt).foldlM_input (withCode_ok h)
    exact ⟨hspec, fun _ => hcsv, by simp⟩
  | text =>
    rw [feed_text txt hformat] at h
    obtain ⟨hspec, hbuf, hcsv⟩ := (ignores_pushLine txt).foldlM_input (withCode_ok h)
    exact ⟨hspec, by simp, fun _ => hbuf⟩

theorem foldlM_feed (r : CopyRunner) (chunks : List Bytes)
    (hbuf : r.spec.format = .text → cutLines r.textBuf = ([], r.textBuf))
    (hclean : r.spec.format = .csv → CsvTokenizer.cleanCuts r.spec.delimiter r.csv chunks) :
    chunks.foldlM (feed txt) r = feed txt r chunks.flatten := by
  induction chunks generalizing r with
  | nil =>
    cases hformat : r.spec.format with
    | csv => rw [List.flatten_nil, feed_csv txt hformat]; rfl
    | text =>
      rw [List.flatten_nil, feed_text txt hformat, List.append_nil, hbuf hformat]
      rfl
  | cons x xs ih =>
    rw [List.foldlM_cons, List.flatten_cons, feed_append txt r x xs.flatten]
    · cases hx : feed txt r x with
      | error e => rfl
      | ok r' =>
        obtain ⟨hspec, hcsv, htext⟩ := feed_ok_input txt hx
        refine ih r' ?_ ?_
        · intro hformat
          rw [hspec] at hformat
          rw [htext hformat]
          exact cutLines_rest _
        · intro hformat
          rw [hspec] at hformat ⊢
          rw [hcsv hformat]
          have := hclean hformat
          rw [CsvTokenizer.cleanCuts, Bool.and_eq_true] at this
          exact this.2
    · intro hformat
      have := hclean hformat
      rw [CsvTokenizer.cleanCuts, Bool.and_eq_true] at this
      exact this.1

/-- The rows a specification accepts from an input in chunks, as `INSERT` statements. -/
def accept (spec : CopySpec) (targets : List (Nat × ColumnType)) (chunks : List Bytes) :
    Except (String × String) (List (List Char)) := do
  let r ← chunks.foldlM (feed txt) (start spec targets)
  return (← finishRows txt r).inserts

/-- No two bytes that CSV reads together are parted by a cut; text input can be cut
anywhere. -/
def cutsCleanly (spec : CopySpec) (chunks : List Bytes) : Bool :=
  spec.format = .text || CsvTokenizer.cleanCuts spec.delimiter .empty chunks

/-- Input that is cut cleanly is accepted as if it came in one chunk. -/
theorem accept_chunks (spec : CopySpec) (targets : List (Nat × ColumnType)) (chunks : List Bytes)
    (h : cutsCleanly spec chunks) :
    accept txt spec targets chunks = accept txt spec targets [chunks.flatten] := by
  have hfold : chunks.foldlM (feed txt) (start spec targets) =
      [chunks.flatten].foldlM (feed txt) (start spec targets) := by
    rw [foldlM_feed txt _ chunks (fun _ => rfl)]
    · rw [List.foldlM_cons]
      cases feed txt (start spec targets) chunks.flatten <;> rfl
    · intro hformat
      rw [cutsCleanly, Bool.or_eq_true, decide_eq_true_iff] at h
      refine h.resolve_left ?_
      rw [show spec.format = _ from hformat]
      simp
  rw [accept, accept, hfold]

/-- CSV with commas and the empty text for `NULL`. -/
def commaSpec : CopySpec := ⟨"t", .csv, byteOf ',', [], false⟩

/-- A cut between a carriage return and its newline makes another row. -/
theorem accept_parted :
    ¬∀ (txt : CopyText) (spec : CopySpec) (targets : List (Nat × ColumnType)) (chunks : List Bytes),
      accept txt spec targets chunks = accept txt spec targets [chunks.flatten] := by
  intro h
  let txt : CopyText := ⟨fun _ => none, fun _ => "", ⟨fun _ => "", fun _ => ""⟩⟩
  have hparted := h txt commaSpec [(0, .int)] [[byteOf '\r'], [byteOf '\n']]
  have hchunks : accept txt commaSpec [(0, .int)] [[byteOf '\r'], [byteOf '\n']] =
      .ok ["INSERT INTO t VALUES (NULL),(NULL)".toList] := by decide
  have hwhole : accept txt commaSpec [(0, .int)] [[[byteOf '\r'], [byteOf '\n']].flatten] =
      .ok ["INSERT INTO t VALUES (NULL)".toList] := by decide
  rw [hchunks] at hparted
  exact absurd (hparted.trans hwhole) (by decide)

/-- A cut behind the newline is clean. -/
theorem accept_chunks_lines :
    accept ⟨fun _ => none, fun _ => "", ⟨fun _ => "", fun _ => ""⟩⟩ commaSpec [(0, .int)]
        [[byteOf '\r', byteOf '\n'], [byteOf '\n']] =
      accept ⟨fun _ => none, fun _ => "", ⟨fun _ => "", fun _ => ""⟩⟩ commaSpec [(0, .int)]
        [[byteOf '\r', byteOf '\n', byteOf '\n']] :=
  accept_chunks _ commaSpec _ [[byteOf '\r', byteOf '\n'], [byteOf '\n']] (by decide)

end CopyRunner

end HenchDB
