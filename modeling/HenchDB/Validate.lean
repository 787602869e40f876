import HenchDB.Table

/-!
# Validation of rows

Before a row is stored it is brought to the width of its schema and every value
to its column: `NULL` becomes the default of the column, a text or a number
becomes a time in a time column, `BOOL` and integers become one another.  A
column is normalized by itself (`ColumnDef.normalize`), and a normalized value
is normalized to itself (`normalize_idem`), so validating a stored row again
changes nothing.
-/

namespace HenchDB

/-! ## Times -/

namespace DateTime

/-- `char::is_whitespace`. -/
def isWhite (c : Char) : Bool :=
  let n := c.toNat
  (9 ≤ n && n ≤ 13) || n = 0x20 || n = 0x85 || n = 0xA0 || n = 0x1680 ||
    (0x2000 ≤ n && n ≤ 0x200A) || n = 0x2028 || n = 0x2029 || n = 0x202F || n = 0x205F || n = 0x3000

/-- `str::split_whitespace`. -/
def words (s : List Char) : List (List Char) := (s.splitOnP isWhite).filter fun w => !w.isEmpty

def digits (s : List Char) : Option Nat :=
  if s.isEmpty then none
  else s.foldlM (fun n c => if c.isDigit then some (10 * n + (c.toNat - '0'.toNat)) else none) 0

/-- `str::parse::<u32>`. -/
def parseU32 (s : List Char) : Option Nat :=
  let n := match s with
    | '+' :: s => digits s
    | s => digits s
  n.filter fun n => n < 2 ^ 32

/-- `str::parse::<i32>`. -/
def parseI32 (s : List Char) : Option Int :=
  let n := match s with
    | '+' :: s => (digits s).map Int.ofNat
    | '-' :: s => (digits s).map fun n => -Int.ofNat n
    | s => (digits s).map Int.ofNat
  n.filter fun n => -2 ^ 31 ≤ n ∧ n < 2 ^ 31

/-- The fraction of a second as microseconds; the factors wrap. -/
def micros (s : List Char) : Option Nat :=
  (parseU32 s).map fun n =>
    let len := (String.ofList s).utf8ByteSize
    if len < 6 then (10 ^ (6 - len) * n) % 2 ^ 32 else n / 10 ^ (len - 6)

/-- The seconds of a time of day and their fraction. -/
def parseSeconds (s : List Char) : Option (Nat × Nat) :=
  match s.splitOn '.' with
  | [sec, frac] => do return (← parseU32 sec, ← micros frac)
  | sec :: _ => (parseU32 sec).map fun sec => (sec, 0)
  | [] => none

/-- Hour, minute, second and microseconds. -/
def parseTime (s : List Char) : Option (Nat × Nat × Nat × Nat) :=
  match s.splitOn ':' with
  | [h, m, s] => do
    let h ← parseU32 h
    let m ← parseU32 m
    let (s, us) ← parseSeconds s
    return (h, m, s, us)
  | _ => none

def ymdToDays (year : Int) (month day : Nat) : Int :=
  let y := year - if month ≤ 2 then 1 else 0
  let era := (if 0 ≤ y then y else y - 399).tdiv 400
  let yoe := (y - era * 400).toNat
  let m := month + if 2 < month then 0 else 12
  let doy := (153 * (m - 3) + 2) / 5 + day - 1
  let doe := yoe * 365 + yoe / 4 - yoe / 100 + doy
  era * 146097 + doe - 719468

def ofParts (date : List Char) (time : Option (Nat × Nat × Nat × Nat)) : Option Int64 := do
  match date.splitOn '-' with
  | [year, month, day] =>
    let year ← parseI32 year
    let month ← parseU32 month
    let day ← parseU32 day
    let (hour, min, sec, us) ← time
    if month = 0 ∨ 12 < month ∨ day = 0 ∨ 31 < day ∨ 24 ≤ hour ∨ 60 ≤ min ∨ 60 ≤ sec then none
    else
      let secs := ymdToDays year month day * 86400 + hour * 3600 + min * 60 + sec
      return Int64.ofInt (secs * 1000000 + us)
  | _ => none

end DateTime

def parseDatetimeStr (s : String) : Option Int64 :=
  match DateTime.words s.toList with
  | [date] => DateTime.ofParts date (some (0, 0, 0, 0))
  | [date, time] => DateTime.ofParts date (DateTime.parseTime time)
  | _ => none

/-! ## Columns -/

def Datum.typeName : Datum → String
  | .null => "NULL"
  | .int _ => "INT"
  | .float _ => "FLOAT"
  | .text _ => "TEXT"
  | .bool _ => "BOOL"
  | .dateTime _ => "DATETIME"

def ColumnType.accepts : ColumnType → Datum → Bool
  | .int, d | .bigInt, d =>
    match d with
    | .int _ | .bool _ | .null => true
    | _ => false
  | .float, d | .double, d =>
    match d with
    | .int _ | .float _ | .bool _ | .null => true
    | _ => false
  | .text, d | .varChar, d =>
    match d with
    | .text _ | .null => true
    | _ => false
  | .bool, d =>
    match d with
    | .bool _ | .int _ | .null => true
    | _ => false
  | .dateTime, d | .timestamp, d =>
    match d with
    | .dateTime _ | .text _ | .int _ | .null => true
    | _ => false

/-- The conversions of `validate_row`. -/
def ColumnType.coerce : ColumnType → Datum → Datum
  | .dateTime, d | .timestamp, d =>
    match d with
    | .text s => (parseDatetimeStr s).elim (.text s) Datum.dateTime
    | .int sec => .dateTime (sec * 1000000)
    | d => d
  | .bool, d =>
    match d with
    | .int v => .bool (v ≠ 0)
    | d => d
  | .int, d | .bigInt, d =>
    match d with
    | .bool b => .int (if b then 1 else 0)
    | d => d
  | .float, d | .double, d | .text, d | .varChar, d => d

/-- A value that is not `NULL`, or the default. -/
def ColumnDef.admit (c : ColumnDef) (d : Datum) : Except Error Datum :=
  let d := c.ctype.coerce d
  if c.ctype.accepts d then .ok d else .error (.typeMismatch c.ctype.name d.typeName)

/-- The loop body of `validate_row`. -/
def ColumnDef.normalize (c : ColumnDef) (d : Datum) : Except Error Datum :=
  match d with
  | .null =>
    match c.defaultValue with
    | some v => c.admit v
    | none => if c.nullable then .ok .null else .error (.notNullViolation c.name)
  | d => c.admit d

namespace Schema

def fillDefaults (schema : Schema) (row : List Datum) : List Datum :=
  row ++ (schema.columns.drop row.length).map fun c => c.defaultValue.getD .null

def normalizeRow : List ColumnDef → List Datum → Except Error (List Datum)
  | c :: cs, d :: ds => do
    let d ← c.normalize d
    let ds ← normalizeRow cs ds
    return d :: ds
  | _, _ => .ok []

def validateRow (schema : Schema) (row : List Datum) : Except Error (List Datum) :=
  let row := schema.fillDefaults row
  if row.length ≠ schema.columns.length then
    .error (.columnCountMismatch schema.columns.length row.length)
  else normalizeRow schema.columns row

end Schema

/-- `Table::assign_auto_inc`, on the sequence of the table. -/
def AutoIncState.assign (st : AutoIncState) (row : List Datum) :
    Except Error (AutoIncState × List Datum) :=
  match row[st.colIdx]? with
  | none => .error (.corrupted "auto-inc column out of range")
  | some .null =>
    if st.next > 2 ^ 63 - 1 then .error (.notSupported "auto-increment exhausted")
    else
      .ok ({ st with next := st.next + 1 }, row.set st.colIdx (.int (Int64.ofNat st.next)))
  | some (.int v) =>
    if 0 ≤ v.toInt ∧ st.next ≤ v.toInt.toNat then
      .ok ({ st with next := Nat.min (v.toInt.toNat + 1) Table.u64Max }, row)
    else .ok (st, row)
  | some _ => .ok (st, row)

/-! ## Normalized values -/

section Normalize

variable {c : ColumnDef} {d d' : Datum}

theorem ColumnType.coerce_idem (t : ColumnType) (d : Datum) : t.coerce (t.coerce d) = t.coerce d := by
  have htime : ∀ s : String, (parseDatetimeStr s = none ∧
      (parseDatetimeStr s).elim (Datum.text s) Datum.dateTime = .text s) ∨
      ∃ v, (parseDatetimeStr s).elim (Datum.text s) Datum.dateTime = .dateTime v := by
    intro s
    cases parseDatetimeStr s with
    | none => exact Or.inl ⟨rfl, rfl⟩
    | some v => exact Or.inr ⟨v, rfl⟩
  cases t <;> cases d <;> try rfl
  all_goals
    next s =>
      rcases htime s with ⟨hnone, htext⟩ | ⟨v, hv⟩
      · simp [ColumnType.coerce, htext]
      · simp [ColumnType.coerce, hv]

theorem ColumnType.coerce_eq_null {t : ColumnType} (h : t.coerce d = .null) : d = .null := by
  cases d with
  | null => rfl
  | text s =>
    cases t with
    | dateTime | timestamp =>
      simp only [ColumnType.coerce] at h
      cases hp : parseDatetimeStr s <;> simp [hp] at h
    | _ => cases h
  | _ => cases t <;> cases h

theorem ColumnDef.admit_spec (h : c.admit d = .ok d') :
    d' = c.ctype.coerce d ∧ c.ctype.accepts d' = true := by
  unfold ColumnDef.admit at h
  dsimp only at h
  split at h
  · next haccepts =>
    cases h
    exact ⟨rfl, haccepts⟩
  · cases h

theorem ColumnDef.admit_idem (h : c.admit d = .ok d') : c.admit d' = .ok d' := by
  obtain ⟨rfl, haccepts⟩ := admit_spec h
  rw [ ColumnDef.admit, ColumnType.coerce_idem]
  exact if_pos haccepts

theorem ColumnDef.normalize_of_ne_null (h : d ≠ .null) : c.normalize d = c.admit d := by
  cases d with
  | null => exact absurd rfl h
  | _ => rfl

theorem ColumnDef.normalize_idem (h : c.normalize d = .ok d') : c.normalize d' = .ok d' := by
  have hadmitted : ∀ {v : Datum}, v ≠ .null → c.admit v = .ok d' → c.normalize d' = .ok d' := by
    intro v hv hadmit
    have hne : d' ≠ .null := by
      rw [(admit_spec hadmit).1]
      exact fun hnull => hv (ColumnType.coerce_eq_null hnull)
    rw [normalize_of_ne_null hne]
    exact admit_idem hadmit
  by_cases hnull : d = .null
  · subst hnull
    unfold ColumnDef.normalize at h
    cases hdefault : c.defaultValue with
    | none =>
      rw [hdefault] at h
      dsimp only at h
      split at h
      · next hnullable =>
        cases h
        simp [ColumnDef.normalize, hdefault, hnullable]
      · cases h
    | some v =>
      rw [hdefault] at h
      by_cases hv : v = .null
      · -- A default of `NULL` is stored as it is.
        subst hv
        have hnull' : d' = .null := by
          rw [(admit_spec h).1]
          cases c.ctype <;> rfl
        rw [hnull'] at h ⊢
        rw [ColumnDef.normalize, hdefault]
        exact h
      · exact hadmitted hv h
  · rw [normalize_of_ne_null hnull] at h
    exact hadmitted hnull h

end Normalize

namespace Schema

variable {schema : Schema} {row row' : List Datum}

/-- A row of the width of its schema whose values are all normalized. -/
structure Normal (schema : Schema) (row : List Datum) : Prop where
  width : row.length = schema.columns.length
  column : ∀ (i : Nat) c d, schema.columns[i]? = some c → row[i]? = some d → c.normalize d = .ok d

/-- What the loop of `validate_row` does with every column. -/
theorem normalizeRow_spec : ∀ {cols : List ColumnDef} {row row' : List Datum},
    row.length = cols.length → normalizeRow cols row = .ok row' →
      row'.length = row.length ∧ ∀ (i : Nat) c d d', cols[i]? = some c → row[i]? = some d →
        row'[i]? = some d' → c.normalize d = .ok d'
  | [], [], row', _, h => by
    cases h
    exact ⟨rfl, fun i c d d' hc => by simp at hc⟩
  | c :: cs, d :: ds, row', hlen, h => by
    rw [normalizeRow] at h
    cases hd : c.normalize d with
    | error e =>
      rw [hd] at h
      cases h
    | ok d' =>
      cases hds : normalizeRow cs ds with
      | error e =>
        rw [hd, hds] at h
        cases h
      | ok ds' =>
        rw [hd, hds] at h
        cases h
        obtain ⟨hlen', hcolumn⟩ := normalizeRow_spec (Nat.succ.inj hlen) hds
        refine ⟨congrArg Nat.succ hlen', fun i => ?_⟩
        cases i with
        | zero =>
          rintro c d d' ⟨⟩ ⟨⟩ ⟨⟩
          exact hd
        | succ i => exact hcolumn i

theorem normalizeRow_of_normal : ∀ {cols : List ColumnDef} {row : List Datum},
    row.length = cols.length →
    (∀ (i : Nat) c d, cols[i]? = some c → row[i]? = some d → c.normalize d = .ok d) →
      normalizeRow cols row = .ok row
  | [], [], _, _ => rfl
  | c :: cs, d :: ds, hlen, h => by
    have hd : c.normalize d = .ok d := h 0 c d rfl rfl
    have hds := normalizeRow_of_normal (Nat.succ.inj hlen) fun i => h (i + 1)
    rw [normalizeRow, hd, hds]
    rfl

theorem fillDefaults_of_length (h : row.length = schema.columns.length) :
    schema.fillDefaults row = row := by
  rw [fillDefaults, h, List.drop_length, List.map_nil, List.append_nil]

/-- Validating a stored row again changes nothing. -/
theorem Normal.validateRow (h : schema.Normal row) : schema.validateRow row = .ok row := by
  unfold Schema.validateRow
  rw [fillDefaults_of_length h.width]
  dsimp only
  rw [if_neg (by simp [h.width])]
  exact normalizeRow_of_normal h.width h.column

/-- What `validate_row` returns, column by column. -/
theorem validateRow_spec (h : schema.validateRow row = .ok row') :
    row'.length = schema.columns.length ∧ ∀ (i : Nat) c d d', schema.columns[i]? = some c →
      (schema.fillDefaults row)[i]? = some d → row'[i]? = some d' → c.normalize d = .ok d' := by
  unfold Schema.validateRow at h
  dsimp only at h
  split at h
  · cases h
  · next hlen =>
    have hlen := not_not.mp hlen
    obtain ⟨hwidth, hcolumn⟩ := normalizeRow_spec hlen h
    exact ⟨hwidth.trans hlen, hcolumn⟩

theorem validateRow_normal (h : schema.validateRow row = .ok row') : schema.Normal row' := by
  obtain ⟨hwidth, hcolumn⟩ := validateRow_spec h
  refine { width := hwidth, column := fun i c d hc hd => ?_ }
  unfold Schema.validateRow at h
  dsimp only at h
  split at h
  · cases h
  · next hlen =>
    have hi : i < (schema.fillDefaults row).length := by
      rw [not_not.mp hlen]
      exact (List.getElem?_eq_some_iff.mp hc).1
    exact ColumnDef.normalize_idem (hcolumn i c _ d hc (List.getElem?_eq_getElem hi) hd)

end Schema

end HenchDB
