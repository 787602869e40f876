import HenchDB.Catalog

/-!
# The codec of table definitions

Strings and byte strings carry their length.  A table definition is written
section by section, and a reader takes a missing section at the end as empty.

A column type is written as the first letter of its name and read back by
letter.  `BOOL`, `DATETIME` and `TIMESTAMP` share their letters with `BIGINT`,
`DOUBLE` and `TEXT`, which is what they are read back as.  A length or a count
is read back when it fits its field and the limit the reader sets it
(`DefSized`); whatever the reader returns is within these limits, so no other
definition is read back (`tableDef_round_trip_iff`).
-/

namespace HenchDB.Wal

open Codec
open Std (ExtTreeMap)

/-! ## Encoding -/

/-- `u32::to_le_bytes`. -/
def putU32 (n : Nat) : Bytes := leBytes 4 n

/-- `u64::to_le_bytes`. -/
def putU64 (n : Nat) : Bytes := leBytes 8 n

def putBytes (bs : Bytes) : Bytes := putU32 bs.length ++ bs

def putStr (s : String) : Bytes := putBytes (utf8 s)

def putDatum? : Option Datum → Bytes
  | some d => 1 :: d.encode
  | none => [0]

def putBool (b : Bool) : Bytes := [if b then 1 else 0]

def typeByte : ColumnType → UInt8
  | .int => 73
  | .bigInt => 66
  | .float => 70
  | .double => 68
  | .text => 84
  | .varChar => 86
  | .bool => 66
  | .dateTime => 68
  | .timestamp => 84

/-- One column of `encode_table_def_pub`. -/
def encodeColumn (c : ColumnDef) : Bytes :=
  putStr c.name ++ (typeByte c.ctype :: (putBool c.nullable ++ (putBool c.autoIncrement ++
    putDatum? c.defaultValue)))

/-- One index of `encode_table_def_pub`. -/
def encodeIndex (d : IndexDef) : Bytes := putStr d.name ++ putStr d.column

def actionByte : FkAction → UInt8
  | .restrict => 0
  | .cascade => 1
  | .setNull => 2

/-- One foreign key of `encode_table_def_pub`. -/
def encodeForeignKey (fk : ForeignKeyDef) : Bytes :=
  putStr fk.name ++ (putStr fk.column ++ (putStr fk.refTable ++ (putStr fk.refColumn ++
    [actionByte fk.onDelete])))

def encodeColumnStats (name : String) (c : ColumnStats) : Bytes :=
  putStr name ++ putU64 c.nullCount ++ putU64 c.distinctCount ++ putU64 c.total ++
    putDatum? c.min ++ putDatum? c.max ++ putU32 c.mcv.length ++
    c.mcv.flatMap fun (d, n) => d.encode ++ putU64 n

/-- `encode_stats`; the columns are sorted by name. -/
def encodeStats (s : TableStats) : Bytes :=
  putU64 s.rowCount ++ putU64 s.analyzedAt ++ putU32 s.columns.size ++
    s.columns.toList.flatMap fun (name, c) => encodeColumnStats name c

/-- `encode_table_def_pub`. -/
def encodeTableDef (d : TableDef) : Bytes :=
  putStr d.name ++ (putU32 d.schema.columns.length ++ (putU32 d.schema.pkIdx ++
    (d.schema.columns.flatMap encodeColumn ++
      ((putU32 d.indexes.length ++ d.indexes.flatMap encodeIndex) ++
        ((putU32 d.foreignKeys.length ++ d.foreignKeys.flatMap encodeForeignKey) ++
          match d.stats with
          | some s => 1 :: encodeStats s
          | none => [0])))))

/-! ## Decoding -/

def takeBytes : Decoder Error Bytes := do
  let n ← takeLe 4 (.corrupted "bytes: truncated")
  takeN n (.corrupted "bytes: overruns record")

def takeStr : Decoder Error String := do
  match fromUtf8 (← takeBytes) with
  | some s => return s
  | none => throw (.corrupted "utf8 string")

def takeU32 : Decoder Error Nat := takeLe 4 (.corrupted "u32: truncated")

def atMost (count : Decoder Error Nat) (limit : Nat) (msg : String) : Decoder Error Nat := do
  let n ← count
  if n > limit then throw (.corrupted msg) else return n

/-- A count of `decode_table_def_pub`. -/
def takeAtMost (limit : Nat) (msg : String) : Decoder Error Nat := atMost takeU32 limit msg

/-- A section that older images end before. -/
def takeSection {α : Type} (absent : α) (d : Decoder Error α) : Decoder Error α := fun input =>
  if input.isEmpty then .ok (absent, input) else d input

def columnType : UInt8 → Except Error ColumnType
  | 73 => .ok .int
  | 66 => .ok .bigInt
  | 70 => .ok .float
  | 68 => .ok .double
  | 84 => .ok .text
  | 86 => .ok .varChar
  | 76 => .ok .bool
  | 69 => .ok .dateTime
  | 77 => .ok .dateTime
  | 80 => .ok .timestamp
  | 83 => .ok .timestamp
  | b => .error (.corrupted s!"unknown col type {b.toNat}")

def takeDatum? (short : Error) : Decoder Error (Option Datum) := do
  if (← takeByte short) = 0 then return none else return some (← Datum.decode)

def takeFlag : Decoder Error Bool := do
  return (← takeByte (.corrupted "coldef: EOF")) ≠ 0

/-- One column of `decode_table_def_pub`. -/
def takeColumn (legacyCols : Bool) : Decoder Error ColumnDef := do
  let name ← takeStr
  let letter ← takeByte (.corrupted "coldef: EOF")
  let nullable ← takeFlag
  let autoIncrement ← if legacyCols then pure false else takeFlag
  let ctype ← (columnType letter : Except Error ColumnType)
  let defaultValue ←
    if legacyCols then pure none
    else takeSection none (takeDatum? (.corrupted "datum: EOF"))
  return { name, ctype, nullable, autoIncrement, defaultValue }

/-- One index of `decode_table_def_pub`. -/
def takeIndex : Decoder Error IndexDef := do
  let name ← takeStr
  let column ← takeStr
  return { name, column }

/-- `take_fk_action`. -/
def takeAction : Decoder Error FkAction := do
  match ← takeByte (.corrupted "fk: EOF") with
  | 0 => return .restrict
  | 1 => return .cascade
  | 2 => return .setNull
  | v => throw (.corrupted s!"unknown FK action {v.toNat}")

/-- One foreign key of `decode_table_def_pub`. -/
def takeForeignKey : Decoder Error ForeignKeyDef := do
  let name ← takeStr
  let column ← takeStr
  let refTable ← takeStr
  let refColumn ← takeStr
  let onDelete ← takeAction
  return { name, column, refTable, refColumn, onDelete }

/-- `take_u32` of the statistics. -/
def takeStatsU32 : Decoder Error Nat := takeLe 4 (.corrupted "stats: EOF")

/-- `take_u64` of the statistics. -/
def takeStatsU64 : Decoder Error Nat := takeLe 8 (.corrupted "stats: EOF")

/-- `take_str` of the statistics. -/
def takeStatsStr : Decoder Error String := do
  let n ← atMost takeStatsU32 1024 "stats: name too long"
  match fromUtf8 (← takeN n (.corrupted "stats: EOF")) with
  | some s => return s
  | none => throw (.corrupted "stats: utf8")

/-- One column of `decode_stats`. -/
def takeColumnStats : Decoder Error (String × ColumnStats) := do
  let name ← takeStatsStr
  let nullCount ← takeStatsU64
  let distinctCount ← takeStatsU64
  let total ← takeStatsU64
  let min ← takeDatum? (.corrupted "stats: EOF")
  let max ← takeDatum? (.corrupted "stats: EOF")
  let nmcv ← atMost takeStatsU32 1024 "stats: MCV list too large"
  let mcv ← takeMany (do
    let d ← Datum.decode
    let n ← takeStatsU64
    return (d, n)) nmcv
  return (name, { nullCount, distinctCount, min, max, mcv, total })

/-- `decode_stats`. -/
def takeStats : Decoder Error TableStats := do
  let rowCount ← takeStatsU64
  if rowCount > 1000000000 then throw (.corrupted "stats: row count too large")
  let analyzedAt ← takeStatsU64
  let ncols ← atMost takeStatsU32 10000 "stats: too many columns"
  let columns ← takeMany takeColumnStats ncols
  return { rowCount, columns := ExtTreeMap.ofList columns, analyzedAt }

/-- The trailing statistics of `decode_table_def_pub`. -/
def takeStats? : Decoder Error (Option TableStats) := do
  if (← takeByte (.corrupted "tabledef: EOF")) = 0 then return none else return some (← takeStats)

/-- `decode_table_def_pub`. -/
def decodeTableDef (legacyCols : Bool) : Decoder Error TableDef := do
  let name ← takeStr
  let ncols ← takeAtMost 10000 "too many columns in table def"
  let pkIdx ← takeU32
  let columns ← takeMany (takeColumn legacyCols) ncols
  let indexes ← takeSection [] (do
    takeMany takeIndex (← takeAtMost 10000 "too many indexes in table def"))
  let foreignKeys ← takeSection [] (do
    takeMany takeForeignKey (← takeAtMost 10000 "too many FKs in table def"))
  let stats ← takeSection none takeStats?
  return { name, schema := { columns, pkIdx }, indexes, foreignKeys, stats }

/-! ## Numbers and strings -/

variable {α : Type} {s : String} {bs : Bytes} {d : Datum} {n : Nat}

abbrev Fits (s : String) : Prop := (utf8 s).length < 2 ^ 32

theorem reads_takeBytes (h : bs.length < 2 ^ 32) : Reads takeBytes (putBytes bs) bs :=
  (reads_takeLe _ h).bind (reads_takeN _ rfl)

theorem reads_takeStr (h : Fits s) : Reads takeStr (putStr s) s := by
  refine (reads_takeBytes h).bind_pure ?_
  rw [fromUtf8_utf8]
  exact .pure

theorem reads_takeU32 (h : n < 2 ^ 32) : Reads takeU32 (putU32 n) n := reads_takeLe _ h

variable {limit : Nat} {msg : String} {dec : Decoder Error α}

theorem reads_atMost {count : Decoder Error Nat} (msg : String) (hcount : Reads count bs n)
    (h : n ≤ limit) : Reads (atMost count limit msg) bs n := by
  refine hcount.bind_pure ?_
  rw [if_neg (by omega)]
  exact .pure

theorem reads_takeAtMost (h : n ≤ limit) (hlimit : limit < 2 ^ 32) :
    Reads (takeAtMost limit msg) (putU32 n) n :=
  reads_atMost _ (reads_takeU32 (h.trans_lt hlimit)) h

theorem reads_takeSection {absent a : α} (hne : bs ≠ []) (h : Reads dec bs a) :
    Reads (takeSection absent dec) bs a := by
  intro rest
  show (if (bs ++ rest).isEmpty then _ else dec.run (bs ++ rest)) = _
  rw [if_neg (by simp [hne])]
  exact h rest

theorem reads_takeDatum? {short : Error} :
    ∀ {d : Option Datum}, (∀ x ∈ d, x.Sized) → Reads (takeDatum? short) (putDatum? d) d
  | none, _ => (reads_takeByte 0 _).bind_pure .pure
  | some d, h => (reads_takeByte 1 _).bind ((Datum.reads_decode (h d rfl)).bind_pure .pure)

theorem reads_takeFlag : ∀ b : Bool, Reads takeFlag (putBool b) b
  | true => (reads_takeByte 1 _).bind_pure .pure
  | false => (reads_takeByte 0 _).bind_pure .pure

theorem reads_takeAction : ∀ a : FkAction, Reads takeAction [actionByte a] a
  | .restrict => (reads_takeByte 0 _).bind_pure .pure
  | .cascade => (reads_takeByte 1 _).bind_pure .pure
  | .setNull => (reads_takeByte 2 _).bind_pure .pure

theorem reads_counted {enc : α → Bytes} {l : List α} (hlen : l.length ≤ limit)
    (hlimit : limit < 2 ^ 32) (h : ∀ a ∈ l, Reads dec (enc a) a) :
    Reads (do takeMany dec (← takeAtMost limit msg)) (putU32 l.length ++ l.flatMap enc) l :=
  (reads_takeAtMost hlen hlimit).bind (reads_takeMany h)

/-! ## Columns, indexes and foreign keys -/

def Lettered (c : ColumnType) : Prop := columnType (typeByte c) = .ok c

instance (c : ColumnType) : Decidable (Lettered c) := by
  unfold Lettered
  infer_instance

/-- Exactly the types that share their letter with another are not read back. -/
theorem lettered_iff (c : ColumnType) :
    Lettered c ↔ c ≠ .bool ∧ c ≠ .dateTime ∧ c ≠ .timestamp := by
  cases c <;> decide

def readType : ColumnType → ColumnType
  | .bool => .bigInt
  | .dateTime => .double
  | .timestamp => .text
  | c => c

theorem columnType_typeByte (c : ColumnType) : columnType (typeByte c) = .ok (readType c) := by
  cases c <;> rfl

theorem readType_eq_iff (c : ColumnType) : readType c = c ↔ Lettered c := by
  rw [Lettered, columnType_typeByte, Except.ok.injEq]

def readColumn (c : ColumnDef) : ColumnDef := { c with ctype := readType c.ctype }

/-- A column whose lengths fit their fields. -/
structure ColumnSized (c : ColumnDef) : Prop where
  name : Fits c.name
  defaultValue : ∀ d ∈ c.defaultValue, d.Sized

theorem reads_takeColumn {c : ColumnDef} (h : ColumnSized c) :
    Reads (takeColumn false) (encodeColumn c) (readColumn c) := by
  refine (reads_takeStr h.name).bind ((reads_takeByte _ _).bind ?_)
  refine (reads_takeFlag _).bind ((reads_takeFlag _).bind ?_)
  have hne : putDatum? c.defaultValue ≠ [] := by
    cases c.defaultValue <;> simp [putDatum?]
  have hdefault : Reads (takeSection none (takeDatum? (.corrupted "datum: EOF")))
      (putDatum? c.defaultValue) c.defaultValue :=
    reads_takeSection hne (reads_takeDatum? h.defaultValue)
  have hctype : Reads (liftM (columnType (typeByte c.ctype)) : Decoder Error ColumnType) []
      (readType c.ctype) := by
    rw [columnType_typeByte]
    exact fun _ => rfl
  exact hctype.bind (hdefault.bind_pure .pure)

/-- An index whose lengths fit their fields. -/
structure IndexSized (x : IndexDef) : Prop where
  name : Fits x.name
  column : Fits x.column

theorem reads_takeIndex {x : IndexDef} (h : IndexSized x) : Reads takeIndex (encodeIndex x) x :=
  (reads_takeStr h.name).bind ((reads_takeStr h.column).bind_pure .pure)

/-- A foreign key whose lengths fit their fields. -/
structure ForeignKeySized (fk : ForeignKeyDef) : Prop where
  name : Fits fk.name
  column : Fits fk.column
  refTable : Fits fk.refTable
  refColumn : Fits fk.refColumn

theorem reads_takeForeignKey {fk : ForeignKeyDef} (h : ForeignKeySized fk) :
    Reads takeForeignKey (encodeForeignKey fk) fk :=
  (reads_takeStr h.name).bind <| (reads_takeStr h.column).bind <|
    (reads_takeStr h.refTable).bind <| (reads_takeStr h.refColumn).bind <|
      (reads_takeAction fk.onDelete).bind_pure .pure

/-! ## Statistics -/

/-- One most common value of `encode_stats`. -/
def encodeMcv (v : Datum × Nat) : Bytes := v.1.encode ++ putU64 v.2

/-- The statistics of a column within the limits of their reader. -/
structure ColumnStatsSized (c : ColumnStats) : Prop where
  nullCount : c.nullCount < 2 ^ 64
  distinctCount : c.distinctCount < 2 ^ 64
  total : c.total < 2 ^ 64
  min : ∀ d ∈ c.min, d.Sized
  max : ∀ d ∈ c.max, d.Sized
  values : c.mcv.length ≤ 1024
  mcv : ∀ v ∈ c.mcv, v.1.Sized ∧ v.2 < 2 ^ 64

/-- The statistics of a table within the limits of their reader. -/
structure StatsSized (s : TableStats) : Prop where
  rowCount : s.rowCount ≤ 1000000000
  analyzedAt : s.analyzedAt < 2 ^ 64
  size : s.columns.size ≤ 10000
  columns : ∀ (name : String) (c : ColumnStats), s.columns[name]? = some c →
    (utf8 name).length ≤ 1024 ∧ ColumnStatsSized c

theorem reads_takeStatsU64 (h : n < 2 ^ 64) : Reads takeStatsU64 (putU64 n) n := reads_takeLe _ h

theorem reads_takeStatsStr (h : (utf8 s).length ≤ 1024) : Reads takeStatsStr (putStr s) s := by
  have hlen : Reads takeStatsU32 (putU32 (utf8 s).length) (utf8 s).length :=
    reads_takeLe _ (h.trans_lt (by decide))
  refine (reads_atMost _ hlen h).bind ((reads_takeN _ rfl).bind_pure ?_)
  rw [fromUtf8_utf8]
  exact .pure

theorem encodeColumnStats_eq (s : String) (c : ColumnStats) : encodeColumnStats s c =
    putStr s ++ putU64 c.nullCount ++ putU64 c.distinctCount ++ putU64 c.total ++
      putDatum? c.min ++ putDatum? c.max ++ putU32 c.mcv.length ++ c.mcv.flatMap encodeMcv := rfl

theorem encodeStats_eq (x : TableStats) : encodeStats x =
    putU64 x.rowCount ++ putU64 x.analyzedAt ++ putU32 x.columns.size ++
      x.columns.toList.flatMap fun e => encodeColumnStats e.1 e.2 := rfl

theorem reads_takeColumnStats {c : ColumnStats} (hname : (utf8 s).length ≤ 1024)
    (h : ColumnStatsSized c) : Reads takeColumnStats (encodeColumnStats s c) (s, c) := by
  have hcount : Reads takeStatsU32 (putU32 c.mcv.length) c.mcv.length :=
    reads_takeLe _ (h.values.trans_lt (by decide))
  have hvalue : ∀ v ∈ c.mcv, Reads (do
      let d ← Datum.decode
      let n ← takeStatsU64
      return (d, n)) (encodeMcv v) v := by
    intro v hv
    refine (Datum.reads_decode (h.mcv v hv).1).bind ?_
    exact (reads_takeStatsU64 (h.mcv v hv).2).bind_pure .pure
  have henc : encodeColumnStats s c = putStr s ++ (putU64 c.nullCount ++ (putU64 c.distinctCount ++
      (putU64 c.total ++ (putDatum? c.min ++ (putDatum? c.max ++
        (putU32 c.mcv.length ++ c.mcv.flatMap encodeMcv)))))) := by
    simp only [encodeColumnStats_eq, List.append_assoc]
  rw [henc]
  refine (reads_takeStatsStr hname).bind ?_
  refine (reads_takeStatsU64 h.nullCount).bind ((reads_takeStatsU64 h.distinctCount).bind ?_)
  refine (reads_takeStatsU64 h.total).bind ?_
  refine (reads_takeDatum? h.min).bind ((reads_takeDatum? h.max).bind ?_)
  exact (reads_atMost _ hcount h.values).bind ((reads_takeMany hvalue).bind_pure .pure)

/-- Reading the entries of a map in key order rebuilds it. -/
theorem ofList_toList {V : Type} (m : ExtTreeMap String V) : ExtTreeMap.ofList m.toList = m := by
  refine ExtTreeMap.ext_getElem? fun k => ?_
  cases hk : m[k]? with
  | some v =>
    have hmem : (k, v) ∈ m.toList := ExtTreeMap.mem_toList_iff_getElem?_eq_some.2 hk
    exact ExtTreeMap.getElem?_ofList_of_mem Std.ReflCmp.compare_self
      ExtTreeMap.distinct_keys_toList hmem
  | none =>
    refine ExtTreeMap.getElem?_ofList_of_contains_eq_false ?_
    rw [List.contains_eq_mem, decide_eq_false_iff_not, List.mem_map]
    rintro ⟨⟨k', v⟩, hmem, rfl⟩
    rw [ExtTreeMap.mem_toList_iff_getElem?_eq_some] at hmem
    simp [hmem] at hk

theorem mem_of_getElem?_ofList {V : Type} {l : List (String × V)} {k : String} {v : V}
    (h : (ExtTreeMap.ofList l)[k]? = some v) : (k, v) ∈ l := by
  rw [ExtTreeMap.ofList_eq_insertMany_empty, ExtTreeMap.getElem?_insertMany_list] at h
  simp only [ExtTreeMap.getElem?_empty, Option.or_none] at h
  rw [List.findSomeRev?_eq_findSome?_reverse] at h
  obtain ⟨⟨a, b⟩, hmem, hab⟩ := List.exists_of_findSome?_eq_some h
  simp only [Std.compare_eq_iff_eq] at hab
  split at hab
  · next heq =>
    cases hab
    rw [← heq]
    exact List.mem_reverse.1 hmem
  · cases hab

theorem reads_takeStats {x : TableStats} (h : StatsSized x) : Reads takeStats (encodeStats x) x := by
  have hsize : Reads takeStatsU32 (putU32 x.columns.size) x.columns.size :=
    reads_takeLe _ (h.size.trans_lt (by decide))
  have hcolumn : ∀ e ∈ x.columns.toList,
      Reads takeColumnStats (encodeColumnStats e.1 e.2) e := by
    rintro ⟨name, c⟩ he
    rw [ExtTreeMap.mem_toList_iff_getElem?_eq_some] at he
    obtain ⟨hname, hc⟩ := h.columns name c he
    exact reads_takeColumnStats hname hc
  have hcolumns : Reads (takeMany takeColumnStats x.columns.size)
      (x.columns.toList.flatMap fun e => encodeColumnStats e.1 e.2) x.columns.toList := by
    rw [← ExtTreeMap.length_toList]
    exact reads_takeMany hcolumn
  have hrows : x.rowCount < 2 ^ 64 := h.rowCount.trans_lt (by decide)
  have henc : encodeStats x = putU64 x.rowCount ++ (putU64 x.analyzedAt ++
      (putU32 x.columns.size ++ x.columns.toList.flatMap fun e => encodeColumnStats e.1 e.2)) := by
    simp only [encodeStats, List.append_assoc]
  rw [henc]
  refine (reads_takeStatsU64 hrows).bind ?_
  rw [if_neg (by have := h.rowCount; omega)]
  refine (reads_takeStatsU64 h.analyzedAt).bind ?_
  refine (reads_atMost _ hsize h.size).bind (hcolumns.bind_pure ?_)
  rw [ofList_toList]
  exact .pure

/-! ## Table definitions -/

/-- A table definition within the limits of its reader. -/
structure DefSized (x : TableDef) : Prop where
  name : Fits x.name
  columns : x.schema.columns.length ≤ 10000
  pkIdx : x.schema.pkIdx < 2 ^ 32
  column : ∀ c ∈ x.schema.columns, ColumnSized c
  indexes : x.indexes.length ≤ 10000
  index : ∀ i ∈ x.indexes, IndexSized i
  foreignKeys : x.foreignKeys.length ≤ 10000
  foreignKey : ∀ fk ∈ x.foreignKeys, ForeignKeySized fk
  stats : ∀ s ∈ x.stats, StatsSized s

/-- The definition that the encoding of a definition is read back as. -/
def readDef (x : TableDef) : TableDef :=
  { x with schema := { x.schema with columns := x.schema.columns.map readColumn } }

theorem reads_takeStats? {s : Option TableStats} (h : ∀ x ∈ s, StatsSized x) :
    Reads takeStats? (s.elim [0] fun x => 1 :: encodeStats x) s := by
  cases s with
  | none => exact (reads_takeByte 0 _).bind_pure .pure
  | some x => exact (reads_takeByte 1 _).bind ((reads_takeStats (h x rfl)).bind_pure .pure)

theorem reads_readDef {x : TableDef} (h : DefSized x) :
    Reads (decodeTableDef false) (encodeTableDef x) (readDef x) := by
  have hne : ∀ (n : Nat) (rest : Bytes), putU32 n ++ rest ≠ [] := by
    intro n rest
    simp [putU32, leBytes]
  have hcolumns : Reads (takeMany (takeColumn false) x.schema.columns.length)
      (x.schema.columns.flatMap encodeColumn) (x.schema.columns.map readColumn) :=
    reads_takeMany_map fun c hc => reads_takeColumn (h.column c hc)
  have hindex : ∀ i ∈ x.indexes, Reads takeIndex (encodeIndex i) i :=
    fun i hi => reads_takeIndex (h.index i hi)
  have hforeignKey : ∀ fk ∈ x.foreignKeys, Reads takeForeignKey (encodeForeignKey fk) fk :=
    fun fk hfk => reads_takeForeignKey (h.foreignKey fk hfk)
  have hstats : Reads (takeSection none takeStats?)
      (x.stats.elim [0] fun s => 1 :: encodeStats s) x.stats := by
    refine reads_takeSection ?_ (reads_takeStats? h.stats)
    cases x.stats <;> simp
  refine (reads_takeStr h.name).bind ?_
  refine (reads_takeAtMost h.columns (by decide)).bind ?_
  refine (reads_takeU32 h.pkIdx).bind (hcolumns.bind ?_)
  refine (reads_takeSection (hne _ _) (reads_counted h.indexes (by decide) hindex)).bind ?_
  refine (reads_takeSection (hne _ _) (reads_counted h.foreignKeys (by decide) hforeignKey)).bind ?_
  have hmatch : (match x.stats with | some s => 1 :: encodeStats s | none => [0]) =
      x.stats.elim [0] fun s => 1 :: encodeStats s := by
    cases x.stats <;> rfl
  rw [hmatch]
  exact hstats.bind_pure .pure

/-! ## What the reader returns is within its limits -/

theorem utf8_of_fromUtf8 (h : fromUtf8 bs = some s) : utf8 s = bs := by
  rw [fromUtf8, String.fromUTF8?] at h
  split at h
  · cases h
    rfl
  · cases h

theorem yields_takeStr : Yields takeStr Fits := by
  have hbytes : Yields takeBytes fun bs => bs.length < 2 ^ 32 := by
    refine yields_takeLe.bind fun n hn => yields_takeN.mono fun bs hbs => ?_
    rw [hbs]
    exact hn
  refine hbytes.bind fun bs hbs => ?_
  cases hs : fromUtf8 bs with
  | none => exact .throw
  | some s =>
    refine .pure ?_
    rw [Fits, utf8_of_fromUtf8 hs]
    exact hbs

theorem yields_atMost {count : Decoder Error Nat} :
    Yields (atMost count limit msg) fun n => n ≤ limit := by
  refine Yields.trivial.bind fun n _ => ?_
  split
  · exact .throw
  · exact .pure (by omega)

theorem yields_takeSection {P : α → Prop} {absent : α} (habsent : P absent) (h : Yields dec P) :
    Yields (takeSection absent dec) P := by
  intro input a rest hrun
  simp only [takeSection, StateT.run] at hrun
  split at hrun
  · cases hrun
    exact habsent
  · exact h input a rest hrun

theorem yields_decode : Yields Datum.decode Datum.Sized := by
  refine Yields.trivial.bind fun tag _ => ?_
  split
  · exact .pure trivial
  · exact Yields.trivial.bind fun _ _ => .pure trivial
  · exact Yields.trivial.bind fun _ _ => .pure trivial
  · refine yields_takeLe.bind fun n hn => yields_takeN.bind fun bs hbs => ?_
    cases hs : fromUtf8 bs with
    | none => exact .throw
    | some s =>
      refine .pure ?_
      show (utf8 s).length < 2 ^ 32
      rw [utf8_of_fromUtf8 hs, hbs]
      exact hn
  · exact Yields.trivial.bind fun _ _ => .pure trivial
  · exact Yields.trivial.bind fun _ _ => .pure trivial
  · exact .throw

theorem yields_takeDatum? {short : Error} :
    Yields (takeDatum? short) fun d => ∀ x ∈ d, x.Sized := by
  refine Yields.trivial.bind fun b _ => ?_
  split
  · exact .pure (by simp)
  · exact yields_decode.bind fun d hd => .pure (by simpa using hd)

theorem yields_takeColumn : Yields (takeColumn false) ColumnSized := by
  refine yields_takeStr.bind fun name hname => Yields.trivial.bind fun letter _ => ?_
  refine Yields.trivial.bind fun nullable _ => Yields.trivial.bind fun autoIncrement _ => ?_
  refine Yields.trivial.bind fun ctype _ => ?_
  have hdefault : Yields (takeSection none (takeDatum? (.corrupted "datum: EOF")))
      fun d => ∀ x ∈ d, x.Sized := yields_takeSection (by simp) yields_takeDatum?
  exact hdefault.bind fun d hd => .pure ⟨hname, hd⟩

theorem yields_takeIndex : Yields takeIndex IndexSized :=
  yields_takeStr.bind fun _ hname => yields_takeStr.bind fun _ hcolumn => .pure ⟨hname, hcolumn⟩

theorem yields_takeForeignKey : Yields takeForeignKey ForeignKeySized := by
  refine yields_takeStr.bind fun name hname => yields_takeStr.bind fun column hcolumn => ?_
  refine yields_takeStr.bind fun table htable => yields_takeStr.bind fun ref href => ?_
  exact Yields.trivial.bind fun action _ => .pure ⟨hname, hcolumn, htable, href⟩

theorem yields_counted {P : α → Prop} (h : Yields dec P) :
    Yields (do takeMany dec (← takeAtMost limit msg))
      fun l => l.length ≤ limit ∧ ∀ a ∈ l, P a := by
  refine yields_atMost.bind fun n hn => (yields_takeMany h n).mono fun l hl => ⟨?_, hl.2⟩
  rw [hl.1]
  exact hn

theorem yields_takeStatsStr : Yields takeStatsStr fun s => (utf8 s).length ≤ 1024 := by
  refine yields_atMost.bind fun n hn => yields_takeN.bind fun bs hbs => ?_
  cases hs : fromUtf8 bs with
  | none => exact .throw
  | some s =>
    refine .pure ?_
    rw [utf8_of_fromUtf8 hs, hbs]
    exact hn

theorem yields_takeColumnStats :
    Yields takeColumnStats fun e => (utf8 e.1).length ≤ 1024 ∧ ColumnStatsSized e.2 := by
  have hvalue : Yields (do
      let d ← Datum.decode
      let n ← takeStatsU64
      return (d, n)) fun v : Datum × Nat => v.1.Sized ∧ v.2 < 2 ^ 64 :=
    yields_decode.bind fun d hd => yields_takeLe.bind fun n hn => .pure ⟨hd, hn⟩
  refine yields_takeStatsStr.bind fun name hname => yields_takeLe.bind fun nullCount hnull => ?_
  refine yields_takeLe.bind fun distinct hdistinct => yields_takeLe.bind fun total htotal => ?_
  refine yields_takeDatum?.bind fun min hmin => yields_takeDatum?.bind fun max hmax => ?_
  refine yields_atMost.bind fun n hn => (yields_takeMany hvalue n).bind fun mcv hmcv => .pure ?_
  exact ⟨hname, hnull, hdistinct, htotal, hmin, hmax, hmcv.1.trans_le hn, hmcv.2⟩

theorem yields_takeStats : Yields takeStats StatsSized := by
  refine yields_takeLe.bind fun rowCount _ => ?_
  split
  · exact Yields.throw
  · next hrows =>
    refine yields_takeLe.bind fun analyzedAt hat => yields_atMost.bind fun n hn => ?_
    refine (yields_takeMany yields_takeColumnStats n).bind fun l hl => .pure ?_
    refine ⟨Nat.le_of_not_lt hrows, hat, ?_, fun name c hc => ?_⟩
    · exact ExtTreeMap.size_ofList_le.trans (hl.1.trans_le hn)
    · exact hl.2 _ (mem_of_getElem?_ofList hc)

theorem yields_takeStats? : Yields takeStats? fun s => ∀ x ∈ s, StatsSized x := by
  refine Yields.trivial.bind fun b _ => ?_
  split
  · exact .pure (by simp)
  · exact yields_takeStats.bind fun s hs => .pure (by simpa using hs)

theorem yields_decodeTableDef : Yields (decodeTableDef false) DefSized := by
  refine yields_takeStr.bind fun name hname => yields_atMost.bind fun n hn => ?_
  refine yields_takeLe.bind fun pkIdx hpk => ?_
  refine (yields_takeMany yields_takeColumn n).bind fun columns hcols => ?_
  have hindexes : Yields (takeSection [] (do
      takeMany takeIndex (← takeAtMost 10000 "too many indexes in table def")))
      fun l => l.length ≤ 10000 ∧ ∀ i ∈ l, IndexSized i :=
    yields_takeSection (by simp) (yields_counted yields_takeIndex)
  have hforeignKeys : Yields (takeSection [] (do
      takeMany takeForeignKey (← takeAtMost 10000 "too many FKs in table def")))
      fun l => l.length ≤ 10000 ∧ ∀ fk ∈ l, ForeignKeySized fk :=
    yields_takeSection (by simp) (yields_counted yields_takeForeignKey)
  have hstats : Yields (takeSection none takeStats?) fun s => ∀ x ∈ s, StatsSized x :=
    yields_takeSection (by simp) yields_takeStats?
  refine hindexes.bind fun indexes hidx => hforeignKeys.bind fun foreignKeys hfks => ?_
  refine hstats.bind fun stats hst => .pure ?_
  exact
    { name := hname
      columns := hcols.1.trans_le hn
      pkIdx := hpk
      column := hcols.2
      indexes := hidx.1
      index := hidx.2
      foreignKeys := hfks.1
      foreignKey := hfks.2
      stats := hst }

theorem readDef_eq_iff (x : TableDef) :
    readDef x = x ↔ ∀ c ∈ x.schema.columns, Lettered c.ctype := by
  obtain ⟨name, ⟨columns, pkIdx⟩, indexes, foreignKeys, stats⟩ := x
  have hcolumn : ∀ c : ColumnDef, readColumn c = c ↔ Lettered c.ctype := by
    rintro ⟨cname, ctype, nullable, auto, default⟩
    rw [← readType_eq_iff]
    simp [readColumn]
  simp only [readDef, TableDef.mk.injEq, Schema.mk.injEq, true_and, and_true]
  calc columns.map readColumn = columns
      ↔ columns.map readColumn = columns.map id := by rw [List.map_id]
    _ ↔ ∀ c ∈ columns, readColumn c = c := List.map_inj_left
    _ ↔ ∀ c ∈ columns, Lettered c.ctype := forall₂_congr fun c _ => hcolumn c

/-- A definition is read back exactly when it is within the limits of the
reader and each of its types is the one its letter stands for. -/
theorem tableDef_round_trip_iff (x : TableDef) :
    (decodeTableDef false).run (encodeTableDef x) = .ok (x, []) ↔
      DefSized x ∧ ∀ c ∈ x.schema.columns,
        c.ctype ≠ .bool ∧ c.ctype ≠ .dateTime ∧ c.ctype ≠ .timestamp := by
  simp only [← lettered_iff, ← readDef_eq_iff]
  constructor
  · intro hrun
    have hsized : DefSized x := yields_decodeTableDef _ x [] hrun
    have hread := reads_readDef hsized []
    rw [List.append_nil, hrun] at hread
    exact ⟨hsized, (Prod.mk.inj (Except.ok.inj hread)).1.symm⟩
  · rintro ⟨hsized, hback⟩
    have hread := reads_readDef hsized []
    rwa [List.append_nil, hback] at hread

/-- `CREATE TABLE flags (id INT PRIMARY KEY, flag BOOL)`. -/
def flagTable : TableDef where
  name := "default.flags"
  schema :=
    { columns :=
        [{ name := "id", ctype := .int, nullable := false, autoIncrement := false,
           defaultValue := none },
         { name := "flag", ctype := .bool, nullable := true, autoIncrement := false,
           defaultValue := none }]
      pkIdx := 0 }
  indexes := []
  foreignKeys := []
  stats := none

/-- The second column is read back as `BIGINT`. -/
theorem bool_column_read_as_bigInt :
    (decodeTableDef false).run (encodeTableDef flagTable) = .ok (readDef flagTable, []) ∧
      readDef flagTable ≠ flagTable := by
  have hsized : DefSized flagTable :=
    { name := by decide +kernel
      columns := by decide
      pkIdx := by decide
      column := by
        intro c hc
        simp only [flagTable, List.mem_cons, List.not_mem_nil, or_false] at hc
        rcases hc with rfl | rfl <;> exact ⟨by decide +kernel, by simp⟩
      indexes := by decide
      index := by simp [flagTable]
      foreignKeys := by decide
      foreignKey := by simp [flagTable]
      stats := by simp [flagTable] }
  refine ⟨by simpa using reads_readDef hsized [], ?_⟩
  rw [Ne, readDef_eq_iff]
  simp [flagTable, lettered_iff]

end HenchDB.Wal
