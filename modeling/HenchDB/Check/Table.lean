import HenchDB.Query.Visible
import HenchDB.Replication.Offpage

/-!
# CHECK TABLE

`checkTableLocked` reads the rows of a table, the entries of its indexes and the keys of
the tables that it refers to, and collects what it finds wrong.  It reports a hash of what
is stored too.

The trees are maps from keys to bytes, any bytes.  What the pool loads for a locator is a
parameter, and so are the texts of values in the messages.
-/

namespace HenchDB.Check

open Codec Pool Replica
open Query (decodeSecIndexKey)

/-! ## What is read -/

/-- The tables, the database of the session and what the pool loads.  The columns of keys
and indexes are columns of the schema. -/
structure State where
  catalog : Catalog
  currentDb : String
  load : Frag → Except Error Bytes
  keyed : ∀ (n : String) (t : Table), catalog.tables[n]? = some t →
    t.schema.pkIdx < t.schema.columns.length
  indexed : ∀ (n : String) (t : Table), catalog.tables[n]? = some t → ∀ i ∈ t.indexes,
    i.colIdx < t.schema.columns.length

/-- The texts of the messages: `{:?}` of bytes and of values, and `{}` of errors. -/
structure Texts where
  bytes : Bytes → String
  datum : Datum → String
  error : Error → String

/-- A stored value, or what its locator leads to. -/
def State.resolveValue (st : State) (raw : Bytes) : Except Error Bytes :=
  if isLocator raw then decodeLocator raw >>= st.load else .ok raw

def State.decodeStored (st : State) (t : Table) (raw : Bytes) : Except Error Row :=
  st.resolveValue raw >>= decodeRow t.schema

def State.resolveTableKey (st : State) (tableName : String) : String :=
  if '.' ∈ tableName.toList then tableName
  else
    let qual := s!"{st.currentDb}.{tableName}"
    if st.catalog.tables.contains qual then qual
    else if st.catalog.tables.contains tableName then tableName
    else qual

/-! ## The rows -/

variable (txt : Texts) (st : State) (t : Table)

/-- The keys of the tree ascend. -/
def orderErrors (prev : Option Bytes) (k : Bytes) : List String :=
  match prev with
  | none => []
  | some prev =>
    if (compare k prev).isLE then
      [s!"B+ tree ordering violation: key {txt.bytes k} is not strictly greater than previous key {txt.bytes prev}"]
    else []

def schemaErrors (pk : Datum) (row : Row) : List String :=
  if row.length ≠ t.schema.columns.length then
    [s!"Row column count mismatch for PK {txt.datum pk}: expected {t.schema.columns.length}, got {row.length}"]
  else
    (t.schema.columns.zip row).filterMap fun c =>
      if c.1.nullable = false ∧ c.2 = .null then
        some s!"NOT NULL constraint violated for column '{c.1.name}' at PK {txt.datum pk}"
      else none

/-- One entry of the primary tree: what is wrong with it, and its row. -/
def checkRow (kv : Bytes × Bytes) : Except Fault (List String × Option (Datum × Row)) :=
  match decodeKey kv.1 with
  | .error .panic => .error .panic
  | .error (.err e) => .ok ([s!"Corrupt primary key {txt.bytes kv.1}: {txt.error e}"], none)
  | .ok pk =>
    match st.decodeStored t kv.2 with
    | .error e => .ok ([s!"Corrupt row for PK {txt.datum pk}: {txt.error e}"], none)
    | .ok row => .ok (schemaErrors txt t pk row, some (pk, row))

/-- The loop over the primary tree. -/
def checkRows : Option Bytes → List (Bytes × Bytes) → Except Fault (List String × List (Datum × Row))
  | _, [] => .ok ([], [])
  | prev, kv :: kvs => do
    let (errors, row) ← checkRow txt st t kv
    let (errors', rows) ← checkRows (some kv.1) kvs
    return (orderErrors txt prev kv.1 ++ errors ++ errors', row.toList ++ rows)

/-! ## The indexes -/

/-- An index entry leads to a row with its value. -/
def checkEntry (i : SecondaryIndex) (secK : Bytes) : Except Fault (List String) :=
  match decodeSecIndexKey secK with
  | .error .panic => .error .panic
  | .error (.err e) =>
    .ok [s!"Secondary index '{i.info.name}' has undecodable key: {txt.error e}"]
  | .ok (secVal, pkVal) =>
    match encodeKey pkVal with
    | .error e => .ok [s!"Secondary index '{i.info.name}' has invalid PK in key: {txt.error e}"]
    | .ok pkBytes =>
      match t.tree[pkBytes]? with
      | none =>
        .ok [s!"Secondary index '{i.info.name}' points to non-existent PK {txt.datum pkVal}"]
      | some val =>
        match st.decodeStored t val with
        | .error _ => .ok []
        | .ok row =>
          match row[i.colIdx]? with
          | none => .ok []
          | some d =>
            if d.eqv secVal then .ok []
            else
              .ok [s!"Secondary index '{i.info.name}' value mismatch: index has {txt.datum secVal}, row has {txt.datum d}"]

/-- A row has its entry in the index. -/
def checkIndexed (i : SecondaryIndex) (r : Datum × Row) : Except Fault (List String) :=
  match r.2[i.colIdx]? with
  | none => .ok []
  | some secVal =>
    match r.2[t.schema.pkIdx]? with
    | none => .error .panic
    | some pkVal =>
      match encodeSecIndexKey secVal pkVal with
      | .error _ => .ok []
      | .ok k =>
        if k ∈ i.tree then .ok []
        else .ok [s!"Row PK {txt.datum r.1} missing from secondary index '{i.info.name}'"]

def checkIndex (rows : List (Datum × Row)) (i : SecondaryIndex) : Except Fault (List String) := do
  let entries ← i.tree.toList.mapM (checkEntry txt st t i)
  let missing ← rows.mapM (checkIndexed txt t i)
  return entries.flatten ++ missing.flatten

/-! ## The foreign keys -/

def State.parentTable (fk : ForeignKeyDef) : Option Table :=
  if '.' ∈ fk.refTable.toList then st.catalog.tables[fk.refTable]?
  else (st.catalog.tables[s!"{st.currentDb}.{fk.refTable}"]?).or st.catalog.tables[fk.refTable]?

/-- The row a foreign key names is there. -/
def checkReference (parent : Table) (fk : ForeignKeyDef) (col : Nat) (r : Datum × Row) : List String :=
  match r.2[col]? with
  | none => []
  | some .null => []
  | some fkVal =>
    match encodeKey fkVal with
    | .error _ => []
    | .ok parentPk =>
      if parentPk ∈ parent.tree then []
      else
        [s!"Foreign key constraint '{fk.name}' violated on PK {txt.datum r.1}: referenced row {txt.datum fkVal} not found in '{fk.refTable}'"]

/-- All rows of the table against one foreign key. -/
def checkForeignKey (rows : List (Datum × Row)) (fk : ForeignKeyDef) : List String :=
  match st.parentTable fk with
  | none => [s!"Foreign key references missing parent table '{fk.refTable}'"]
  | some parent =>
    match t.schema.indexOf fk.column with
    | none => [s!"Foreign key references non-existent column '{fk.column}' in this table"]
    | some col => rows.flatMap (checkReference txt parent fk col)

/-! ## The report -/

/-- What the hash of a table runs over. -/
def hasherBuf (entries : List (Bytes × Bytes)) : Bytes :=
  entries.flatMap fun kv => leBytes 4 kv.1.length ++ kv.1 ++ leBytes 4 kv.2.length ++ kv.2

/-- What `CHECK TABLE` answers. -/
structure CheckReport where
  table : String
  op : String
  status : String
  hash : UInt32
  errorMsg : Option String
deriving DecidableEq

def CheckReport.isOk (report : CheckReport) : Bool := report.errorMsg.isNone

def tableErrors : Except Fault (List String) := do
  let (rowErrors, rows) ← checkRows txt st t none t.tree.toList
  let indexErrors ← t.indexes.mapM (checkIndex txt st t rows)
  return rowErrors ++ indexErrors.flatten ++ t.info.foreignKeys.flatMap (checkForeignKey txt st t rows)

def checkTableLocked (tableName : String) : Except Fault CheckReport := do
  match st.catalog.tables[st.resolveTableKey tableName]? with
  | none => throw (.err (.tableNotFound tableName))
  | some t =>
    let errors ← tableErrors txt st t
    return {
      table := st.resolveTableKey tableName
      op := "check"
      status := if errors = [] then "status" else "error"
      hash := Wal.crc32 (hasherBuf t.tree.toList)
      errorMsg := if errors = [] then none else some ("; ".intercalate errors) }

end HenchDB.Check
