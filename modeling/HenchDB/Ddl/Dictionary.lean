import HenchDB.Ddl.Redo
import HenchDB.Sql.Lexer
import HenchDB.Wal.Recovery

/-!
# DDL statements, one after the other

The statements that change the catalog and the files that a restart reads.  A
statement checks, changes the catalog and appends its record and a `Commit`
record to the log; one that returns an error has changed nothing.  Names come
from the lexer, whose identifiers hold no dot, and a table is kept under
`db.name` for the database that the session was in.

A restart loads the snapshot and redoes the log.  The log is what `read_all`
returns: a crash in the middle of an append leaves some whole records of it
(`kept`), and torn bytes behind them hide everything that is appended later
(`torn`).  Checkpoints are one step, and every append reaches the file.
-/

namespace HenchDB

/-! ## Statements -/

/-- A name as the lexer reads it. -/
abbrev Ident := { s : String // '.' ∉ s.toList }

structure ColumnSpec where
  name : String
  ctype : String
  notNull : Bool
  primaryKey : Bool
  autoIncrement : Bool
  defaultValue : Option Datum
deriving DecidableEq

structure ForeignKeySpec where
  name : Option String
  column : String
  refTable : Ident
  refColumn : String
  onDelete : FkAction
deriving DecidableEq

/-- `Statement`, as far as the catalog goes. -/
inductive DdlStatement where
  | createDatabase (name : Ident) (ifNotExists : Bool)
  | dropDatabase (name : Ident) (ifExists : Bool)
  | useDatabase (name : Ident)
  | createTable (name : Ident) (columns : List ColumnSpec) (foreignKeys : List ForeignKeySpec)
      (ifNotExists : Bool)
  | dropTable (name : Ident) (ifExists : Bool)
  | createIndex (name : String) (table : Ident) (column : String) (ifNotExists : Bool)
  | dropIndex (name : String) (table : Ident) (ifExists : Bool)

/-! ## New tables -/

def ColumnType.parse (s : String) : Except Error ColumnType :=
  let up := s.toList.map Char.toUpper
  if up = "INT".toList ∨ up = "INTEGER".toList then .ok .int
  else if up = "BIGINT".toList ∨ up = "LONG".toList then .ok .bigInt
  else if up = "FLOAT".toList ∨ up = "REAL".toList then .ok .float
  else if up = "DOUBLE".toList then .ok .double
  else if up = "TEXT".toList ∨ up = "STRING".toList then .ok .text
  else if up = "VARCHAR".toList then .ok .varChar
  else if up = "BOOL".toList ∨ up = "BOOLEAN".toList then .ok .bool
  else if up = "DATETIME".toList then .ok .dateTime
  else if up = "TIMESTAMP".toList then .ok .timestamp
  else .error (.parseError s!"unknown type '{String.ofList up}'")

/-- One column of `exec_create_table`. -/
def ColumnSpec.toDef (c : ColumnSpec) : Except Error ColumnDef := do
  let ctype ← ColumnType.parse c.ctype
  if c.autoIncrement ∧ ctype ≠ .int ∧ ctype ≠ .bigInt then
    .error (.invalidSchema "AUTO_INCREMENT requires an INT or BIGINT column")
  else
    .ok
      { name := c.name
        ctype := ctype
        nullable := !c.notNull
        autoIncrement := c.autoIncrement
        defaultValue := c.defaultValue }

/-- The schema that `exec_create_table` makes of the columns. -/
def newSchema (columns : List ColumnSpec) : Except Error Schema := do
  let defs ← columns.mapM ColumnSpec.toDef
  if 1 < columns.countP ColumnSpec.primaryKey then .error .multiplePrimaryKeys
  else
    match columns.findIdx? ColumnSpec.primaryKey with
    | none => .error .missingPrimaryKey
    | some pkIdx =>
      if 1 < columns.countP ColumnSpec.autoIncrement then
        .error (.invalidSchema "only one AUTO_INCREMENT column is supported")
      else if columns.countP ColumnSpec.autoIncrement = 1 ∧
          (defs[pkIdx]?).any ColumnDef.autoIncrement = false then
        .error (.invalidSchema "AUTO_INCREMENT must be the primary key")
      else .ok { columns := defs, pkIdx := pkIdx }

/-- The key of a name that a statement creates or refers to. -/
def qualify (db : Ident) (name : Ident) : String :=
  if name.1.toList.contains '.' then name.1 else db.1 ++ "." ++ name.1

namespace Catalog

/-- The name before the first dot of a key. -/
def databasePart (key : String) : Option String :=
  if '.' ∈ key.toList then some (String.ofList (key.toList.takeWhile (· ≠ '.'))) else none

def resolveTableKey (c : Catalog) (db name : Ident) : String :=
  if name.1.toList.contains '.' then name.1
  else
    let qual := db.1 ++ "." ++ name.1
    if c.tables.contains qual then qual
    else if c.tables.contains name.1 then name.1
    else qual

def table (c : Catalog) (db name : Ident) : Except Fault Table :=
  match c.tables[c.resolveTableKey db name]? with
  | some t => .ok t
  | none => .error (.err (.tableNotFound name.1))

/-- One foreign key of `fk_build_defs`. -/
def fkBuildDef (c : Catalog) (db : Ident) (key : String) (name : Ident) (schema : Schema)
    (fk : ForeignKeySpec) : Except Error ForeignKeyDef :=
  let refKey := qualify db fk.refTable
  let selfRef : Bool := refKey = key || fk.refTable.1 = name.1
  let built : ForeignKeyDef :=
    { name := fk.name.getD s!"fk_{name.1}_{fk.column}_{fk.refTable.1}"
      column := fk.column
      refTable := if selfRef then key else refKey
      refColumn := fk.refColumn
      onDelete := fk.onDelete }
  if schema.indexOf fk.column = none then .error (.columnNotFound fk.column)
  else if selfRef then
    if schema.indexOf fk.refColumn = none then .error (.columnNotFound fk.refColumn) else .ok built
  else
    match c.tables[refKey]? with
    | none => .error (.tableNotFound fk.refTable.1)
    | some parent =>
      if parent.schema.indexOf fk.refColumn = none then .error (.columnNotFound fk.refColumn)
      else .ok built

def fkBuildDefs (c : Catalog) (db : Ident) (key : String) (name : Ident) (schema : Schema)
    (specs : List ForeignKeySpec) : Except Error (List ForeignKeyDef) :=
  specs.mapM (c.fkBuildDef db key name schema)

/-- The table that `exec_create_table` is about to insert. -/
def newTable (c : Catalog) (db name : Ident) (columns : List ColumnSpec)
    (foreignKeys : List ForeignKeySpec) : Except Fault Table := do
  let schema ← (newSchema columns).mapError Fault.err
  let key := qualify db name
  let fks ← (c.fkBuildDefs db key name schema foreignKeys).mapError Fault.err
  (Table.new
    { name := key, schema := schema, indexes := [], foreignKeys := fks, stats := none }).fkEnsureAutoIndexes

/-- The foreign keys that refer to a table, with the tables they are of. -/
def referrers (c : Catalog) (key : String) : List (String × ForeignKeyDef) :=
  c.tables.toList.flatMap fun e =>
    (e.2.info.foreignKeys.filter fun fk => fk.refTable = key).map fun fk => (e.1, fk)

def fkCheckDrop (c : Catalog) (key : String) (name : Ident) : Except Error Unit :=
  match c.referrers key with
  | [] => .ok ()
  | blockers =>
    let texts := blockers.map fun b => s!"'{b.1}' (constraint '{b.2.name}')"
    let list := String.intercalate ", " texts
    .error (.foreignKeyViolation s!"cannot drop table '{name.1}': referenced by {list}")

end Catalog

/-- The foreign key that `fk_check_drop_index` refuses for. -/
def Table.lastIndexOf (t : Table) (name : String) : Option ForeignKeyDef :=
  match t.secondaryIndexes.find? fun d => d.name = name with
  | none => none
  | some d => t.info.foreignKeys.find? fun fk =>
    fk.column = d.column &&
      !t.secondaryIndexes.any fun d' => d'.name ≠ name && d'.column = fk.column

/-! ## Execution -/

/-- What a statement leaves: the catalog, the database of its session, the record
it logs under a transaction id, and its message. -/
structure DdlResult where
  catalog : Catalog
  db : Ident
  logs : Option (Nat → Record)
  message : String

namespace Catalog

/-- Nothing to do. -/
def noop (c : Catalog) (db : Ident) (message : String) : Except Fault DdlResult :=
  .ok { catalog := c, db := db, logs := none, message := message }

/-- `exec_create_database`. -/
def createDatabase (c : Catalog) (db name : Ident) (ifNotExists : Bool) : Except Fault DdlResult :=
  if c.databases.contains name.1 then
    if ifNotExists then c.noop db s!"database '{name.1}' exists"
    else .error (.err (.databaseExists name.1))
  else
    .ok
      { catalog := { c with databases := c.databases.insert name.1 }
        db := db
        logs := some fun txn => .createDatabase txn name.1
        message := s!"database '{name.1}' created" }

/-- `exec_drop_database`. -/
def dropDatabase (c : Catalog) (db name : Ident) (ifExists : Bool) : Except Fault DdlResult :=
  if c.databases.contains name.1 then
    .ok
      { catalog :=
          { databases := c.databases.erase name.1
            tables := c.tables.filter fun k _ => !inDatabase name.1 k }
        db := db
        logs := some fun txn => .dropDatabase txn name.1
        message := s!"database '{name.1}' dropped" }
  else if ifExists then c.noop db s!"database '{name.1}' does not exist"
  else .error (.err (.databaseNotFound name.1))

/-- `exec_use_database`. -/
def useDatabase (c : Catalog) (name : Ident) : Except Fault DdlResult :=
  if c.databases.contains name.1 then c.noop name "Database changed"
  else .error (.err (.databaseNotFound name.1))

/-- `exec_create_table`. -/
def createTable (c : Catalog) (db name : Ident) (columns : List ColumnSpec)
    (foreignKeys : List ForeignKeySpec) (ifNotExists : Bool) : Except Fault DdlResult :=
  let key := qualify db name
  if ifNotExists && c.tables.contains key then c.noop db s!"table '{name.1}' exists"
  else
    match c.newTable db name columns foreignKeys with
    | .error e => .error e
    | .ok t =>
      if c.tables.contains key then .error (.err (.tableExists name.1))
      else
        .ok
          { catalog := { c with tables := c.tables.insert key t }
            db := db
            logs := some fun txn => .createTable txn { t.info with indexes := t.secondaryIndexes }
            message := s!"table '{name.1}' created" }

/-- `exec_drop_table`. -/
def dropTable (c : Catalog) (db name : Ident) (ifExists : Bool) : Except Fault DdlResult :=
  let key := c.resolveTableKey db name
  if c.tables.contains key then
    match c.fkCheckDrop key name with
    | .error e => .error (.err e)
    | .ok _ =>
      .ok
        { catalog := { c with tables := c.tables.erase key }
          db := db
          logs := some fun txn => .dropTable txn key
          message := s!"table '{name.1}' dropped" }
  else if ifExists then c.noop db "DROP TABLE"
  else .error (.err (.tableNotFound name.1))

/-- `exec_create_index`. -/
def createIndex (c : Catalog) (db : Ident) (name : String) (table : Ident) (column : String)
    (ifNotExists : Bool) : Except Fault DdlResult := do
  let t ← c.table db table
  let key := c.resolveTableKey db table
  if ifNotExists && t.hasIndex name then c.noop db s!"index '{name}' exists on '{table.1}'"
  else
    let t' ← t.addIndex name column
    .ok
      { catalog := { c with tables := c.tables.insert key t' }
        db := db
        logs := some fun txn => .createIndex txn key name column
        message := s!"index '{name}' created on '{table.1}'" }

/-- `exec_drop_index`. -/
def dropIndex (c : Catalog) (db : Ident) (name : String) (table : Ident) (ifExists : Bool) :
    Except Fault DdlResult :=
  match c.table db table with
  | .error e => if ifExists then c.noop db "DROP INDEX" else .error e
  | .ok t =>
    let key := c.resolveTableKey db table
    if ifExists && !t.hasIndex name then c.noop db "DROP INDEX"
    else
      match t.lastIndexOf name with
      | some fk =>
        .error (.err (.foreignKeyViolation
          s!"cannot drop index '{name}': foreign key '{fk.name}' needs an index on '{t.info.name}.{fk.column}'"))
      | none =>
        match t.dropIndex name with
        | .error e => .error (.err e)
        | .ok t' =>
          .ok
            { catalog := { c with tables := c.tables.insert key t' }
              db := db
              logs := some fun txn => .dropIndex txn key name
              message := s!"index '{name}' dropped from '{table.1}'" }

/-- A statement of a session that is in the database `db`. -/
def exec (c : Catalog) (db : Ident) : DdlStatement → Except Fault DdlResult
  | .createDatabase name ifNotExists => c.createDatabase db name ifNotExists
  | .dropDatabase name ifExists => c.dropDatabase db name ifExists
  | .useDatabase name => c.useDatabase name
  | .createTable name columns foreignKeys ifNotExists =>
    c.createTable db name columns foreignKeys ifNotExists
  | .dropTable name ifExists => c.dropTable db name ifExists
  | .createIndex name table column ifNotExists => c.createIndex db name table column ifNotExists
  | .dropIndex name table ifExists => c.dropIndex db name table ifExists

end Catalog

/-! ## Restarts -/

namespace Table

def restoreKv (t : Table) (key val : Bytes) : Except Fault Table := do
  let row ← (t.decodeStored val).mapError Fault.err
  let expect ← (t.keyOf row).mapError Fault.err
  if expect ≠ key then .error (.err (.corrupted "snapshot key/row mismatch"))
  else if t.indexes.isEmpty then .ok { t with tree := t.tree.insert key val }
  else
    let pk ← decodeKey key
    let indexes ← t.indexes.mapM fun i => do
      let k ← (encodeSecIndexKey (column row i.colIdx) pk).mapError Fault.err
      return { i with tree := i.tree.insert k }
    .ok { t with tree := t.tree.insert key val, indexes := indexes }

/-- A table as a snapshot has it: its definition and its rows. -/
def restored (t : Table) : Except Fault Table :=
  t.tree.toList.foldlM (fun t e => t.restoreKv e.1 e.2) (Table.new t.tableDef)

end Table

namespace Catalog

def databaseParts (c : Catalog) : List String :=
  c.tables.toList.filterMap fun e => databasePart e.1

/-- What `open` makes of the snapshot; a new directory has none. -/
def load : Option Catalog → Except Fault Catalog
  | none => .ok empty
  | some snap => do
    let c ← snap.mapTables Table.restored
    return { c with
      databases := snap.databaseParts.foldl (fun dbs db => dbs.insert db)
        (snap.databases.insert "default") }

/-- `Database::open` of a snapshot and the records of the log. -/
def reopen (snapshot : Option Catalog) (log : List Record) : Except Fault Catalog := do
  let c ← load snapshot
  let c ← c.applyRecords (redo log).applied.flatten
  let c ← c.mapTables Table.refreshAutoInc
  c.mapTables Table.fkEnsureAutoIndexes

end Catalog

/-! ## The server -/

/-- The catalog, the database of every session, and the files. -/
structure DdlServer where
  catalog : Catalog
  sessions : Nat → Ident
  nextTxn : Nat
  snapshot : Option Catalog
  /-- The records that `read_all` returns. -/
  log : List Record
  torn : Bool

/-- What happens to a server. -/
inductive DdlEvent where
  /-- A new session. -/
  | connect (r : Nat)
  | execute (r : Nat) (stmt : DdlStatement)
  | checkpoint
  | restart
  /-- A crash that leaves `kept` whole records of what a statement appends, and
  perhaps torn bytes. -/
  | crash (r : Nat) (stmt : DdlStatement) (kept : Nat) (torn : Bool)

namespace DdlServer

/-- `default`, where a session starts. -/
def defaultDb : Ident := ⟨"default", by decide⟩

/-- A new directory, opened. -/
def start : DdlServer where
  catalog := Catalog.empty
  sessions := fun _ => defaultDb
  nextTxn := 1
  snapshot := none
  log := []
  torn := false

/-- Records at the end of the log; behind torn bytes nothing is read. -/
def append (s : DdlServer) (rs : List Record) : DdlServer :=
  if s.torn then s else { s with log := s.log ++ rs }

/-- The records of one statement. -/
def batch (logs : Nat → Record) (txn : Nat) : List Record := [logs txn, .commit txn none]

def execute (s : DdlServer) (r : Nat) (stmt : DdlStatement) : DdlServer :=
  match s.catalog.exec (s.sessions r) stmt with
  | .error _ => s
  | .ok d =>
    let s := { s with catalog := d.catalog, sessions := Function.update s.sessions r d.db }
    match d.logs with
    | none => s
    | some logs => { s.append (batch logs s.nextTxn) with nextTxn := s.nextTxn + 1 }

/-- `Database::open`; every session is new. -/
def restart (s : DdlServer) : Option DdlServer :=
  match Catalog.reopen s.snapshot s.log with
  | .error _ => none
  | .ok c => some { s with catalog := c, sessions := fun _ => defaultDb, nextTxn := 1 }

def crash (s : DdlServer) (r : Nat) (stmt : DdlStatement) (kept : Nat) (torn : Bool) :
    Option DdlServer :=
  match s.catalog.exec (s.sessions r) stmt with
  | .ok { logs := some logs, .. } =>
    let s := s.append ((batch logs s.nextTxn).take kept)
    restart { s with torn := s.torn || torn }
  | _ => none

def step (s : DdlServer) : DdlEvent → Option DdlServer
  | .connect r => some { s with sessions := Function.update s.sessions r defaultDb }
  | .execute r stmt => some (s.execute r stmt)
  | .checkpoint => some { s with snapshot := some s.catalog, log := [], torn := false }
  | .restart => s.restart
  | .crash r stmt kept torn => s.crash r stmt kept torn

end DdlServer

end HenchDB
