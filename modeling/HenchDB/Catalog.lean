import HenchDB.Table

/-!
# The catalog and its redo

A record describes one change of the catalog or of one row.  Redo applies the
records of a transaction in their order (`applyRecords`); a record about a
table that does not exist is skipped, a table that exists is not created again,
and an index that cannot be added or dropped is left as it is.

Records name their tables, and a record about one table leaves every other
table alone.
-/

namespace HenchDB

open Std (ExtTreeMap ExtTreeSet)

inductive Record where
  | put (txn : Nat) (table : String) (key row : Bytes)
  | delete (txn : Nat) (table : String) (key : Bytes)
  | commit (txn : Nat) (ts : Option Nat)
  | createTable (txn : Nat) (info : TableDef)
  | dropTable (txn : Nat) (name : String)
  | createIndex (txn : Nat) (table name column : String)
  | dropIndex (txn : Nat) (table name : String)
  | createDatabase (txn : Nat) (name : String)
  | dropDatabase (txn : Nat) (name : String)

namespace Record

def txnOf : Record → Nat
  | .put txn _ _ _ => txn
  | .delete txn _ _ => txn
  | .commit txn _ => txn
  | .createTable txn _ => txn
  | .dropTable txn _ => txn
  | .createIndex txn _ _ _ => txn
  | .dropIndex txn _ _ => txn
  | .createDatabase txn _ => txn
  | .dropDatabase txn _ => txn

def isCommit : Record → Bool
  | .commit _ _ => true
  | _ => false

end Record

/-- The databases and the tables, by their qualified names. -/
structure Catalog where
  databases : ExtTreeSet String
  tables : ExtTreeMap String Table

namespace Catalog

def empty : Catalog where
  databases := (∅ : ExtTreeSet String).insert "default"
  tables := ∅

/-- The qualified names of a database begin so. -/
def dbPrefix (name : String) : List Char := name.toList ++ ['.']

def inDatabase (db table : String) : Bool := (dbPrefix db).isPrefixOf table.toList

def onTable (c : Catalog) (name : String) (f : Table → Except Fault Table) :
    Except Fault Catalog := do
  match c.tables[name]? with
  | none => return c
  | some t => return { c with tables := c.tables.insert name (← f t) }

/-- Keep a table as it is when an operation returns an error. -/
def ignoreError (t : Table) : Except Fault Table → Except Fault Table
  | .ok t' => .ok t'
  | .error (.err _) => .ok t
  | .error .panic => .error .panic

/-- One record of `apply_records`. -/
def applyRecord (c : Catalog) : Record → Except Fault Catalog
  | .createDatabase _ name => .ok { c with databases := c.databases.insert name }
  | .dropDatabase _ name =>
    .ok
      { databases := c.databases.erase name
        tables := c.tables.filter fun k _ => !inDatabase name k }
  | .createTable _ info =>
    .ok
      (if c.tables.contains info.name then c
      else { c with tables := c.tables.insert info.name (Table.new info) })
  | .dropTable _ name => .ok { c with tables := c.tables.erase name }
  | .put _ table key row => c.onTable table fun t => t.applyRaw key row
  | .delete _ table key => c.onTable table fun t => t.removeRaw key
  | .createIndex _ table name column =>
    c.onTable table fun t => ignoreError t (t.addIndex name column)
  | .dropIndex _ table name =>
    c.onTable table fun t => ignoreError t ((t.dropIndex name).mapError Fault.err)
  | .commit _ _ => .ok c

def applyRecords (c : Catalog) (batch : List Record) : Except Fault Catalog :=
  batch.foldlM applyRecord c

theorem applyRecords_append {c : Catalog} {batch batch' : List Record} :
    c.applyRecords (batch ++ batch') = c.applyRecords batch >>= fun c' => c'.applyRecords batch' :=
  List.foldlM_append

end Catalog

end HenchDB
