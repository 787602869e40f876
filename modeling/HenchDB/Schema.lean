import HenchDB.Types

/-!
# Schemas and the row codec

The definition of a table as the catalog keeps it, and the encoding of its
rows: the datums of the columns one after the other.
-/

namespace HenchDB

open Codec
open Std (ExtTreeMap)

/-- The types of SQL that a column is declared with. -/
inductive ColumnType where
  | int
  | bigInt
  | float
  | double
  | text
  | varChar
  | bool
  | dateTime
  | timestamp
deriving DecidableEq, Repr

def ColumnType.name : ColumnType → String
  | .int => "INT"
  | .bigInt => "BIGINT"
  | .float => "FLOAT"
  | .double => "DOUBLE"
  | .text => "TEXT"
  | .varChar => "VARCHAR"
  | .bool => "BOOL"
  | .dateTime => "DATETIME"
  | .timestamp => "TIMESTAMP"

structure ColumnDef where
  name : String
  ctype : ColumnType
  nullable : Bool
  autoIncrement : Bool
  defaultValue : Option Datum
deriving DecidableEq, Repr

structure Schema where
  columns : List ColumnDef
  /-- Position of the primary key column. -/
  pkIdx : Nat
deriving DecidableEq, Repr

/-- The first column of the name. -/
def Schema.indexOf (schema : Schema) (name : String) : Option Nat :=
  schema.columns.findIdx? fun c => c.name = name

/-- A secondary index, by the name of its column. -/
structure IndexDef where
  name : String
  column : String
deriving DecidableEq, Repr

/-- What the delete of a parent does to its children. -/
inductive FkAction where
  | restrict
  | cascade
  | setNull
deriving DecidableEq, Repr

/-- A foreign key, by the names of its column and of the parent. -/
structure ForeignKeyDef where
  name : String
  column : String
  refTable : String
  refColumn : String
  onDelete : FkAction
deriving DecidableEq, Repr

/-- The statistics of a column, as the planner reads them. -/
structure ColumnStats where
  nullCount : Nat
  distinctCount : Nat
  min : Option Datum
  max : Option Datum
  mcv : List (Datum × Nat)
  total : Nat
deriving DecidableEq, Repr

/-- What `ANALYZE` has counted. -/
structure TableStats where
  rowCount : Nat
  columns : ExtTreeMap String ColumnStats
  analyzedAt : Nat

/-- A table without its rows, as a `CreateTable` record holds it. -/
structure TableDef where
  name : String
  schema : Schema
  indexes : List IndexDef
  foreignKeys : List ForeignKeyDef
  stats : Option TableStats

/-! ## Rows -/

/-- `MAX_VALUE_LEN`: a longer row is refused at the commit. -/
def maxValueLen : Nat := 64 * 1024 * 1024

/-- The values of a row, one behind the other. -/
def encodeRow (row : List Datum) : Bytes := row.flatMap Datum.encode

def decodeRow (schema : Schema) (buf : Bytes) : Except Error (List Datum) :=
  match (takeMany Datum.decode schema.columns.length).run buf with
  | .error e => .error e
  | .ok (row, rest) =>
    if rest.isEmpty then .ok row else .error (.corrupted "row trailing bytes")

/-- A row of the width of its schema is read back. -/
theorem decodeRow_encodeRow {schema : Schema} {row : List Datum}
    (hlen : row.length = schema.columns.length) (hsized : ∀ d ∈ row, d.Sized) :
    decodeRow schema (encodeRow row) = .ok row := by
  have hreads : Reads (takeMany Datum.decode row.length) (encodeRow row) row :=
    reads_takeMany fun d hd => Datum.reads_decode (hsized d hd)
  have hrun := hreads []
  rw [List.append_nil, hlen] at hrun
  rw [decodeRow, hrun]
  rfl

end HenchDB
