import HenchDB.Sql.Expr

/-!
# Names in a scope

A scope is the tables of a query in some order; its rows are the rows of the
tables one after the other.  A name is `column`, which must occur in one table
only, or `table.column`, where the table may leave out its database.

`locate` finds the table and the column, `resolveScope` the position in the
joined row.
-/

namespace HenchDB

abbrev Row := List Datum

def TableDef.width (t : TableDef) : Nat := t.schema.columns.length

/-- The columns of a joined row. -/
def width (tables : List TableDef) : Nat := (tables.map TableDef.width).sum

/-- `split_once('.')`. -/
def splitOnce (name : String) : Option (String × String) :=
  match name.toList.span (· ≠ '.') with
  | (t, _ :: c) => some (String.ofList t, String.ofList c)
  | (_, []) => none

def simpleName (name : String) : String := String.ofList ((name.toList.splitOn '.').getLastD [])

def TableDef.called (t : TableDef) (name : String) : Bool :=
  t.name = name || simpleName t.name = name

/-- The tables that have the column, each with its position there. -/
def holders (tables : List TableDef) (name : String) : List (Nat × Nat) :=
  tables.zipIdx.filterMap fun t => (t.1.schema.indexOf name).map fun i => (t.2, i)

def locate (tables : List TableDef) (name : String) : Except Error (Nat × Nat) :=
  match splitOnce name with
  | some (t, c) =>
    match tables.zipIdx.find? fun table => table.1.called t with
    | none => .error (.tableNotFound t)
    | some (table, ord) =>
      match table.schema.indexOf c with
      | none => .error (.columnNotFound name)
      | some i => .ok (ord, i)
  | none =>
    match holders tables name with
    | [] => .error (.columnNotFound name)
    | [hit] => .ok hit
    | _ => .error (.notSupported s!"ambiguous column '{name}'")

def resolveScope (tables : List TableDef) (name : String) : Except Error Nat := do
  let (ord, i) ← locate tables name
  return width (tables.take ord) + i

def evalScoped (fmt : Printing) (expr : Expr) (tables : List TableDef) (row : Row) :
    Except Error Bool :=
  evalWith fmt (fun name => do return row.getD (← resolveScope tables name) .null) expr

end HenchDB
