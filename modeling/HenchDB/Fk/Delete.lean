import HenchDB.Query.Visible
import HenchDB.Session.Statement

/-!
# `DELETE` under foreign keys

A `DELETE` stages the rows that its `WHERE` clause selects and then runs the
actions of the foreign keys (`fkCheckDeleted`).  For every deleted row the tables
that reference its table are listed, and the rows that reference its key are
looked for: in the overlay of what is staged, and then by the secondary index of
the column, which knows the stored rows, or in a scan of what the session sees
(`fkFindChildRefs`).  They restrict the delete, or are deleted themselves with
everything below them, or lose the reference.

The maps of the source are listed in an order that differs from run to run.  The
order of the tables is one and the same during a statement, an overlay is a map
of its own every time (`Orders`).

The recursion runs on fuel; running out of it is an error of its own (`Halt`).
-/

namespace HenchDB.Fk

open Std (ExtTreeMap ExtTreeSet)
open Session (Staged StagedWrite)
open Query (scanSecondary)

/-! ## What a statement reads -/

/-- The tables with their trees and indexes, and the decoded rows that the session
sees. -/
structure Db where
  tables : ExtTreeMap String Table
  visible : Session.Rows

/-- The orders in which a run lists its maps. -/
structure Orders where
  tables : List String → List String
  tables_perm : ∀ l, (tables l).Perm l
  staged : List (TKey × StagedWrite) → List (TKey × StagedWrite)
  staged_perm : ∀ l, (staged l).Perm l
  /-- The overlay that is the `n`-th to be listed. -/
  overlay : Nat → List (Bytes × Session.Row) → List (Bytes × Session.Row)
  overlay_perm : ∀ n l, (overlay n l).Perm l

/-- How a run ends without a result. -/
inductive Halt where
  | fault (f : Fault)
  | fuel
deriving DecidableEq

def fail {α : Type} (e : Error) : Except Halt α := .error (.fault (.err e))

def coerceEq (a b : Datum) : Bool := a.sameValue b

def fkCandidates (val : Datum) : List Datum :=
  val ::
    match val with
    | .int v => [.float (F64.ofInt v)]
    | .float v => if F64.isIntegral v && F64.inRange v then [.int (F64.toInt v)] else []
    | .dateTime m => [.text (formatDatetimeMicros m)]
    | .text s => ((parseDatetimeStr s).map Datum.dateTime).toList
    | _ => []

def fkChildrenOf (o : Orders) (db : Db) (parentKey : String) :
    List (String × Table × ForeignKeyDef) :=
  (o.tables db.tables.keys).flatMap fun tkey =>
    match db.tables[tkey]? with
    | none => []
    | some t => (t.info.foreignKeys.filter fun fk => fk.refTable = parentKey).map fun fk => (tkey, t, fk)

def fkIsReferenced (db : Db) (tableKey : String) : Bool :=
  db.tables.toList.any fun e => e.2.info.foreignKeys.any fun fk => fk.refTable = tableKey

/-! ## The rows that reference a key -/

def overlayPuts (table : String) (overlay : Staged) : List (Bytes × Session.Row) :=
  (overlay.toList.filter fun e => e.1.1 = table).filterMap fun e => e.2.row.map fun row => (e.1.2, row)

def visibleOf (db : Db) (table : String) : List Session.Row :=
  (db.visible.toList.filter fun e => e.1.1 = table).map Prod.snd

/-- The row of a primary key that an index lists. -/
def seekRef (db : Db) (child : Table) (col : Nat) (val : Datum) (overlay : Staged) (pk : Datum) :
    Except Fault (Option (Bytes × Session.Row)) := do
  let key ← (encodeKey pk).mapError Fault.err
  if overlay.contains (child.info.name, key) then return none
  else return (db.visible[(child.info.name, key)]?.filter fun row =>
    coerceEq (Table.column row col) val).map fun row => (key, row)

/-- The loop over the candidates of an indexed column. -/
def indexedRefs (db : Db) (child : Table) (col : Nat) (val : Datum) (overlay : Staged) :
    Except Fault (List (Bytes × Session.Row)) := do
  let found ← (fkCandidates val).mapM fun cand => do
    let pks ← scanSecondary child col (some (cand, true)) (some (cand, true))
    (pks.getD []).mapM (seekRef db child col val overlay)
  return found.flatten.filterMap id

def scanRef (child : Table) (col : Nat) (val : Datum) (overlay : Staged) (row : Session.Row) :
    Except Fault (Option (Bytes × Session.Row)) := do
  let key ← (encodeKey (Table.column row child.schema.pkIdx)).mapError Fault.err
  if overlay.contains (child.info.name, key) then return none
  else return if coerceEq (Table.column row col) val then some (key, row) else none

/-- The scan of a column without an index. -/
def scannedRefs (db : Db) (child : Table) (col : Nat) (val : Datum) (overlay : Staged) :
    Except Fault (List (Bytes × Session.Row)) := do
  let found ← (visibleOf db child.info.name).mapM (scanRef child col val overlay)
  return found.filterMap id

def indexed (child : Table) (col : Nat) : Bool :=
  child.indexes.any fun i => child.schema.indexOf i.info.column = some col

/-- `fk_find_child_refs`; pending writes lie over the staged ones. -/
def fkFindChildRefs (o : Orders) (n : Nat) (db : Db) (child : Table) (col : Nat) (val : Datum)
    (overlay : Staged) : Except Fault (List (Bytes × Session.Row)) := do
  let puts := (o.overlay n (overlayPuts child.info.name overlay)).filter fun e =>
    coerceEq (Table.column e.2 col) val
  let found ← if indexed child col then indexedRefs db child col val overlay
    else scannedRefs db child col val overlay
  return puts ++ found

/-! ## The actions -/

/-- What a run has gathered: `pending`, `visited` and how many overlays it has
listed. -/
structure Walk where
  pending : Staged
  visited : ExtTreeSet TKey
  listed : Nat

namespace Walk

/-- Nothing yet. -/
def empty : Walk := ⟨∅, ∅, 0⟩

/-- Mark a row as visited and stage what becomes of it. -/
def put (w : Walk) (k : TKey) (row : Option Session.Row) : Walk :=
  { w with pending := w.pending.insert k { row, isInsert := false }, visited := w.visited.insert k }

end Walk

section
variable (delete : String → Datum → Walk → Except Halt Walk)

def cascadeRow (childKey : String) (child : Table) (w : Walk) (r : Bytes × Session.Row) : Except Halt Walk :=
  if (childKey, r.1) ∈ w.visited then .ok w
  else delete childKey (Table.column r.2 child.schema.pkIdx) (w.put (childKey, r.1) none)

def nullRow (childKey : String) (child : Table) (col : Nat) (w : Walk) (r : Bytes × Session.Row) :
    Except Halt Walk :=
  if (childKey, r.1) ∈ w.visited then .ok w
  else
    match child.schema.validateRow (r.2.set col .null) with
    | .error e => fail e
    | .ok row => .ok (w.put (childKey, r.1) (some row))

/-- The column may be `NULL`. -/
def nullable (child : Table) (col : Nat) : Bool :=
  (child.schema.columns[col]?.map ColumnDef.nullable).getD false

/-- One constraint in the loop of `fk_on_parent_delete`. -/
def childAction (o : Orders) (db : Db) (staged : Staged) (parentKey : String) (parentPk : Datum)
    (w : Walk) (c : String × Table × ForeignKeyDef) : Except Halt Walk :=
  match c.2.1.schema.indexOf c.2.2.column with
  | none => fail (.columnNotFound c.2.2.column)
  | some col => do
    let refs ← (fkFindChildRefs o w.listed db c.2.1 col parentPk (staged.extend w.pending)).mapError
      Halt.fault
    let w := { w with listed := w.listed + 1 }
    if refs.isEmpty then return w
    else
      match c.2.2.onDelete with
      | .restrict => fail (.foreignKeyViolation
          (s!"cannot delete from '{parentKey}': {refs.length} row(s) in '{c.1}' reference it " ++
            s!"(constraint '{c.2.2.name}')"))
      | .cascade => refs.foldlM (cascadeRow delete c.1 c.2.1) w
      | .setNull =>
        if nullable c.2.1 col then refs.foldlM (nullRow c.1 c.2.1 col) w
        else fail (.foreignKeyViolation
          (s!"cannot SET NULL on '{c.1}.{c.2.2.column}': column is NOT NULL " ++
            s!"(constraint '{c.2.2.name}')"))

end

def fkOnParentDelete (o : Orders) (db : Db) (staged : Staged) :
    Nat → String → Datum → Walk → Except Halt Walk
  | 0, _, _, _ => .error .fuel
  | fuel + 1, parentKey, parentPk, w =>
    (fkChildrenOf o db parentKey).foldlM
      (childAction (fkOnParentDelete o db staged fuel) o db staged parentKey parentPk) w

/-- One staged row in the loop of `fk_check_deleted`. -/
def checkStaged (o : Orders) (db : Db) (fuel : Nat) (table : Table) (oldByKey : ExtTreeMap Bytes Session.Row)
    (staged : Staged) (w : Walk) (e : TKey × StagedWrite) : Except Halt Walk :=
  match e.2.row, oldByKey[e.1.2]? with
  | none, some old =>
    fkOnParentDelete o db staged fuel e.1.1 (Table.column old table.schema.pkIdx) w
  | _, _ => .ok w

/-- A selected row under its key; a row without a key is a panic. -/
def oldRow (table : Table) (m : ExtTreeMap Bytes Session.Row) (row : Session.Row) :
    Except Halt (ExtTreeMap Bytes Session.Row) :=
  match encodeKey (Table.column row table.schema.pkIdx) with
  | .ok key => .ok (m.insert key row)
  | .error _ => .error (.fault .panic)

def fkCheckDeleted (o : Orders) (db : Db) (fuel : Nat) (table : Table) (rows : List Session.Row)
    (staged : Staged) : Except Halt (Nat × Staged) :=
  if fkIsReferenced db table.info.name then do
    let oldByKey ← rows.foldlM (oldRow table) ∅
    let w ← (o.staged staged.toList).foldlM (checkStaged o db fuel table oldByKey staged) .empty
    return (staged.size, staged.extend w.pending)
  else .ok (staged.size, staged)

def stageRow (table : Table) (staged : Staged) (row : Session.Row) : Except Halt Staged :=
  match encodeKey (Table.column row table.schema.pkIdx) with
  | .ok key => .ok (staged.insert (table.info.name, key) { row := none, isInsert := false })
  | .error e => fail e

/-- `exec_delete` up to its commit: the reported count and what it stages. -/
def execDelete (o : Orders) (db : Db) (fuel : Nat) (table : Table) (rows : List Session.Row) :
    Except Halt (Nat × Staged) := do
  let staged ← rows.foldlM (stageRow table) ∅
  fkCheckDeleted o db fuel table rows staged

end HenchDB.Fk
