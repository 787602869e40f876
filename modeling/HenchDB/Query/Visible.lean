import HenchDB.Mvcc.Pipeline
import HenchDB.Query.Gate

/-!
# The rows a session sees

`visibleRows` reads one table for a session.  It takes the rows along an access
path, puts what the version buffer knows of the session's snapshot in their
place, lays the staged writes of its transaction over them and filters what is
left.  Which access path is cheapest is a parameter.

The version buffer is asked by the name of the table alone.
-/

namespace HenchDB.Query

open Mvcc (ReadError)

/-! ## Access paths -/

/-- A bound of a range, with whether it belongs to the range. -/
abbrev Bound := Option (Datum × Bool)

inductive AccessPath where
  | point (lit : Datum)
  | pkIn (lits : List Datum)
  | range (lo hi : Bound)
  | secondaryIndex (colIdx : Nat) (lo hi : Bound)
  | secIn (colIdx : Nat) (values : List Datum)
  | fullScan

/-- The path reads a range or all of the primary tree. -/
def AccessPath.isScan : AccessPath → Bool
  | .range _ _ | .fullScan => true
  | .point _ | .pkIn _ | .secondaryIndex _ _ _ | .secIn _ _ => false

/-- The text bytes of a secondary key and what follows them. -/
def unescapeText : Bytes → Except Error (Bytes × Bytes)
  | [] => .error (.corrupted "unterminated text in secondary key")
  | b :: rest =>
    if b = 0 then
      match rest with
      | [] => .error (.corrupted "truncated text terminator in secondary key")
      | c :: rest =>
        if c = 0 then .ok ([], rest)
        else if c = 0xFF then (unescapeText rest).map fun r => (0 :: r.1, r.2)
        else .error (.corrupted "invalid text escape in secondary key")
    else (unescapeText rest).map fun r => (b :: r.1, r.2)

/-- The eight bytes behind the tag of a secondary key. -/
def secWord (what : String) (rest : Bytes) : Except Error (Bytes × Bytes) :=
  if rest.length < 8 then .error (.corrupted s!"truncated {what} secondary key")
  else .ok (rest.take 8, rest.drop 8)

/-- The column value of a secondary key and the primary key behind it. -/
def splitSecKey : Bytes → Except Error (Datum × Bytes)
  | [] => .error (.corrupted "empty secondary index key")
  | tag :: rest =>
    match tag with
    | 0 => .ok (.null, rest)
    | 1 => (secWord "int" rest).map fun r => (.int (ofKeyInt r.1), r.2)
    | 2 => (secWord "float" rest).map fun r =>
      (.float (F64.ofOrdered (UInt64.ofNat (beValue r.1))), r.2)
    | 3 =>
      match unescapeText rest with
      | .error e => .error e
      | .ok (text, rest) =>
        match fromUtf8 text with
        | some v => .ok (.text v, rest)
        | none => .error (.corrupted "invalid utf8 in secondary key")
    | 4 =>
      match rest with
      | b :: rest => .ok (.bool (b ≠ 0), rest)
      | [] => .error (.corrupted "truncated bool secondary key")
    | 5 => (secWord "datetime" rest).map fun r => (.dateTime (ofKeyInt r.1), r.2)
    | t => .error (.corrupted s!"unknown secondary key tag {t.toNat}")

def decodeSecIndexKey (key : Bytes) : Except Fault (Datum × Datum) := do
  let (sec, rest) ← (splitSecKey key).mapError Fault.err
  return (sec, ← decodeKey rest)

/-- The test of `BTree::range`. -/
def keyWithin (lo : Option Bytes) (loIncl : Bool) (hi : Option Bytes) (hiIncl : Bool)
    (k : Bytes) : Bool :=
  (match lo with
    | none => true
    | some l => if loIncl then (compare l k).isLE else (compare l k).isLT) &&
  match hi with
  | none => true
  | some h => if hiIncl then (compare k h).isLE else (compare k h).isLT

def scanRange (t : Table) (lo hi : Bound) : Except Fault (List (Datum × Row)) := do
  let loKey ← lo.mapM fun b => (encodeKey b.1).mapError Fault.err
  let hiKey ← hi.mapM fun b => (encodeKey b.1).mapError Fault.err
  let within := keyWithin loKey ((lo.map Prod.snd).getD true) hiKey ((hi.map Prod.snd).getD true)
  (t.tree.toList.filter fun e => within e.1).mapM fun e => do
    let pk ← decodeKey e.1
    let row ← (t.decodeStored e.2).mapError Fault.err
    return (pk, row)

def belowLo (lo : Bound) (sec : Datum) : Bool :=
  match lo with
  | none => false
  | some (v, incl) => if incl then (sec.cmp v).isLT else (sec.cmp v).isLE

def aboveHi (hi : Bound) (sec : Datum) : Bool :=
  match hi with
  | none => false
  | some (v, incl) => if incl then (sec.cmp v).isGT else (sec.cmp v).isGE

/-- The loop of `scan_secondary`: it passes over the entries below the range and
stops at the first one above. -/
def secondaryPks (lo hi : Bound) : List Bytes → Except Fault (List Datum)
  | [] => .ok []
  | k :: ks => do
    let (sec, pk) ← decodeSecIndexKey k
    if belowLo lo sec then secondaryPks lo hi ks
    else if aboveHi hi sec then return []
    else return pk :: (← secondaryPks lo hi ks)

def scanSecondary (t : Table) (colIdx : Nat) (lo hi : Bound) : Except Fault (Option (List Datum)) :=
  match t.indexes.find? fun i => i.colIdx = colIdx with
  | none => .ok none
  | some idx =>
    let lower := lo.map fun b => encodeSecKeyPrefix b.1
    (secondaryPks lo hi (idx.tree.toList.filter (keyWithin lower true none true))).map some

/-! ## Snapshots and staged writes -/

/-- What a failed read of the version buffer returns. -/
def readFault : ReadError Error → Fault
  | .snapshotTooOld => .err (.executionError "snapshot exceeded maximum configured age limit")
  | .historyMissing table => .err (.executionError
      s!"snapshot isolation violation: version history missing for table '{table}'")
  | .decode e => .err e

/-- `snapshot_lookup`; the age of a snapshot is not limited here. -/
def lookupVersion (db : Database) (session : Session) (t : Table) (key : Bytes)
    (current : Option Row) : Except Fault (Option Row) :=
  (db.versions.snapshotLookup session.snapshot false (t.info.name, key) current).mapError readFault

def visibleRow (db : Database) (session : Session) (t : Table) (key : Bytes) :
    Except Fault (Option Row) :=
  match session.staged.bind fun staged => staged.lookup (t.info.name, key) with
  | some row => .ok row
  | none => do
    let current ← t.tree[key]?.mapM fun raw => (t.decodeStored raw).mapError Fault.err
    lookupVersion db session t key current

def pointRow (db : Database) (session : Session) (t : Table) (pk : Datum) :
    Except Fault (Option (Bytes × Row)) := do
  let key ← (encodeKey pk).mapError Fault.err
  let row ← visibleRow db session t key
  return row.map fun row => (key, row)

def pointRows (db : Database) (session : Session) (t : Table) (pks : List Datum) :
    Except Fault (List (Bytes × Row)) := do
  return (← pks.mapM (pointRow db session t)).filterMap id

/-- One primary key of a multi-point seek; a key that was seen is passed over. -/
def seekPk (db : Database) (session : Session) (t : Table)
    (found : List Bytes × List (Bytes × Row)) (pk : Datum) :
    Except Fault (List Bytes × List (Bytes × Row)) := do
  let key ← (encodeKey pk).mapError Fault.err
  if found.1.contains key then return found
  else
    let row ← visibleRow db session t key
    return (key :: found.1, found.2 ++ (row.map fun row => (key, row)).toList)

def seekValue (db : Database) (session : Session) (t : Table) (colIdx : Nat)
    (found : List Bytes × List (Bytes × Row)) (v : Datum) :
    Except Fault (List Bytes × List (Bytes × Row)) := do
  let pks ← scanSecondary t colIdx (some (v, true)) (some (v, true))
  (pks.getD []).foldlM (seekPk db session t) found

def pathRows (db : Database) (session : Session) (t : Table) :
    AccessPath → Except Fault (List (Bytes × Row))
  | .point lit => pointRows db session t [lit]
  | .pkIn lits => pointRows db session t lits
  | .range lo hi => do
    let rows ← scanRange t lo hi
    rows.mapM fun r => do
      let key ← (t.keyOf r.2).mapError Fault.err
      return (key, r.2)
  | .secondaryIndex colIdx lo hi => do
    let pks ← scanSecondary t colIdx lo hi
    pointRows db session t (pks.getD [])
  | .secIn colIdx values => do
    let found ← values.foldlM (seekValue db session t colIdx) ([], [])
    return found.2
  | .fullScan => t.tree.toList.mapM fun e => do
    let row ← (t.decodeStored e.2).mapError Fault.err
    return (e.1, row)

/-- The rows of a scan as the snapshot has them, with the rows that the tree has
lost since. -/
def substituteSnapshot (db : Database) (session : Session) (t : Table)
    (rows : List (Bytes × Row)) : Except Fault (List (Bytes × Row)) := do
  let found ← rows.mapM fun r => do return (r.1, ← lookupVersion db session t r.1 (some r.2))
  let kept := found.filterMap fun r => r.2.map fun row => (r.1, row)
  let extra ← (db.versions.snapshotScanExtra session.snapshot false t.info.name
    (kept.map Prod.fst)).mapError readFault
  return Mvcc.Engine.mergeExtra kept extra

def replaceRow (key : Bytes) (row : Row) : List (Bytes × Row) → Option (List (Bytes × Row))
  | [] => none
  | (k, r) :: rest =>
    if k = key then some ((k, row) :: rest) else (replaceRow key row rest).map ((k, r) :: ·)

def overlayWrite (rows : List (Bytes × Row)) (key : Bytes) : Option Row → List (Bytes × Row)
  | some row =>
    (replaceRow key row rows).getD
      ((rows ++ [(key, row)]).mergeSort fun a b => a.1 ≤ b.1)
  | none => rows.filter fun r => r.1 ≠ key

def overlayStaged (session : Session) (t : Table) (rows : List (Bytes × Row)) :
    List (Bytes × Row) :=
  match session.staged with
  | none => rows
  | some staged =>
    (staged.filter fun w => w.1.1 = t.info.name).foldl
      (fun rows w => overlayWrite rows w.1.2 w.2) rows

/-! ## Rows outside -/

/-- `OuterFrame`: a row of an enclosing query and the tables it is of. -/
structure OuterFrame where
  tables : List TableDef
  row : Row

/-- `resolve_frame`; the innermost frame stands first. -/
def resolveFrame (name : String) : List OuterFrame → Except Error Datum
  | [] => .error (.columnNotFound name)
  | frame :: outer =>
    match HenchDB.resolveScope frame.tables name with
    | .ok pos => .ok (frame.row.getD pos .null)
    | .error (.columnNotFound _) | .error (.tableNotFound _) => resolveFrame name outer
    | .error e => .error e

section
variable (fmt : Printing) (accessPath : Table → Option Expr → Except Error AccessPath)

/-- A row passes the predicate; a column that is unknown drops the row. -/
def keepsRow (outer : List OuterFrame) (schema : Schema) (sel : Expr) (r : Row) :
    Except Error Bool :=
  let resolve (name : String) : Except Error Datum :=
    match schema.indexOf name with
    | some i => .ok (r.getD i .null)
    | none => resolveFrame name outer
  match evalWith fmt resolve sel with
  | .error (.columnNotFound _) => .ok false
  | res => res

def keptRows (test : Row → Except Error Bool) : List Row → Except Error (List Row)
  | [] => .ok []
  | r :: rows => do
    if ← test r then return r :: (← keptRows test rows) else keptRows test rows

def visibleRows (db : Database) (session : Session) (outer : List OuterFrame) (t : Table)
    (selection : Option Expr) : Except Fault (List Row) := do
  let path ← (accessPath t selection).mapError Fault.err
  let rows ← pathRows db session t path
  let rows ← if path.isScan && session.snapshot.isSome then substituteSnapshot db session t rows
    else pure rows
  let rows := (overlayStaged session t rows).map Prod.snd
  match selection with
  | none => return rows
  | some sel => (keptRows (keepsRow fmt outer t.schema sel) rows).mapError Fault.err

end

end HenchDB.Query
