import HenchDB.Lib.Outcome
import HenchDB.Lib.Overlay
import HenchDB.Store
import HenchDB.Validate

/-!
# Statements over staged rows

A statement reads the rows its session sees and stages whole rows: the rows of
the trees or of a snapshot of them, with the staged writes of the session laid
over (`view`).  Nothing is written before the commit.  `INSERT` stages its rows
with `is_insert`, `UPDATE` and `DELETE` stage theirs without; staging a row
again replaces the write.

A `WHERE` clause is a predicate on the row that may depend on all rows in view,
which is what subqueries need, and a query is any function of the rows in view.
The point path of `UPDATE` takes the key from the `WHERE` clause and stores the
new row under it.  The checks of foreign keys and the rows that their actions
change are a function of the rows in view as well.  Rows are kept decoded;
`encode_row` and `decode_stored` are inverse to one another.
-/

namespace HenchDB.Session

open Std (ExtTreeMap)
open Overlay (overlay)

abbrev Row := List Datum

abbrev Rows := ExtTreeMap TKey Row

/-- `StagedWrite`; no row deletes. -/
structure StagedWrite where
  row : Option Row
  isInsert : Bool
deriving DecidableEq

abbrev Staged := ExtTreeMap TKey StagedWrite

namespace Staged

def writes (staged : Staged) : ExtTreeMap TKey (Option Row) := staged.map fun _ w => w.row

def extend (staged more : Staged) : Staged := overlay staged (more.map fun _ w => some w)

/-- The keys staged with `is_insert`. -/
def inserted (staged : Staged) : List TKey :=
  (staged.toList.filter fun e => e.2.isInsert).map Prod.fst

end Staged

/-- The rows with a write set laid over them: what a session sees, and what an
install leaves. -/
def view (rows : Rows) (staged : Staged) : Rows := overlay rows staged.writes

section View

variable {rows : Rows} {staged more : Staged} {k : TKey}

theorem getElem?_view (rows : Rows) (staged : Staged) (k : TKey) :
    (view rows staged)[k]? = (staged[k]?.map StagedWrite.row).getD rows[k]? := by
  rw [view, Overlay.getElem?_overlay, Staged.writes, ExtTreeMap.getElem?_map]

theorem getElem?_extend (staged more : Staged) (k : TKey) :
    (staged.extend more)[k]? = more[k]?.or staged[k]? := by
  rw [Staged.extend, Overlay.getElem?_overlay, ExtTreeMap.getElem?_map]
  rcases Option.eq_none_or_eq_some more[k]? with h | ⟨w, h⟩ <;> simp [h]

@[simp]
theorem view_empty (rows : Rows) : view rows ∅ = rows := by
  refine ExtTreeMap.ext_getElem? fun k => ?_
  rw [getElem?_view]
  simp

@[simp]
theorem empty_extend (staged : Staged) : (∅ : Staged).extend staged = staged := by
  refine ExtTreeMap.ext_getElem? fun k => ?_
  rw [getElem?_extend]
  simp

/-- What was staged first is seen below what was staged later. -/
theorem view_extend (rows : Rows) (staged more : Staged) :
    view rows (staged.extend more) = view (view rows staged) more := by
  refine ExtTreeMap.ext_getElem? fun k => ?_
  rw [getElem?_view, getElem?_view, getElem?_view, getElem?_extend]
  rcases Option.eq_none_or_eq_some more[k]? with h | ⟨w, h⟩ <;> simp [h]

end View

/-! ## Statements -/

/-- How a statement fails; `DuplicateKey` carries the key it prints. -/
inductive StmtError where
  | err (e : Error)
  | duplicateKey (key : Bytes)
deriving DecidableEq

/-- A statement with its names resolved. -/
inductive Stmt where
  /-- `INSERT`; `text` is the name of the table as it is written. -/
  | insert (text table : String) (rows : List Row) (fk : Rows → Except StmtError Unit)
  /-- `UPDATE` by columns and literals. -/
  | update (table : String) (cond : Rows → Row → Bool) (set : List (Nat × Datum))
      (fk : Rows → Except StmtError (List (TKey × Option Row)))
  /-- `UPDATE` on the point path. -/
  | updatePoint (table : String) (key : Bytes) (set : List (Nat × Datum))
  /-- `DELETE`. -/
  | delete (table : String) (cond : Rows → Row → Bool)
      (fk : Rows → Except StmtError (List (TKey × Option Row)))
  /-- `SELECT`. -/
  | select (query : Rows → List Row)

/-- What a statement returns. -/
inductive Output where
  /-- Rows inserted, updated or deleted. -/
  | count (n : Nat)
  | rows (rows : List Row)
deriving DecidableEq

abbrev Schemas := ExtTreeMap String Schema

/-- The `AUTO_INCREMENT` sequences of the tables that have one. -/
abbrev AutoIncs := ExtTreeMap String AutoIncState

def rowKey (schema : Schema) (row : Row) : Except StmtError Bytes :=
  (encodeKey (Table.column row schema.pkIdx)).mapError .err

/-- `assign_auto_inc`, if the table has a sequence. -/
def assignAutoInc (inc : Option AutoIncState) (row : Row) :
    Except StmtError (Option AutoIncState × Row) :=
  match inc with
  | none => .ok (none, row)
  | some st => ((st.assign row).mapError .err).map fun (st, row) => (some st, row)

/-- The loop of `exec_insert`.  The staged rows are looked up under the written
name and kept under the resolved one. -/
def insertRows (schema : Schema) (text table : String) (rows : Rows) :
    Option AutoIncState → List Row → Staged → Option AutoIncState × Except StmtError Staged
  | inc, [], staged => (inc, .ok staged)
  | inc, row :: rest, staged =>
    match assignAutoInc inc row with
    | .error e => (inc, .error e)
    | .ok (inc, row) =>
      match schema.validateRow row with
      | .error e => (inc, .error (.err e))
      | .ok row =>
        match rowKey schema row with
        | .error e => (inc, .error e)
        | .ok key =>
          if staged.contains (text, key) || rows.contains (table, key) then
            (inc, .error (.duplicateKey key))
          else
            insertRows schema text table rows inc rest
              (staged.insert (table, key) { row := some row, isInsert := true })

/-- The assignments of an `UPDATE`, and whether one of them changes the row. -/
def assignColumns (row : Row) (set : List (Nat × Datum)) : Row × Bool :=
  set.foldl
    (fun (row, changed) (i, d) =>
      if (Table.column row i).eqv d then (row, changed) else (row.set i d, true))
    (row, false)

/-- The loop of `exec_update`. -/
def updateRows (schema : Schema) (table : String) (set : List (Nat × Datum)) :
    List Row → Staged → Except StmtError Staged
  | [], staged => .ok staged
  | row :: rest, staged =>
    match assignColumns row set with
    | (_, false) => updateRows schema table set rest staged
    | (row, true) => do
      let row ← (schema.validateRow row).mapError .err
      let key ← rowKey schema row
      updateRows schema table set rest
        (staged.insert (table, key) { row := some row, isInsert := false })

/-- The loop of `exec_delete`. -/
def deleteRows (schema : Schema) (table : String) : List Row → Staged → Except StmtError Staged
  | [], staged => .ok staged
  | row :: rest, staged => do
    let key ← rowKey schema row
    deleteRows schema table rest (staged.insert (table, key) { row := none, isInsert := false })

/-- The rows of a table that a `WHERE` clause selects. -/
def matching (rows : Rows) (table : String) (cond : Rows → Row → Bool) : List Row :=
  (rows.toList.filter fun e => e.1.1 = table && cond rows e.2).map Prod.snd

/-- The point path of `exec_update` and `try_fast_point_update`. -/
def updateKey (schema : Schema) (table : String) (key : Bytes) (set : List (Nat × Datum)) :
    Option Row → Except StmtError Staged
  | none => .ok ∅
  | some row =>
    match assignColumns row set with
    | (_, false) => .ok ∅
    | (row, true) => do
      let row ← (schema.validateRow row).mapError .err
      return (∅ : Staged).insert (table, key) { row := some row, isInsert := false }

/-- The rows that foreign key actions delete or change are staged with the rest. -/
def stageActions (staged : Staged) (actions : List (TKey × Option Row)) : Staged :=
  actions.foldl (fun staged a => staged.insert a.1 { row := a.2, isInsert := false }) staged

def schemaOf (schemas : Schemas) (table : String) : Except StmtError Schema :=
  match schemas[table]? with
  | some schema => .ok schema
  | none => .error (.err (.tableNotFound table))

/-- What a statement stages and returns, given the rows in view. -/
def Stmt.exec (schemas : Schemas) (incs : AutoIncs) (rows : Rows) :
    Stmt → AutoIncs × Except StmtError (Staged × Output)
  | .insert text table new fk =>
    match schemaOf schemas table with
    | .error e => (incs, .error e)
    | .ok schema =>
      let (inc, result) := insertRows schema text table rows incs[table]? new ∅
      (inc.elim incs (incs.insert table), do
        let st ← result
        fk rows
        return (st, .count st.size))
  | .update table cond set fk =>
    (incs, do
      let schema ← schemaOf schemas table
      let st ← updateRows schema table set (matching rows table cond) ∅
      let st := stageActions st (← fk rows)
      return (st, .count st.size))
  | .updatePoint table key set =>
    (incs, do
      let schema ← schemaOf schemas table
      let st ← updateKey schema table key set rows[(table, key)]?
      return (st, .count st.size))
  | .delete table cond fk =>
    (incs, do
      let schema ← schemaOf schemas table
      let matched := matching rows table cond
      let st ← deleteRows schema table matched ∅
      return (stageActions st (← fk rows), .count matched.length))
  | .select query => (incs, .ok (∅, .rows (query rows)))

/-! ## What the loops keep -/

section Loops

variable {schema : Schema} {text table : String} {rows : Rows} {set : List (Nat × Datum)}
  {P : Staged → Prop}

theorem mapError_ok {ε ε' α : Type} {x : Except ε α} {f : ε → ε'} {a : α}
    (h : x.mapError f = .ok a) : x = .ok a := by
  cases x with
  | error e => cases h
  | ok a' =>
    obtain rfl : a' = a := Except.ok.inj h
    rfl

theorem insertRows_keeps
    (hstep : ∀ staged row key, (∃ given, schema.validateRow given = .ok row) →
      rowKey schema row = .ok key → rows[(table, key)]? = none → P staged →
        P (staged.insert (table, key) { row := some row, isInsert := true })) :
    ∀ {new : List Row} {inc : Option AutoIncState} {staged staged' : Staged},
      (insertRows schema text table rows inc new staged).2 = .ok staged' → P staged → P staged'
  | [], inc, staged, staged', h, hstaged => by
    cases h
    exact hstaged
  | given :: rest, inc, staged, staged', h, hstaged => by
    rw [insertRows] at h
    split at h
    · cases h
    · next inc' given' _ =>
      split at h
      · cases h
      · next row hvalid =>
        split at h
        · cases h
        · next key hkey =>
          split at h
          · cases h
          · next hfree =>
            have hnone : rows[(table, key)]? = none := by
              rw [Bool.or_eq_true, not_or] at hfree
              exact ExtTreeMap.getElem?_eq_none (by simpa using hfree.2)
            exact insertRows_keeps hstep h (hstep staged row key ⟨given', hvalid⟩ hkey hnone hstaged)

theorem updateRows_keeps {matched : List Row}
    (hstep : ∀ staged old new row key, old ∈ matched → assignColumns old set = (new, true) →
      schema.validateRow new = .ok row → rowKey schema row = .ok key → P staged →
        P (staged.insert (table, key) { row := some row, isInsert := false })) :
    ∀ {staged staged' : Staged}, updateRows schema table set matched staged = .ok staged' →
      P staged → P staged' := by
  induction matched with
  | nil =>
    intro staged staged' h hstaged
    cases h
    exact hstaged
  | cons old rest ih =>
    intro staged staged' h hstaged
    have hrest := @ih fun staged old' new row key hold =>
      hstep staged old' new row key (by simp [hold])
    rw [updateRows] at h
    split at h
    · exact hrest h hstaged
    · next new hnew =>
      obtain ⟨row, hvalid, h⟩ := Outcome.bind_ok h
      obtain ⟨key, hkey, h⟩ := Outcome.bind_ok h
      exact hrest h (hstep staged old new row key (by simp) hnew (mapError_ok hvalid) hkey hstaged)

theorem deleteRows_keeps {matched : List Row}
    (hstep : ∀ staged row key, row ∈ matched → rowKey schema row = .ok key → P staged →
      P (staged.insert (table, key) { row := none, isInsert := false })) :
    ∀ {staged staged' : Staged}, deleteRows schema table matched staged = .ok staged' →
      P staged → P staged' := by
  induction matched with
  | nil =>
    intro staged staged' h hstaged
    cases h
    exact hstaged
  | cons row rest ih =>
    intro staged staged' h hstaged
    rw [deleteRows] at h
    obtain ⟨key, hkey, h⟩ := Outcome.bind_ok h
    exact ih (fun staged row key hrow => hstep staged row key (by simp [hrow])) h
      (hstep staged row key (by simp) hkey hstaged)

theorem updateKey_spec {key : Bytes} {old : Option Row} {staged : Staged}
    (h : updateKey schema table key set old = .ok staged) :
    staged = ∅ ∨ ∃ row new row', old = some row ∧ assignColumns row set = (new, true) ∧
      schema.validateRow new = .ok row' ∧
        staged = (∅ : Staged).insert (table, key) { row := some row', isInsert := false } := by
  cases old with
  | none =>
    cases h
    exact Or.inl rfl
  | some row =>
    rw [updateKey] at h
    split at h
    · cases h
      exact Or.inl rfl
    · next new hnew =>
      obtain ⟨row', hvalid, h⟩ := Outcome.bind_ok h
      cases h
      exact Or.inr ⟨row, new, row', rfl, hnew, mapError_ok hvalid, rfl⟩

/-- A property that staging one write of a foreign key action keeps. -/
theorem stageActions_keeps
    (hstep : ∀ (staged : Staged) k row, P staged →
      P (staged.insert k { row := row, isInsert := false })) :
    ∀ {actions : List (TKey × Option Row)} {staged : Staged}, P staged →
      P (stageActions staged actions)
  | [], _, h => h
  | a :: actions, staged, h =>
    show P (stageActions (staged.insert a.1 { row := a.2, isInsert := false }) actions) from
      stageActions_keeps hstep (hstep staged a.1 a.2 h)

/-- An `INSERT` that succeeds. -/
theorem Stmt.exec_insert_ok {schemas : Schemas} {incs : AutoIncs} {new : List Row}
    {fk : Rows → Except StmtError Unit} {staged : Staged} {output : Output}
    (h : ((Stmt.insert text table new fk).exec schemas incs rows).2 = .ok (staged, output)) :
    ∃ schema, schemas[table]? = some schema ∧
      (insertRows schema text table rows incs[table]? new ∅).2 = .ok staged := by
  simp only [Stmt.exec, schemaOf] at h
  rcases Option.eq_none_or_eq_some schemas[table]? with hnone | ⟨schema, hschema⟩
  · rw [hnone] at h
    cases h
  · rw [hschema] at h
    obtain ⟨st, hst, h⟩ := Outcome.bind_ok h
    obtain ⟨-, -, h⟩ := Outcome.bind_ok h
    cases h
    exact ⟨schema, hschema, hst⟩

end Loops

end HenchDB.Session
