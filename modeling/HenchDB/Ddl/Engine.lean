import HenchDB.Catalog
import HenchDB.Store
import HenchDB.Validate
import HenchDB.Lib.Overlay
import HenchDB.Lib.Transition

/-!
# Catalog changes beside commits

A name of the catalog denotes a table object.  Statements and commits hold the
object and look the name up again later, and a `DROP` and a `CREATE` in between
put another object behind the name.  Objects are numbered and never reused.

A statement opens its table and then resolves the name of it once more, for the
key under which it stages rows.  A commit looks every staged name up, one after
the other, and appends its records under the commit lock.  A DDL statement
changes the catalog first and appends its record afterwards; `DROP DATABASE`
changes the databases and the tables one after the other.  Other sessions may
take steps between any two of these.

Ghosts: every staged row carries the object whose schema accepted it, every
append records what was staged and what the catalog was (`commits`), every
installed row is listed (`installs`), and the records of DDL statements that
are not yet appended are listed in the order of their changes (`unlogged`).

The definition of a new table is taken as `exec_create_table` has checked it.
The checks of foreign keys that refuse a `DROP` are left out: they only narrow
what runs there are.
-/

namespace HenchDB.Ddl

open Std (ExtTreeMap ExtTreeSet)
open Overlay (overlay)

/-! ## The state -/

/-- `StagedWrite`, with the object that validated it. -/
structure StagedWrite where
  row : Option (List Datum)
  isInsert : Bool
  origin : Nat

abbrev Staged := ExtTreeMap TKey StagedWrite

def Staged.extend (staged more : Staged) : Staged := overlay staged (more.map fun _ w => some w)

structure ActiveTxn where
  id : Nat
  staged : Staged

/-- What a session is in the middle of. -/
inductive Doing where
  | idle
  | held (db name : String) (table : Nat)
  /-- It has resolved the name again and stages rows. -/
  | running (key : String) (table : Nat) (staged : Staged)
  /-- `commit_txn` looks its tables up. -/
  | resolving (txn : Nat) (staged : Staged) (tables : ExtTreeMap String Nat)
  /-- `DROP DATABASE` between its two changes. -/
  | dropping (db : String)
  /-- DDL between its change and its append. -/
  | logging (record : Record)
  /-- Behind the append. -/
  | busy

structure Session where
  txn : Option ActiveTxn
  doing : Doing

structure Install where
  target : Nat
  origin : Nat
  key : TKey
  row : Option Bytes

/-- An append that the frontier has not passed. -/
structure Flight where
  session : Nat
  todo : List Install
  keys : List TKey
  hasInserts : Bool
  durable : Bool

/-- What a commit appended, and the catalog at that moment. -/
structure Logged where
  staged : Staged
  catalog : ExtTreeMap String Nat

structure Engine where
  databases : ExtTreeSet String
  /-- The objects behind the names. -/
  tables : ExtTreeMap String Nat
  heap : Nat → Table
  /-- Objects from here on are unused. -/
  fresh : Nat
  nextTxn : Nat
  sessions : Nat → Session
  inFlight : ExtTreeSet TKey
  /-- Appended and not passed by the frontier, in the order of the log. -/
  queue : List Flight
  log : List Record
  /-- Ghost: DDL records to be appended, in the order of the changes. -/
  unlogged : List (Nat × Record)
  commits : List Logged
  installs : List Install

namespace Engine

def setSession (s : Engine) (r : Nat) (session : Session) : Engine :=
  { s with sessions := Function.update s.sessions r session }

/-- Move a session within its transaction. -/
def setDoing (s : Engine) (r : Nat) (doing : Doing) : Engine :=
  s.setSession r { s.sessions r with doing := doing }

def setTable (s : Engine) (id : Nat) (t : Table) : Engine :=
  { s with heap := Function.update s.heap id t }

/-! ## Transactions -/

def begin (s : Engine) (r : Nat) : Option Engine :=
  match s.sessions r with
  | { txn := none, doing := .idle } =>
    some { s.setSession r { txn := some { id := s.nextTxn, staged := ∅ }, doing := .idle } with
      nextTxn := s.nextTxn + 1 }
  | _ => none

def rollback (s : Engine) (r : Nat) : Option Engine :=
  match s.sessions r with
  | { txn := some _, doing := .idle } => some (s.setSession r { txn := none, doing := .idle })
  | _ => none

/-- `COMMIT`; nothing staged returns at once. -/
def commit (s : Engine) (r : Nat) : Option Engine :=
  match s.sessions r with
  | { txn := some t, doing := .idle } =>
    some (s.setSession r
      { txn := none
        doing := if t.staged.isEmpty then .idle else .resolving t.id t.staged ∅ })
  | _ => none

/-! ## Statements -/

def resolveTableKey (s : Engine) (db name : String) : String :=
  if name.toList.contains '.' then name
  else
    let qual := db ++ "." ++ name
    if s.tables.contains qual then qual
    else if s.tables.contains name then name
    else qual

/-- `Database::table`, the first call of a statement. -/
def openTable (s : Engine) (r : Nat) (db name : String) : Option Engine :=
  match (s.sessions r).doing, s.tables[s.resolveTableKey db name]? with
  | .idle, some table => some (s.setDoing r (.held db name table))
  | _, _ => none

/-- `resolve_table_key`, the second call. -/
def resolve (s : Engine) (r : Nat) : Option Engine :=
  match (s.sessions r).doing with
  | .held db name table => some (s.setDoing r (.running (s.resolveTableKey db name) table ∅))
  | _ => none

/-- A row that a table accepts, or a deletion. -/
def validated (t : Table) : Option (List Datum) → Option (Option (List Datum))
  | none => some none
  | some given => (attempt (t.schema.validateRow given)).map some

/-- The statement stages a row of its table. -/
def write (s : Engine) (r : Nat) (pk : Datum) (given : Option (List Datum)) (isInsert : Bool) :
    Option Engine :=
  match (s.sessions r).doing with
  | .running key table staged => do
    let k ← attempt (encodeKey pk)
    let row ← validated (s.heap table) given
    return s.setDoing r (.running key table
      (staged.insert (key, k) { row := row, isInsert := isInsert, origin := table }))
  | _ => none

/-- A foreign key action stages a row of a child table. -/
def writeChild (s : Engine) (r : Nat) (child : String) (pk : Datum) (given : Option (List Datum)) :
    Option Engine :=
  match (s.sessions r).doing with
  | .running key table staged => do
    let id ← s.tables[child]?
    let k ← attempt (encodeKey pk)
    let row ← validated (s.heap id) given
    return s.setDoing r (.running key table
      (staged.insert (child, k) { row := row, isInsert := false, origin := id }))
  | _ => none

def commitStagedOrStage (s : Engine) (r : Nat) (autocommit : Bool) : Option Engine :=
  match s.sessions r with
  | { txn := some t, doing := .running _ _ staged } =>
    some (s.setSession r { txn := some { t with staged := t.staged.extend staged }, doing := .idle })
  | { txn := none, doing := .running _ _ staged } =>
    let s' := { s with nextTxn := s.nextTxn + 1 }
    some
      (if autocommit then
        s'.setSession r
          { txn := none
            doing := if staged.isEmpty then .idle else .resolving s.nextTxn staged ∅ }
      else s'.setSession r { txn := some { id := s.nextTxn, staged := staged }, doing := .idle })
  | _ => none

/-- `commit_single_update`, which holds its table and looks nothing up. -/
def commitSingleUpdate (s : Engine) (r : Nat) : Option Engine :=
  match s.sessions r with
  | { txn := none, doing := .running key table staged } =>
    if staged.toList.all fun (k, w) => k.1 = key && !w.isInsert then
      some { s.setDoing r (.resolving s.nextTxn staged ((∅ : ExtTreeMap String Nat).insert key table)) with
        nextTxn := s.nextTxn + 1 }
    else none
  | _ => none

/-- A statement or a commit fails before its append. -/
def fail (s : Engine) (r : Nat) : Option Engine :=
  match (s.sessions r).doing with
  | .held _ _ _ | .running _ _ _ | .resolving _ _ _ => some (s.setDoing r .idle)
  | _ => none

/-! ## Phases of `commit_txn` -/

/-- One table is looked up; the commit fails if there is none. -/
def lookup (s : Engine) (r : Nat) (name : String) : Option Engine :=
  match (s.sessions r).doing with
  | .resolving txn staged tables =>
    if tables.contains name || !staged.keys.any fun k => k.1 = name then none
    else
      match s.tables[name]? with
      | none => some (s.setDoing r .idle)
      | some id => some (s.setDoing r (.resolving txn staged (tables.insert name id)))
  | _ => none

def record (txn : Nat) (k : TKey) : Option (List Datum) → Record
  | some row => .put txn k.1 k.2 (encodeRow row)
  | none => .delete txn k.1 k.2

def records (txn : Nat) (staged : Staged) (ts : Nat) : List Record :=
  (staged.toList.map fun (k, w) => record txn k w.row) ++ [.commit txn (some ts)]

def installsOf (staged : Staged) (tables : ExtTreeMap String Nat) : List Install :=
  staged.toList.map fun (k, w) =>
    { target := tables[k.1]?.getD 0, origin := w.origin, key := k, row := w.row.map encodeRow }

def duplicate (s : Engine) (staged : Staged) (tables : ExtTreeMap String Nat) : Bool :=
  staged.toList.any fun (k, w) => w.isInsert &&
    ((s.heap (tables[k.1]?.getD 0)).tree.contains k.2 || s.inFlight.contains k)

def append (s : Engine) (r : Nat) (ts : Nat) : Option Engine :=
  match (s.sessions r).doing with
  | .resolving txn staged tables =>
    if !staged.keys.all fun k => tables.contains k.1 then none
    else if staged.toList.any fun (_, w) => w.row.any fun row => maxValueLen < (encodeRow row).length then
      some (s.setDoing r .idle)
    else if s.duplicate staged tables then some (s.setDoing r .idle)
    else
      let inserted := (staged.toList.filter fun (_, w) => w.isInsert).map Prod.fst
      some { s.setDoing r .busy with
        log := s.log ++ records txn staged ts
        inFlight := s.inFlight.insertMany inserted
        queue := s.queue ++ [{
          session := r
          todo := installsOf staged tables
          keys := staged.keys
          hasInserts := !inserted.isEmpty
          durable := false }]
        commits := s.commits ++ [{ staged := staged, catalog := s.tables }] }
  | _ => none

/-- Phase B: the first `n` appends are durable. -/
def sync (s : Engine) (n : Nat) : Engine :=
  { s with queue := (s.queue.take n).map (fun f => { f with durable := true }) ++ s.queue.drop n }

/-- `apply_raw` or `remove_raw`. -/
def Install.run (i : Install) (t : Table) : Except Fault Table :=
  match i.row with
  | some raw => t.applyRaw i.key.2 raw
  | none => t.removeRaw i.key.2

/-- Phase C: one row of the append at the frontier. -/
def apply (s : Engine) : Option Engine :=
  match s.queue with
  | [] => none
  | f :: rest =>
    match f.durable, f.todo with
    | true, i :: todo =>
      match Install.run i (s.heap i.target) with
      | .ok t =>
        some { s.setTable i.target t with
          queue := { f with todo := todo } :: rest
          installs := s.installs ++ [i] }
      | .error _ => none
    | _, _ => none

/-- The frontier moves on, and the statement returns. -/
def finish (s : Engine) : Option Engine :=
  match s.queue with
  | [] => none
  | f :: rest =>
    match f.durable, f.todo with
    | true, [] =>
      some { s.setDoing f.session .idle with
        queue := rest
        inFlight :=
          if f.hasInserts then f.keys.foldl (fun marks k => marks.erase k) s.inFlight
          else s.inFlight }
    | _, _ => none

/-! ## DDL -/

/-- The name of an automatic index: the first that is free. -/
def autoName (taken : List String) (column : String) : String :=
  let plain := "fk_" ++ column
  if plain ∈ taken then
    (((List.range (taken.length + 1)).map fun n => plain ++ "_" ++ toString (n + 2)).find?
      fun name => name ∉ taken).getD plain
  else plain

/-- One foreign key of `fk_ensure_auto_indexes`. -/
def ensureAutoIndex (t : Table) (fk : ForeignKeyDef) : Except Fault Table :=
  if t.schema.indexOf fk.column = some t.schema.pkIdx then .ok t
  else if t.secondaryIndexes.any fun d => d.column = fk.column then .ok t
  else t.addIndex (autoName (t.secondaryIndexes.map IndexDef.name) fk.column) fk.column

/-- `fk_ensure_auto_indexes`. -/
def ensureAutoIndexes (t : Table) : Except Fault Table := t.info.foreignKeys.foldlM ensureAutoIndex t

def changed (s : Engine) (r : Nat) (rec : Nat → Record) : Engine :=
  { s.setDoing r (.logging (rec s.nextTxn)) with
    nextTxn := s.nextTxn + 1
    unlogged := s.unlogged ++ [(r, rec s.nextTxn)] }

/-- `exec_create_table`. -/
def createTable (s : Engine) (r : Nat) (name : String) (schema : Schema)
    (foreignKeys : List ForeignKeyDef) : Option Engine :=
  let bare : TableDef :=
    { name := name, schema := schema, indexes := [], foreignKeys := foreignKeys, stats := none }
  match (s.sessions r).doing, ensureAutoIndexes (Table.new bare) with
  | .idle, .ok t =>
    if s.tables.contains name then none
    else
      some ({ s.setTable s.fresh t with
        tables := s.tables.insert name s.fresh
        fresh := s.fresh + 1 }.changed r
          (.createTable · { bare with indexes := t.secondaryIndexes }))
  | _, _ => none

/-- `exec_drop_table`, with the name resolved. -/
def dropTable (s : Engine) (r : Nat) (key : String) : Option Engine :=
  match (s.sessions r).doing with
  | .idle =>
    if s.tables.contains key then
      some ({ s with tables := s.tables.erase key }.changed r (.dropTable · key))
    else none
  | _ => none

/-- `exec_create_index`, on the table it has opened. -/
def createIndex (s : Engine) (r : Nat) (name column : String) : Option Engine :=
  match (s.sessions r).doing with
  | .running key table _ =>
    match (s.heap table).addIndex name column with
    | .ok t => some ((s.setTable table t).changed r (.createIndex · key name column))
    | .error _ => none
  | _ => none

/-- `exec_drop_index`, on the table it has opened. -/
def dropIndex (s : Engine) (r : Nat) (name : String) : Option Engine :=
  match (s.sessions r).doing with
  | .running key table _ =>
    match (s.heap table).dropIndex name with
    | .ok t => some ((s.setTable table t).changed r (.dropIndex · key name))
    | .error _ => none
  | _ => none

/-- `exec_create_database`. -/
def createDatabase (s : Engine) (r : Nat) (name : String) : Option Engine :=
  match (s.sessions r).doing with
  | .idle =>
    if s.databases.contains name then none
    else
      some ({ s with databases := s.databases.insert name }.changed r (.createDatabase · name))
  | _ => none

/-- The first change of `exec_drop_database`. -/
def dropDatabase (s : Engine) (r : Nat) (name : String) : Option Engine :=
  match (s.sessions r).doing with
  | .idle =>
    if s.databases.contains name then
      some ({ s with databases := s.databases.erase name }.setDoing r (.dropping name))
    else none
  | _ => none

/-- The second one. -/
def dropTables (s : Engine) (r : Nat) : Option Engine :=
  match (s.sessions r).doing with
  | .dropping name =>
    some ({ s with tables := s.tables.filter fun k _ => !Catalog.inDatabase name k }.changed r
      (.dropDatabase · name))
  | _ => none

/-- The append of `wal_commit`. -/
def walCommit (s : Engine) (r : Nat) (ts : Nat) : Option Engine :=
  match (s.sessions r).doing with
  | .logging rec =>
    some { s.setDoing r .busy with
      log := s.log ++ [rec, .commit rec.txnOf (some ts)]
      queue := s.queue ++ [{
        session := r, todo := [], keys := [], hasInserts := false, durable := false }]
      unlogged := s.unlogged.filter fun e => e.1 ≠ r }
  | _ => none

end Engine

/-! ## Runs -/

/-- The steps. -/
inductive Action where
  | begin (r : Nat)
  | rollback (r : Nat)
  | commit (r : Nat)
  | openTable (r : Nat) (db name : String)
  | resolve (r : Nat)
  | write (r : Nat) (pk : Datum) (given : Option (List Datum)) (isInsert : Bool)
  | writeChild (r : Nat) (child : String) (pk : Datum) (given : Option (List Datum))
  | commitStagedOrStage (r : Nat) (autocommit : Bool)
  | commitSingleUpdate (r : Nat)
  | fail (r : Nat)
  | lookup (r : Nat) (name : String)
  | append (r ts : Nat)
  | sync (n : Nat)
  | apply
  | finish
  | createTable (r : Nat) (name : String) (schema : Schema) (foreignKeys : List ForeignKeyDef)
  | dropTable (r : Nat) (key : String)
  | createIndex (r : Nat) (name column : String)
  | dropIndex (r : Nat) (name : String)
  | createDatabase (r : Nat) (name : String)
  | dropDatabase (r : Nat) (name : String)
  | dropTables (r : Nat)
  | walCommit (r ts : Nat)

/-- A statement that changes the catalog and owes the log a record. -/
def Action.changes : Action → Option Nat
  | .createTable r _ _ _ | .dropTable r _ | .createIndex r _ _ | .dropIndex r _ |
    .createDatabase r _ | .dropTables r => some r
  | _ => none

namespace Engine

def step (s : Engine) : Action → Option Engine
  | .begin r => s.begin r
  | .rollback r => s.rollback r
  | .commit r => s.commit r
  | .openTable r db name => s.openTable r db name
  | .resolve r => s.resolve r
  | .write r pk given isInsert => s.write r pk given isInsert
  | .writeChild r child pk given => s.writeChild r child pk given
  | .commitStagedOrStage r autocommit => s.commitStagedOrStage r autocommit
  | .commitSingleUpdate r => s.commitSingleUpdate r
  | .fail r => s.fail r
  | .lookup r name => s.lookup r name
  | .append r ts => s.append r ts
  | .sync n => some (s.sync n)
  | .apply => s.apply
  | .finish => s.finish
  | .createTable r name schema foreignKeys => s.createTable r name schema foreignKeys
  | .dropTable r key => s.dropTable r key
  | .createIndex r name column => s.createIndex r name column
  | .dropIndex r name => s.dropIndex r name
  | .createDatabase r name => s.createDatabase r name
  | .dropDatabase r name => s.dropDatabase r name
  | .dropTables r => s.dropTables r
  | .walCommit r ts => s.walCommit r ts

/-- A statement that changes the catalog takes away the names it drops. -/
theorem changes_spec {s s' : Engine} {a : Action} {r : Nat} (hs : s.step a = some s')
    (ha : a.changes = some r) :
    ∃ databases heap tables fresh rec,
      s' = { s with databases := databases, heap := heap, tables := tables, fresh := fresh }.changed r rec ∧
      ∀ (n : String) (id : Nat), s.tables[n]? = some id →
        tables[n]? = some id ∨ a = .dropTable r n ∨ ∃ db, a = .dropTables r ∧
          (s.sessions r).doing = .dropping db ∧ Catalog.inDatabase db n = true := by
  cases a with
  | createTable r' name schema fks =>
    cases ha
    simp only [step, createTable] at hs
    split at hs
    · split at hs
      · cases hs
      · next hfree =>
        cases hs
        refine ⟨_, _, _, _, _, rfl, fun n id hn => .inl ?_⟩
        rw [ExtTreeMap.getElem?_insert]
        split
        · next heq =>
          cases Std.compare_eq_iff_eq.mp heq
          rw [ExtTreeMap.contains_eq_isSome_getElem?, hn] at hfree
          exact absurd rfl hfree
        · exact hn
    · cases hs
  | dropTable r' key =>
    cases ha
    simp only [step, dropTable] at hs
    split at hs
    · split at hs
      · cases hs
        refine ⟨_, _, _, _, _, rfl, fun n id hn => ?_⟩
        rw [ExtTreeMap.getElem?_erase]
        split
        · next heq =>
          cases Std.compare_eq_iff_eq.mp heq
          exact .inr (.inl rfl)
        · exact .inl hn
      · cases hs
    · cases hs
  | createIndex r' name column =>
    cases ha
    simp only [step, createIndex] at hs
    split at hs
    · split at hs
      · cases hs
        exact ⟨_, _, _, _, _, rfl, fun _ _ => .inl⟩
      · cases hs
    · cases hs
  | dropIndex r' name =>
    cases ha
    simp only [step, dropIndex] at hs
    split at hs
    · split at hs
      · cases hs
        exact ⟨_, _, _, _, _, rfl, fun _ _ => .inl⟩
      · cases hs
    · cases hs
  | createDatabase r' name =>
    cases ha
    simp only [step, createDatabase] at hs
    split at hs
    · split at hs
      · cases hs
      · cases hs
        exact ⟨_, _, _, _, _, rfl, fun _ _ => .inl⟩
    · cases hs
  | dropTables r' =>
    cases ha
    simp only [step, dropTables] at hs
    split at hs
    · next db hdoing =>
      cases hs
      refine ⟨_, _, _, _, _, rfl, fun n id hn => ?_⟩
      cases hin : Catalog.inDatabase db n with
      | true => exact .inr (.inr ⟨db, rfl, hdoing, hin⟩)
      | false =>
        left
        rw [ExtTreeMap.getElem?_filter', hn]
        simp [hin]
    · cases hs
  | _ => cases ha

def Steps (s s' : Engine) : Prop := ∃ a, s.step a = some s'

/-- The catalog that was opened: every name has an object of its own, no
session is in the middle of anything, and nothing is logged yet. -/
structure Opened (c : Catalog) (s : Engine) : Prop where
  databases : s.databases = c.databases
  tables : ∀ n : String, s.tables[n]?.map s.heap = c.tables[n]?
  named : ∀ (n : String) id, s.tables[n]? = some id → (s.heap id).info.name = n
  unused : ∀ (n : String) id, s.tables[n]? = some id → id < s.fresh
  sessions : ∀ r, s.sessions r = { txn := none, doing := .idle }
  queue : s.queue = []
  log : s.log = []
  unlogged : s.unlogged = []
  commits : s.commits = []
  installs : s.installs = []

end Engine

end HenchDB.Ddl
