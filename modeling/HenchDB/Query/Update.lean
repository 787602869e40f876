import HenchDB.Fk.Order
import HenchDB.Fk.Update
import HenchDB.Query.Plan
import HenchDB.Session.Columns
import HenchDB.Session.Router

/-!
# `UPDATE` by literals

An `UPDATE` takes one of three routes.  The text of a statement on one column and one
key is cut into its pieces before it is parsed (`tryFastPointUpdate`); a statement that
commits at once, of a table without foreign keys, goes to the key that the planner finds
in its condition; any other one reads the rows along an access path, filters them with
the condition and stages those that the assignments change (`updateVisible`).

The first two routes do not ask the condition.  They assign the columns in the row that
is stored under the key, and the first takes key and value from the text, where a doubled
quote stays doubled.  So an `UPDATE` of columns other than the key changes exactly the rows
that its condition selects if and only if the route leads to all of them, and on the point
routes to no other row and with the values of the statement (`update_exact_iff`).
-/

namespace HenchDB.Query

open Std (ExtTreeMap ExtTreeSet)
open Outcome
open HenchDB.Session (Staged StagedWrite StmtError assignColumns updateRows updateKey)

/-! ## The statement -/

def hasSubquery : Expr → Bool
  | .inSubquery _ _ _ | .scalarSubquery _ | .existsQuery _ _ => true
  | .cmp left _ right => hasSubquery left || hasSubquery right
  | .and a b | .or a b => hasSubquery a || hasSubquery b
  | .not e => hasSubquery e
  | .inList e _ _ | .between e _ _ _ | .like e _ _ => hasSubquery e
  | .column _ | .literal _ => false

/-- `UPDATE` by literals, with a condition without subqueries.  Nothing is said of how the
parser makes it of its text. -/
structure UpdateStmt where
  text : List Char
  set : List (String × Datum)
  selection : Option Expr
  plain : ∀ sel, selection = some sel → hasSubquery sel = false

/-- The columns that a statement sets, by their positions. -/
def UpdateStmt.assignments (stmt : UpdateStmt) (schema : Schema) : List (Nat × Datum) :=
  stmt.set.filterMap fun p => (schema.indexOf p.1).map fun i => (i, p.2)

/-- What an `UPDATE` asks of the code around it. -/
structure UpdateContext where
  parseFloat : String → Option UInt64
  /-- The statement's table is found under the name.  The parser reads the same word of the text
  for its name, so no other table is. -/
  opens : String → Bool
  fmt : Printing
  /-- A value in a message. -/
  print : Datum → String
  /-- The path over an index costs more than a scan. -/
  dear : Table → Option Expr → AccessPath → Bool
  orders : Fk.Orders
  /-- The rows that the checks of the foreign keys read. -/
  rows : Session.Rows
  fuel : Nat

/-- How an `UPDATE` comes upon its rows. -/
inductive Route where
  /-- The key of the text is `NULL`. -/
  | nothing
  | point (key : Bytes) (set : List (Nat × Datum))
  | rows (path : AccessPath)

/-- The foreign keys of the table or of others take part. -/
def fkInvolved (db : Database) (t : Table) : Bool :=
  !t.info.foreignKeys.isEmpty || Fk.fkIsReferenced ⟨db.catalog.tables, ∅⟩ t.info.name

section
variable (ctx : UpdateContext) (autocommit : Bool)

/-- `try_fast_point_update`; a text may be cut inside a character. -/
def tryFastPointUpdate (db : Database) (session : Session) (t : Table) (stmt : UpdateStmt) :
    Except Fault (Option Route) := do
  let cut ← (Router.fastPointUpdate ctx.parseFloat session.staged.isSome stmt.text).mapError fun _ => .panic
  match cut with
  | none => return none
  | some p =>
    if p.pkValue = .null then return some .nothing
    else if !ctx.opens (String.ofList p.table) || fkInvolved db t then return none
    else if t.schema.columns[t.schema.pkIdx]?.map ColumnDef.name ≠ some (String.ofList p.pkColumn) then
      return none
    else
      match t.schema.indexOf (String.ofList p.column) with
      | none => return none
      | some i => return some (.point (← (encodeKey p.pkValue).mapError .err) [(i, p.value)])

/-- The route of `exec_update`. -/
def execRoute (db : Database) (session : Session) (t : Table) (stmt : UpdateStmt) : Except Error Route :=
  match stmt.set.find? fun p => (t.schema.indexOf p.1).isNone with
  | some p => .error (.columnNotFound p.1)
  | none =>
    let visible := (chooseAccessPath ctx.dear t stmt.selection).map Route.rows
    if autocommit && session.staged.isNone && !fkInvolved db t then
      match accessPath t stmt.selection with
      | .point lit => (encodeKey lit).map fun key => .point key (stmt.assignments t.schema)
      | _ => visible
    else visible

def updateRoute (db : Database) (session : Session) (t : Table) (stmt : UpdateStmt) : Except Fault Route := do
  match ← tryFastPointUpdate ctx db session t stmt with
  | some route => return route
  | none => (execRoute ctx autocommit db session t stmt).mapError .err

/-- A failed loop. -/
def stmtHalt : StmtError → Fk.Halt
  | .err e => .fault (.err e)
  | .duplicateKey key => .fault (.err (.duplicateKey (toString key)))

def updatePoint (t : Table) (set : List (Nat × Datum)) (key : Bytes) : Except Fk.Halt Staged := do
  let old ← (t.tree[key]?.mapM t.decodeStored).mapError fun e => .fault (.err e)
  (updateKey t.schema t.info.name key set old).mapError stmtHalt

/-- The new key and the old row of every row that the loop of `exec_update` stages. -/
def updatedPairs (schema : Schema) (set : List (Nat × Datum)) (rows : List Row) :
    Except StmtError (List (Bytes × Row)) :=
  (rows.filter fun row => (assignColumns row set).2).mapM fun row => do
    let new ← (schema.validateRow (assignColumns row set).1).mapError .err
    return (← Session.rowKey schema new, row)

def updateVisible (db : Database) (session : Session) (t : Table) (selection : Option Expr)
    (set : List (Nat × Datum)) : Except Fk.Halt Staged := do
  let rows ← (visibleRows ctx.fmt (chooseAccessPath ctx.dear) db session [] t selection).mapError .fault
  let staged ← (updateRows t.schema t.info.name set rows ∅).mapError stmtHalt
  let pairs ← (updatedPairs t.schema set rows).mapError stmtHalt
  if !pairs.isEmpty && fkInvolved db t then
    Fk.fkCheckUpdated ctx.print ctx.orders ⟨db.catalog.tables, ctx.rows⟩ ctx.fuel t.info.name t pairs staged
  else return staged

def runRoute (db : Database) (session : Session) (t : Table) (stmt : UpdateStmt) :
    Route → Except Fk.Halt Staged
  | .nothing => .ok ∅
  | .point key set => updatePoint t set key
  | .rows _ => updateVisible ctx db session t stmt.selection (stmt.assignments t.schema)

/-! ## What a statement does to the rows -/

def seen (db : Database) (session : Session) (t : Table) (key : Bytes) : Option Row :=
  match visibleRow db session t key with
  | .ok row => row
  | .error _ => none

def Route.commits (session : Session) : Route → Bool
  | .nothing | .point _ _ => true
  | .rows _ => autocommit && session.staged.isNone

/-- A session that commits at once while it holds a snapshot, which a `COMMIT` that failed has
left behind, does not see what it commits. -/
def Stale (session : Session) (route : Route) : Bool :=
  route.commits autocommit session && session.snapshot.isSome

/-- What the session sees under a key once the statement is through. -/
def after (db : Database) (session : Session) (t : Table) (route : Route) (staged : Staged) (key : Bytes) :
    Option Row :=
  if Stale autocommit session route then seen db session t key
  else (staged[(t.info.name, key)]?.map StagedWrite.row).getD (seen db session t key)

end

/-- A row with its columns assigned, validated. -/
def setRow (schema : Schema) (set : List (Nat × Datum)) (row : Row) : Except Error Row :=
  schema.validateRow (assignColumns row set).1

section
variable (ctx : UpdateContext) (autocommit : Bool) (db : Database) (session : Session) (t : Table)
  (stmt : UpdateStmt)

/-- The session sees the row, and the condition holds of it. -/
structure Selects (key : Bytes) (row : Row) : Prop where
  seen : Sees db session t key row
  holds : Holds ctx.fmt t stmt.selection row

/-- The row is selected, and the assignments do not leave it as it is. -/
structure Changes (key : Bytes) (row : Row) : Prop where
  selects : Selects ctx db session t stmt key row
  changed : setRow t.schema (stmt.assignments t.schema) row ≠ .ok row

/-- The statement assigns its columns in the rows of its table that it selects and leaves the
others alone. -/
structure Assigns (route : Route) (staged : Staged) : Prop where
  selected : ∀ key row, Selects ctx db session t stmt key row →
    ∃ row', setRow t.schema (stmt.assignments t.schema) row = .ok row' ∧
      after autocommit db session t route staged key = some row'
  others : ∀ key, (∀ row, ¬ Selects ctx db session t stmt key row) →
    after autocommit db session t route staged key = seen db session t key

/-- The statement assigns its columns in the rows that it selects and leaves all other rows
alone. -/
structure Exact (route : Route) (staged : Staged) : Prop
    extends Assigns ctx autocommit db session t stmt route staged where
  elsewhere : ∀ (k : TKey) w, staged[k]? = some w → k.1 = t.info.name

/-- What a point route finds under its key: a row that is selected gets what the statement
assigns, another one stays as it is. -/
structure Hits (key : Bytes) (set : List (Nat × Datum)) (row : Row) : Prop where
  selected : Selects ctx db session t stmt key row →
    setRow t.schema set row = setRow t.schema (stmt.assignments t.schema) row
  other : ¬ Selects ctx db session t stmt key row → setRow t.schema set row = .ok row

/-- The route leads to every row that is to change, and a point route to no other row. -/
def Leads (route : Route) : Prop :=
  if Stale autocommit session route then ∀ key row, ¬ Changes ctx db session t stmt key row
  else
    match route with
    | .nothing => ∀ key row, ¬ Changes ctx db session t stmt key row
    | .point key set =>
      (∀ key' row, Changes ctx db session t stmt key' row → key' = key) ∧
        ∀ row, stored t key = some row → Hits ctx db session t stmt key set row
    | .rows path => ∀ key row, Changes ctx db session t stmt key row → Reaches db session t path key

end

/-! ## What the routes write -/

section
variable {ctx : UpdateContext} {autocommit : Bool} {db : Database} {session : Session} {t : Table}
  {stmt : UpdateStmt} {route : Route} {staged : Staged} {set : List (Nat × Datum)} {key :
    Bytes} {row row' : Row}

theorem mem_of_walk {ι β : Type} [LinearOrder ι] {r : ι} {b : β} : ∀ {c : List (ι × β)} {found : Option β},
    Chain.walk r c found = some b → found = some b ∨ ∃ u, (u, b) ∈ c
  | [], _, h => .inl h
  | (u, b') :: older, found, h => by
    rw [Chain.walk] at h
    split at h
    · rcases mem_of_walk h with heq | ⟨u', hin⟩
      · cases heq
        exact .inr ⟨u, List.mem_cons_self⟩
      · exact .inr ⟨u', List.mem_cons_of_mem _ hin⟩
    · exact .inl h

theorem seen_eq_some : seen db session t key = some row ↔ Sees db session t key row := by
  rw [seen, Sees]
  cases visibleRow db session t key <;> simp

theorem Sees.unique (h : Sees db session t key row) (h' : Sees db session t key row') : row = row' :=
  Option.some.inj (Except.ok.inj (h.symm.trans h'))

theorem kept_seen (h : WellKept db session t) (hsees : Sees db session t key row) : KeptRow t key row := by
  by_cases hstages : Stages session t key
  · obtain ⟨staged, w, hstaged, hlookup⟩ := hstages
    cases (visibleRow_staged hstaged hlookup).symm.trans hsees
    exact by
      obtain ⟨before, later, rfl, -⟩ := List.lookup_eq_some_iff.mp hlookup
      exact (h.staged _ hstaged).2 key row (by simp)
  · have hlook := (visibleRow_unstaged h hstages).symm.trans hsees
    rw [lookupVersion] at hlook
    have hlook := Session.mapError_ok hlook
    cases hpin : session.snapshot with
    | none =>
      rw [hpin] at hlook
      exact kept_stored h (Except.ok.inj hlook)
    | some pin =>
      rw [hpin, Mvcc.VersionState.snapshotLookup, if_neg Bool.false_ne_true] at hlook
      split at hlook
      · exact kept_stored h (Except.ok.inj hlook)
      · split at hlook
        · next hchain =>
          cases hlook
          obtain ⟨chain, hget, hwalk⟩ := Option.bind_eq_some_iff.mp hchain
          rcases mem_of_walk hwalk with hnone | ⟨u, hin⟩
          · cases hnone
          · exact (h.history key chain hget _ hin).2 row rfl
        · cases hlook

/-- Without a change the row is what it was. -/
theorem setRow_of_unchanged (hkept : KeptRow t key row) (h : (assignColumns row set).2 = false) :
    setRow t.schema set row = .ok row := by
  rw [setRow, Session.assignColumns_unchanged h]
  exact hkept.normal.validateRow

theorem Changes.flag (h : WellKept db session t) (hchanges : Changes ctx db session t stmt key row) :
    (assignColumns row (stmt.assignments t.schema)).2 = true := by
  by_contra hflag
  exact hchanges.changed (setRow_of_unchanged (kept_seen h hchanges.selects.seen) (by simpa using hflag))

/-- What the loop over rows that are in order stages. -/
structure Writes (ctx : UpdateContext) (db : Database) (session : Session) (t : Table) (stmt : UpdateStmt)
    (path : AccessPath) (staged : Staged) : Prop where
  back : ∀ key w, staged[(t.info.name, key)]? = some w → ∃ key₀ row row',
    Selects ctx db session t stmt key₀ row ∧ Reaches db session t path key₀ ∧
      (assignColumns row (stmt.assignments t.schema)).2 = true ∧
        setRow t.schema (stmt.assignments t.schema) row = .ok row' ∧
          t.keyOf row' = .ok key ∧ w.row = some row'
  forth : ∀ key₀ row, Selects ctx db session t stmt key₀ row → Reaches db session t path key₀ →
    (assignColumns row (stmt.assignments t.schema)).2 = true →
      ∃ row' key w, setRow t.schema (stmt.assignments t.schema) row = .ok row' ∧ t.keyOf row' = .ok key ∧
      staged[(t.info.name, key)]? = some w

variable {path : AccessPath}

theorem writes_updateRows (h : WellKept db session t) {rows : List Row}
    (hpath : chooseAccessPath ctx.dear t stmt.selection = .ok path)
    (hrows : visibleRows ctx.fmt (chooseAccessPath ctx.dear) db session [] t stmt.selection = .ok rows)
    (hstaged : updateRows t.schema t.info.name (stmt.assignments t.schema) rows ∅ = .ok staged) :
    Writes ctx db session t stmt path staged where
  back key w hw := by
    obtain ⟨old, hold, new, row', hnew, hvalid, hkey, -, rfl⟩ := Session.updateRows_staged hstaged hw
    obtain ⟨key₀, hsees, hreaches, hholds⟩ := (mem_visibleRows ctx.fmt _ h hpath hrows old).mp hold
    refine ⟨key₀, old, row', ⟨hsees, hholds⟩, hreaches, by rw [hnew], ?_, Session.mapError_ok hkey, rfl⟩
    rw [setRow, hnew]
    exact hvalid
  forth key₀ row hselects hreaches hflag := by
    have hin : row ∈ rows := (mem_visibleRows ctx.fmt _ h hpath hrows row).mpr
      ⟨key₀, hselects.seen, hreaches, hselects.holds⟩
    obtain ⟨row', key, hvalid, hkey, hcontains⟩ :=
      (Session.updateRows_covers hstaged).2 row hin _ (Prod.ext rfl hflag)
    rw [ExtTreeMap.contains_eq_isSome_getElem?] at hcontains
    obtain ⟨w, hw⟩ := Option.isSome_iff_exists.mp hcontains
    exact ⟨row', key, w, hvalid, Session.mapError_ok hkey, hw⟩

/-- What the loop over the visible rows stages is about their table. -/
theorem updateRows_table {schema : Schema} {table : String} {matched : List Row} {k : TKey} {w : StagedWrite}
    (hstaged : updateRows schema table set matched ∅ = .ok staged) (hw : staged[k]? = some w) :
      k.1 = table := by
  obtain ⟨-, -, -, -, -, -, -, htable, -⟩ := Session.updateRows_staged hstaged hw
  exact htable

structure PointWrites (t : Table) (set : List (Nat × Datum)) (key : Bytes) (staged : Staged) : Prop where
  back : ∀ (k : TKey) w, staged[k]? = some w → k = (t.info.name, key) ∧ ∃ old row',
    stored t key = some old ∧ (assignColumns old set).2 = true ∧ setRow t.schema set old = .ok row' ∧
      w.row = some row'
  forth : ∀ old, stored t key = some old → (assignColumns old set).2 = true →
    ∃ w, staged[(t.info.name, key)]? = some w

theorem pointWrites_updatePoint (h : WellKept db session t) (hrun : updatePoint t set key = .ok staged) :
    PointWrites t set key staged := by
  obtain ⟨old, hold, hrun⟩ := bind_ok hrun
  have hold := Session.mapError_ok hold
  have hrun := Session.mapError_ok hrun
  have hstored : stored t key = old := by
    cases hraw : t.tree[key]? with
    | none =>
      rw [hraw] at hold
      cases hold
      rw [stored, hraw]
      rfl
    | some raw =>
      obtain ⟨row, hrow, hstored⟩ := decode_stored h hraw
      rw [hraw, Option.mapM_some, hrow] at hold
      cases hold
      exact hstored
  cases old with
  | none =>
    cases hrun
    exact ⟨by simp, fun old hold => by rw [hstored] at hold; cases hold⟩
  | some old =>
    rw [updateKey] at hrun
    split at hrun
    · next hflag =>
      cases hrun
      refine ⟨by simp, fun old' hold' hflag' => ?_⟩
      cases hstored.symm.trans hold'
      rw [hflag] at hflag'
      cases hflag'
    · next new hnew =>
      obtain ⟨row', hvalid, hrun⟩ := bind_ok hrun
      cases hrun
      refine ⟨fun k w hw => ?_, fun _ _ _ => ⟨_, ExtTreeMap.getElem?_insert_self⟩⟩
      rw [ExtTreeMap.getElem?_insert] at hw
      split at hw
      · next heq =>
        cases Std.compare_eq_iff_eq.mp heq
        cases hw
        refine ⟨rfl, old, row', hstored, by rw [hnew], ?_, rfl⟩
        rw [setRow, hnew]
        exact Session.mapError_ok hvalid
      · simp at hw

/-! ## The routes -/

theorem tryFastPointUpdate_some (h : tryFastPointUpdate ctx db session t stmt = .ok (some route)) :
    route = .nothing ∨ session.staged = none ∧ ∃ key set, route = .point key set := by
  obtain ⟨cut, hcut, h⟩ := bind_ok h
  have hcut := Session.mapError_ok hcut
  cases cut with
  | none => cases h
  | some p =>
    have hidle : session.staged = none := by
      by_contra hbusy
      rw [Router.fastPointUpdate, if_pos (Option.isSome_iff_ne_none.mpr hbusy)] at hcut
      cases hcut
    dsimp only at h
    split_ifs at h with hnull hopens hname
    · exact .inl (Option.some.inj (Except.ok.inj h)).symm
    · cases h
    · cases h
    · split at h
      · cases h
      · obtain ⟨key, -, h⟩ := bind_ok h
        exact .inr ⟨hidle, key, _, (Option.some.inj (Except.ok.inj h)).symm⟩

/-- A route of `exec_update`. -/
theorem execRoute_ok (h : execRoute ctx autocommit db session t stmt = .ok route) :
    (session.staged = none ∧ ∃ key set, route = .point key set) ∨
      ∃ path, chooseAccessPath ctx.dear t stmt.selection = .ok path ∧ route = .rows path := by
  have hvisible : (chooseAccessPath ctx.dear t stmt.selection).map Route.rows = .ok route →
      ∃ path, chooseAccessPath ctx.dear t stmt.selection = .ok path ∧ route = .rows path := by
    intro h
    cases hpath : chooseAccessPath ctx.dear t stmt.selection with
    | error e =>
      rw [hpath] at h
      cases h
    | ok path =>
      rw [hpath] at h
      exact ⟨path, rfl, (Except.ok.inj h).symm⟩
  unfold execRoute at h
  split at h
  · cases h
  · split at h
    · next hfast =>
      split at h
      · next lit _ =>
        cases hkey : encodeKey lit with
        | error e =>
          rw [hkey] at h
          cases h
        | ok key =>
          rw [hkey] at h
          rw [Bool.and_eq_true, Bool.and_eq_true] at hfast
          exact .inl ⟨by simpa using hfast.1.2, key, _, (Except.ok.inj h).symm⟩
      · exact .inr (hvisible h)
    · exact .inr (hvisible h)

theorem updateRoute_ok (h : updateRoute ctx autocommit db session t stmt = .ok route) :
    match route with
    | .nothing => True
    | .point _ _ => session.staged = none
    | .rows path => chooseAccessPath ctx.dear t stmt.selection = .ok path := by
  obtain ⟨fast, hfast, h⟩ := bind_ok h
  cases fast with
  | some route' =>
    cases h
    rcases tryFastPointUpdate_some hfast with rfl | ⟨hstaged, key, set, rfl⟩
    · trivial
    · exact hstaged
  | none =>
    rcases execRoute_ok (Session.mapError_ok h) with ⟨hstaged, key, set, rfl⟩ | ⟨path, hpath, rfl⟩
    · exact hstaged
    · exact hpath

theorem sees_iff_stored (h : WellKept db session t) (hstaged : session.staged = none)
    (hpin : session.snapshot = none) : Sees db session t key row ↔ stored t key = some row := by
  have hidle : ¬ Stages session t key := by
    rintro ⟨staged, _, hsome, -⟩
    rw [hstaged] at hsome
    cases hsome
  rw [Sees, visibleRow_unstaged h hidle, lookupVersion, hpin, Mvcc.VersionState.snapshotLookup]
  simp [Except.mapError]

/-! ## Columns other than the key -/

theorem lastLiteral_eq_none {i : Nat} (h : ∀ p ∈ set, p.1 ≠ i) : Session.lastLiteral set i = none := by
  induction set using List.reverseRecOn with
  | nil => rfl
  | append_singleton set p ih =>
    rw [Session.lastLiteral_concat, if_neg (h p (by simp))]
    exact ih fun q hq => h q (by simp [hq])

/-- A row whose key is not assigned keeps it. -/
theorem column_setRow (hset : ∀ p ∈ set, p.1 ≠ t.schema.pkIdx) (hkept : KeptRow t key row)
    (h : setRow t.schema set row = .ok row') :
    Table.column row' t.schema.pkIdx = Table.column row t.schema.pkIdx := by
  rw [Table.column, Table.column, List.getD_eq_getElem?_getD, List.getD_eq_getElem?_getD,
    Session.getElem?_of_not_set hkept.normal h (lastLiteral_eq_none hset)]

theorem keyOf_setRow (hset : ∀ p ∈ set, p.1 ≠ t.schema.pkIdx) (hkept : KeptRow t key row)
    (h : setRow t.schema set row = .ok row') : t.keyOf row' = .ok key := by
  rw [Table.keyOf, column_setRow hset hkept h]
  exact hkept.key

theorem mem_updatedPairs {rows : List Row} {pairs : List (Bytes × Row)} {pair : Bytes × Row}
    (hpairs : updatedPairs t.schema set rows = .ok pairs) (hin : pair ∈ pairs) :
    pair.2 ∈ rows ∧ ∃ row', setRow t.schema set pair.2 = .ok row' ∧ t.keyOf row' = .ok pair.1 := by
  obtain ⟨row, hrow, hpair⟩ := (mem_of_mapM_ok hpairs).mp hin
  obtain ⟨row', hrow', hpair⟩ := bind_ok hpair
  obtain ⟨key, hkey, hpair⟩ := bind_ok hpair
  cases hpair
  exact ⟨List.mem_of_mem_filter hrow, row', Session.mapError_ok hrow', Session.mapError_ok hkey⟩

/-- What the path over the visible rows writes, if it leaves the keys alone. -/
theorem writes_updateVisible (h : WellKept db session t)
    (hset : ∀ p ∈ stmt.assignments t.schema, p.1 ≠ t.schema.pkIdx)
    (hpath : chooseAccessPath ctx.dear t stmt.selection = .ok path)
    (hrun : updateVisible ctx db session t stmt.selection (stmt.assignments t.schema) = .ok staged) :
    Writes ctx db session t stmt path staged ∧ ∀ (k : TKey) w, staged[k]? = some w → k.1 = t.info.name := by
  obtain ⟨rows, hrows, hrun⟩ := bind_ok hrun
  obtain ⟨staged₀, hstaged, hrun⟩ := bind_ok hrun
  obtain ⟨pairs, hpairs, hrun⟩ := bind_ok hrun
  have hrows := Session.mapError_ok hrows
  have hstaged := Session.mapError_ok hstaged
  have hpairs := Session.mapError_ok hpairs
  have hwrites := writes_updateRows h hpath hrows hstaged
  have hsame : staged = staged₀ := by
    split at hrun
    · refine Fk.fkCheckUpdated_kept (fun pair hin new hnew => ?_) hrun
      obtain ⟨hrow, row', hset', hkey⟩ := mem_updatedPairs hpairs hin
      obtain ⟨key, hsees, -, -⟩ := (mem_visibleRows ctx.fmt _ h hpath hrows pair.2).mp hrow
      obtain ⟨w, hw, hnew⟩ := Option.bind_eq_some_iff.mp hnew
      obtain ⟨key₀, old, row'', hold, -, -, hset'', hkey'', hw'⟩ := hwrites.back pair.1 w hw
      cases hw'.symm.trans hnew
      have hpair := keyOf_setRow hset (kept_seen h hsees) hset'
      have hback := keyOf_setRow hset (kept_seen h hold.seen) hset''
      obtain rfl : key = pair.1 := Except.ok.inj (hpair.symm.trans hkey)
      obtain rfl : key₀ = pair.1 := Except.ok.inj (hback.symm.trans hkey'')
      rw [column_setRow hset (kept_seen h hold.seen) hset'', hold.seen.unique hsees]
    · exact (Except.ok.inj hrun).symm
  rw [hsame]
  exact ⟨hwrites, fun k w hw => updateRows_table hstaged hw⟩

def Keeps (ctx : UpdateContext) (db : Database) (session : Session) (t : Table) (stmt : UpdateStmt) : Prop :=
  ∀ key row row', Selects ctx db session t stmt key row →
    setRow t.schema (stmt.assignments t.schema) row = .ok row' → t.keyOf row' = .ok key

def Wrote (ctx : UpdateContext) (db : Database) (session : Session) (t : Table) (stmt : UpdateStmt) :
    Route → Staged → Prop
  | .nothing, staged => staged = ∅
  | .point key set, staged => PointWrites t set key staged
  | .rows path, staged => Writes ctx db session t stmt path staged

/-! ## Which rows are assigned -/

/-- A session that sees what it saw before. -/
theorem assigns_of_same
    (hafter : ∀ key, after autocommit db session t route staged key = seen db session t key) :
    Assigns ctx autocommit db session t stmt route staged ↔
        ∀ key row, ¬ Changes ctx db session t stmt key row := by
  constructor
  · intro hassigns key row hchanges
    obtain ⟨row', hrow', hseen⟩ := hassigns.selected key row hchanges.selects
    rw [hafter, seen_eq_some] at hseen
    exact hchanges.changed (hrow'.trans (congrArg Except.ok (hseen.unique hchanges.selects.seen)))
  · intro hnone
    refine ⟨fun key row hselects => ⟨row, ?_, ?_⟩, fun key _ => hafter key⟩
    · by_contra hchanged
      exact hnone key row ⟨hselects, hchanged⟩
    · rw [hafter, seen_eq_some]
      exact hselects.seen

/-- Each row is written under the key that it was read from. -/
theorem Writes.own (hwrites : Writes ctx db session t stmt path staged)
    (hkeeps : Keeps ctx db session t stmt) {w : StagedWrite}
    (hw : staged[(t.info.name, key)]? = some w) :
    ∃ row row', Selects ctx db session t stmt key row ∧ Reaches db session t path key ∧
      (assignColumns row (stmt.assignments t.schema)).2 = true ∧
        setRow t.schema (stmt.assignments t.schema) row = .ok row' ∧ w.row = some row' := by
  obtain ⟨key₀, row, row', hselects, hreaches, hflag, hrow', hkey, hw'⟩ := hwrites.back key w hw
  cases (hkeeps key₀ row row' hselects hrow').symm.trans hkey
  exact ⟨row, row', hselects, hreaches, hflag, hrow', hw'⟩

theorem assigns_rows (hkept : WellKept db session t) (hkeeps : Keeps ctx db session t stmt)
    (hfresh : Stale autocommit session route = false)
    (hwrites : Writes ctx db session t stmt path staged) :
    Assigns ctx autocommit db session t stmt route staged ↔
      ∀ key row, Changes ctx db session t stmt key row → Reaches db session t path key := by
  have hafter : ∀ key, after autocommit db session t route staged key =
      (staged[(t.info.name, key)]?.map StagedWrite.row).getD (seen db session t key) := fun key =>
    if_neg (by simp [hfresh])
  constructor
  · intro hassigns key row hchanges
    obtain ⟨row', hrow', hseen⟩ := hassigns.selected key row hchanges.selects
    rw [hafter] at hseen
    cases hw : staged[(t.info.name, key)]? with
    | some w =>
      obtain ⟨-, -, -, hreaches, -⟩ := hwrites.own hkeeps hw
      exact hreaches
    | none =>
      rw [hw] at hseen
      have hsame := (seen_eq_some.mp hseen).unique hchanges.selects.seen
      exact absurd (hrow'.trans (congrArg Except.ok hsame)) hchanges.changed
  · intro hreaches
    refine ⟨fun key row hselects => ?_, fun key hnone => ?_⟩
    · rw [hafter]
      cases hw : staged[(t.info.name, key)]? with
      | some w =>
        obtain ⟨row₀, row', hselects₀, -, -, hrow', hw'⟩ := hwrites.own hkeeps hw
        rw [hselects₀.seen.unique hselects.seen] at hrow'
        exact ⟨row', hrow', hw'⟩
      | none =>
        refine ⟨row, ?_, seen_eq_some.mpr hselects.seen⟩
        by_contra hchanged
        have hchanges : Changes ctx db session t stmt key row := ⟨hselects, hchanged⟩
        obtain ⟨row', key', w, hrow', hkey, hw'⟩ := hwrites.forth key row hselects
          (hreaches key row hchanges) (hchanges.flag hkept)
        cases (hkeeps key row row' hselects hrow').symm.trans hkey
        rw [hw] at hw'
        cases hw'
    · rw [hafter]
      cases hw : staged[(t.info.name, key)]? with
      | some w =>
        obtain ⟨row, -, hselects, -⟩ := hwrites.own hkeeps hw
        exact absurd hselects (hnone row)
      | none => rfl

/-- After a point route the row under its key is the stored one with the columns assigned. -/
theorem PointWrites.after_self (hkept : WellKept db session t) (hpin : session.snapshot = none)
    (hidle : session.staged = none) (hwrites : PointWrites t set key staged)
    (hrow : stored t key = some row) :
    ∃ row', setRow t.schema set row = .ok row' ∧
      after autocommit db session t (.point key set) staged key = some row' := by
  rw [after, if_neg (by simp [Stale, hpin])]
  cases hw : staged[(t.info.name, key)]? with
  | some w =>
    obtain ⟨-, old, row', hold, -, hrow', hw'⟩ := hwrites.back _ w hw
    cases hrow.symm.trans hold
    exact ⟨row', hrow', hw'⟩
  | none =>
    refine ⟨row, setRow_of_unchanged (kept_stored hkept hrow) ?_, ?_⟩
    · by_contra hflag
      obtain ⟨w, hw'⟩ := hwrites.forth row hrow (by simpa using hflag)
      rw [hw] at hw'
      cases hw'
    · exact seen_eq_some.mpr ((sees_iff_stored hkept hidle hpin).mpr hrow)

theorem PointWrites.after_of_ne (hpin : session.snapshot = none) (hwrites : PointWrites t set key staged)
    {key' : Bytes} (hne : key' ≠ key) :
    after autocommit db session t (.point key set) staged key' = seen db session t key' := by
  rw [after, if_neg (by simp [Stale, hpin])]
  cases hw : staged[(t.info.name, key')]? with
  | some w => exact absurd (Prod.mk.inj (hwrites.back _ w hw).1).2 hne
  | none => rfl

theorem assigns_point (hkept : WellKept db session t) (hidle : session.staged = none)
    (hfresh : Stale autocommit session (.point key set) = false) (hwrites : PointWrites t set key staged) :
    Assigns ctx autocommit db session t stmt (.point key set) staged ↔
      (∀ key' row, Changes ctx db session t stmt key' row → key' = key) ∧
        ∀ row, stored t key = some row → Hits ctx db session t stmt key set row := by
  have hpin : session.snapshot = none := by simpa [Stale, Route.commits] using hfresh
  have hsees : ∀ {key row}, Sees db session t key row ↔ stored t key = some row := fun {_ _} =>
    sees_iff_stored hkept hidle hpin
  constructor
  · intro hassigns
    refine ⟨fun key' row hchanges => ?_, fun row hrow => ?_⟩
    · by_contra hne
      obtain ⟨row', hrow', hseen⟩ := hassigns.selected key' row hchanges.selects
      rw [hwrites.after_of_ne hpin hne] at hseen
      have hsame := (seen_eq_some.mp hseen).unique hchanges.selects.seen
      exact hchanges.changed (hrow'.trans (congrArg Except.ok hsame))
    · obtain ⟨row', hrow', hafter⟩ := hwrites.after_self hkept hpin hidle hrow
      refine ⟨fun hselects => ?_, fun hnot => ?_⟩
      · obtain ⟨row'', hrow'', hseen⟩ := hassigns.selected key row hselects
        cases hafter.symm.trans hseen
        exact hrow'.trans hrow''.symm
      · have hnone : ∀ row', ¬ Selects ctx db session t stmt key row' := by
          intro row' hselects
          cases (hsees.mp hselects.seen).symm.trans hrow
          exact hnot hselects
        have hsame := hassigns.others key hnone
        rw [hafter, seen_eq_some.mpr (hsees.mpr hrow)] at hsame
        rw [hrow', Option.some.inj hsame]
  · rintro ⟨hkey, hhits⟩
    refine ⟨fun key' row hselects => ?_, fun key' hnone => ?_⟩
    · by_cases heq : key' = key
      · subst heq
        obtain ⟨row', hrow', hafter⟩ := hwrites.after_self hkept hpin hidle (hsees.mp hselects.seen)
        exact ⟨row', ((hhits row (hsees.mp hselects.seen)).selected hselects).symm.trans hrow', hafter⟩
      · refine ⟨row, ?_, (hwrites.after_of_ne hpin heq).trans (seen_eq_some.mpr hselects.seen)⟩
        by_contra hchanged
        exact heq (hkey key' row ⟨hselects, hchanged⟩)
    · by_cases heq : key' = key
      · subst heq
        cases hrow : stored t key' with
        | none =>
          have hnone' : staged[(t.info.name, key')]? = none := by
            by_contra hsome
            obtain ⟨w, hw⟩ := Option.ne_none_iff_exists'.mp hsome
            obtain ⟨-, old, -, hold, -⟩ := hwrites.back _ w hw
            rw [hrow] at hold
            cases hold
          rw [after, if_neg (by simp [hfresh]), hnone']
          rfl
        | some row =>
          obtain ⟨row', hrow', hafter⟩ : ∃ row', setRow t.schema set row = .ok row' ∧
              after autocommit db session t (.point key' set) staged key' = some row' :=
            hwrites.after_self hkept hpin hidle hrow
          cases ((hhits row hrow).other (hnone row)).symm.trans hrow'
          rw [hafter, seen_eq_some.mpr (hsees.mpr hrow)]
      · exact hwrites.after_of_ne hpin heq

/-- While the selected rows keep their keys, the route decides. -/
theorem assigns_iff_leads (hkept : WellKept db session t) (hkeeps : Keeps ctx db session t stmt)
    (hroute : updateRoute ctx autocommit db session t stmt = .ok route)
    (hwrote : Wrote ctx db session t stmt route staged) :
    Assigns ctx autocommit db session t stmt route staged ↔ Leads ctx autocommit db session t stmt route := by
  have hsays := updateRoute_ok hroute
  unfold Leads
  cases hstale : Stale autocommit session route with
  | true =>
    rw [if_pos rfl]
    exact assigns_of_same fun key => if_pos hstale
  | false =>
    rw [if_neg (by simp)]
    cases route with
    | nothing =>
      obtain rfl : staged = ∅ := hwrote
      exact assigns_of_same fun key => by simp [after]
    | point key set => exact assigns_point hkept hsays hstale hwrote
    | rows path => exact assigns_rows hkept hkeeps hstale hwrote

/-- An `UPDATE` of columns other than the key changes exactly the rows that it selects if and
only if its route leads to all of them that change, and to no other. -/
theorem update_exact_iff (hkept : WellKept db session t)
    (hset : ∀ p ∈ stmt.assignments t.schema, p.1 ≠ t.schema.pkIdx)
    (hroute : updateRoute ctx autocommit db session t stmt = .ok route)
    (hrun : runRoute ctx db session t stmt route = .ok staged) :
    Exact ctx autocommit db session t stmt route staged ↔ Leads ctx autocommit db session t stmt route := by
  have hkeeps : Keeps ctx db session t stmt := fun key row row' hselects hrow' =>
    keyOf_setRow hset (kept_seen hkept hselects.seen) hrow'
  obtain ⟨hwrote, helsewhere⟩ : Wrote ctx db session t stmt route staged ∧
      ∀ (k : TKey) w, staged[k]? = some w → k.1 = t.info.name := by
    cases route with
    | nothing =>
      cases hrun
      exact ⟨rfl, by simp⟩
    | point key set =>
      have hwrites := pointWrites_updatePoint hkept hrun
      exact ⟨hwrites, fun k w hw => by rw [(hwrites.back k w hw).1]⟩
    | rows path => exact writes_updateVisible hkept hset (updateRoute_ok hroute) hrun
  rw [← assigns_iff_leads hkept hkeeps hroute hwrote]
  exact ⟨fun h => h.toAssigns, fun h => ⟨h, helsewhere⟩⟩

end

/-! ## One row -/

/-- The key of the row of `items`. -/
def oneKey : Bytes := 1 :: keyInt 1

/-- The row `(1, 0)`. -/
def items : Table :=
  { Fk.intTable "default.items" ["id", "v"] [] with
    tree := (∅ : ExtTreeMap Bytes Bytes).insert oneKey (encodeRow [.int 1, .int 0]) }

def itemsDb : Database where
  catalog := ⟨(∅ : ExtTreeSet String).insert "default",
    (∅ : ExtTreeMap String Table).insert "default.items" items⟩
  versions := .new
  visibleEpoch := 0
  privs := ⟨∅⟩
  readOnly := false
  named key t h := by
    rw [ExtTreeMap.getElem?_insert] at h
    split at h
    · next heq =>
      cases Std.compare_eq_iff_eq.mp heq
      cases h
      exact ⟨rfl, by decide⟩
    · simp at h

/-- A session of its own, outside a transaction. -/
def itemsSession : Session :=
  ⟨superuser, "default", none, none, true, none, none, none, none⟩

def itemsContext : UpdateContext where
  parseFloat := fun _ => none
  opens := fun name => name = "items"
  fmt := ⟨fun _ => "", fun _ => ""⟩
  print := fun _ => ""
  dear := fun _ _ _ => false
  orders := .forward
  rows := ∅
  fuel := 0

theorem decode_items : items.decodeStored (encodeRow [.int 1, .int 0]) = .ok [.int 1, .int 0] :=
  decodeRow_encodeRow rfl (by simp [Datum.Sized])

theorem items_tree {key raw : Bytes} (h : items.tree[key]? = some raw) :
    key = oneKey ∧ raw = encodeRow [.int 1, .int 0] := by
  rw [items, ExtTreeMap.getElem?_insert] at h
  split at h
  · next heq => exact ⟨(Std.compare_eq_iff_eq.mp heq).symm, (Option.some.inj h).symm⟩
  · simp at h

theorem stored_items : stored items oneKey = some [.int 1, .int 0] := by
  rw [stored, items, ExtTreeMap.getElem?_insert_self, ← items, Option.bind_some, decode_items]
  rfl

theorem wellKept_items : WellKept itemsDb itemsSession items where
  tree key raw h := by
    obtain ⟨rfl, rfl⟩ := items_tree h
    exact ⟨_, decode_items, Fk.normal_intTable rfl (by simp), rfl⟩
  history key chain h := by simp [itemsDb, Mvcc.VersionState.new] at h
  staged staged h := by cases h

theorem free_items : fkInvolved itemsDb items = false := by
  rw [fkInvolved, show items.info.foreignKeys = [] from rfl, Fk.fkIsReferenced, List.isEmpty_nil,
    Bool.not_true,
    Bool.false_or, List.any_eq_false]
  intro e he
  have hget := ExtTreeMap.mem_toList_iff_getElem?_eq_some.mp he
  rw [show itemsDb.catalog.tables = (∅ : ExtTreeMap String Table).insert "default.items" items from rfl,
    ExtTreeMap.getElem?_insert] at hget
  split at hget
  · rw [← Option.some.inj hget]
    decide
  · simp at hget

/-- `UPDATE items` with a condition. -/
def updateItems (text : String) (set : List (String × Datum)) (sel : Expr) (h : hasSubquery sel = false) :
    UpdateStmt where
  text := text.toList
  set
  selection := some sel
  plain sel' h' := by
    cases h'
    exact h

def idIsOne : Expr := .cmp (.column "id") .eq (.literal (.int 1))

theorem plain_idIsOne : hasSubquery idIsOne = false := rfl

/-- The point that the planner finds in the condition, beside the scan. -/
theorem paths_within_full_scan_items :
    visibleRows itemsContext.fmt (chooseAccessPath itemsContext.dear) itemsDb itemsSession [] items
      (some idIsOne) = .ok [[.int 1, .int 0]] ∧
    chooseAccessPath itemsContext.dear items (some idIsOne) = .ok (.point (.int 1)) ∧
    ∃ key, Sees itemsDb itemsSession items key [.int 1, .int 0] ∧
      Holds itemsContext.fmt items (some idIsOne) [.int 1, .int 0] := by
  have hrows : visibleRows itemsContext.fmt (chooseAccessPath itemsContext.dear) itemsDb itemsSession [] items
      (some idIsOne) = .ok [[.int 1, .int 0]] := by decide +kernel
  have hall : visibleRows itemsContext.fmt (fun _ _ => .ok .fullScan) itemsDb itemsSession [] items
      (some idIsOne) = .ok [[.int 1, .int 0]] := by decide +kernel
  obtain ⟨hscan, hwithin⟩ := paths_within_full_scan _ _ wellKept_items hrows hall
  exact ⟨hrows, rfl, (hscan _).mp (hwithin List.mem_cons_self)⟩

def setV : UpdateStmt :=
  updateItems "UPDATE items SET v = 1 WHERE id = 1" [("v", .int 1)] idIsOne plain_idIsOne

def setVAnd : UpdateStmt :=
  updateItems "UPDATE items SET v = 1 WHERE id = 1 AND v = 5" [("v", .int 1)]
    (.and idIsOne (.cmp (.column "v") .eq (.literal (.int 5)))) rfl

/-- A text that is not cut has the key of its condition, and the row under it is assigned. -/
theorem route_items {text : String} {set : List (String × Datum)} {sel : Expr} {h : hasSubquery sel = false}
    (htext : Router.fastPointUpdate itemsContext.parseFloat false text.toList = .ok none)
    (hset : set.find? (fun p => (items.schema.indexOf p.1).isNone) = none)
    (hpath : accessPath items (some sel) = .point (.int 1)) :
    updateRoute itemsContext true itemsDb itemsSession items (updateItems text set sel h) =
      .ok (.point oneKey ((updateItems text set sel h).assignments items.schema)) := by
  have hfast : tryFastPointUpdate itemsContext itemsDb itemsSession items (updateItems text set sel h) =
      .ok none := by
    rw [tryFastPointUpdate, show (updateItems text set sel h).text = text.toList from rfl,
      show itemsSession.staged.isSome = false from rfl, htext]
    rfl
  rw [updateRoute, hfast]
  show (execRoute itemsContext true itemsDb itemsSession items
    (updateItems text set sel h)).mapError Fault.err = _
  rw [execRoute, show (updateItems text set sel h).set = set from rfl, hset]
  simp only [free_items]
  rw [show (updateItems text set sel h).selection = some sel from rfl, hpath]
  rfl

/-- A text that is cut has its own key and its own value. -/
theorem route_cut {stmt : UpdateStmt} (column : List Char) {i : Nat} {value : Datum}
    (hcut : Router.fastPointUpdate itemsContext.parseFloat false stmt.text =
      .ok (some ⟨"items".toList, column, value, "id".toList, .int 1⟩))
    (hcolumn : items.schema.indexOf (String.ofList column) = some i) :
    updateRoute itemsContext true itemsDb itemsSession items stmt = .ok (.point oneKey [(i, value)]) := by
  have hfast : tryFastPointUpdate itemsContext itemsDb itemsSession items stmt =
      .ok (some (.point oneKey [(i, value)])) := by
    rw [tryFastPointUpdate, show itemsSession.staged.isSome = false from rfl, hcut]
    simp only [Except.mapError, bind, Except.bind, free_items, hcolumn]
    rfl
  rw [updateRoute, hfast]
  rfl

theorem updatePoint_items (set : List (Nat × Datum)) : updatePoint items set oneKey =
    (updateKey items.schema "default.items" oneKey set (some [.int 1, .int 0])).mapError stmtHalt := by
  have hraw : items.tree[oneKey]? = some (encodeRow [.int 1, .int 0]) := ExtTreeMap.getElem?_insert_self
  rw [updatePoint, hraw, Option.mapM_some, decode_items]
  rfl

theorem seen_items : seen itemsDb itemsSession items oneKey = some [.int 1, .int 0] :=
  seen_eq_some.mpr ((sees_iff_stored wellKept_items rfl rfl).mpr stored_items)

theorem key_of_sees_items {key : Bytes} {row : Row} (h : Sees itemsDb itemsSession items key row) :
    key = oneKey := by
  obtain ⟨raw, hraw, -⟩ := Option.bind_eq_some_iff.mp ((sees_iff_stored wellKept_items rfl rfl).mp h)
  exact (items_tree hraw).1

/-- The row `(1, 1)` in place of `(1, 0)`. -/
def oneOne : Staged := (∅ : Staged).insert ("default.items", oneKey) ⟨some [.int 1, .int 1], false⟩

theorem run_items {stmt : UpdateStmt} :
    runRoute itemsContext itemsDb itemsSession items stmt (.point oneKey [(1, .int 1)]) = .ok oneOne :=
  updatePoint_items [(1, .int 1)]

/-- The row under the key of the text is the one that the condition selects. -/
theorem update_exact_items :
    Exact itemsContext true itemsDb itemsSession items setV (.point oneKey [(1, .int 1)]) oneOne :=
  (update_exact_iff wellKept_items (by decide) (route_cut ['v'] (by decide) (by decide)) run_items).mpr (by
    refine ⟨fun key row hchanges => key_of_sees_items hchanges.selects.seen, fun row hrow => ?_⟩
    cases stored_items.symm.trans hrow
    exact ⟨fun _ => rfl, fun hnot => absurd
      ⟨(sees_iff_stored wellKept_items rfl rfl).mpr stored_items, rfl⟩ hnot⟩)

/-- `UPDATE items SET v = 1 WHERE id = 1 AND v = 5` changes the row, although its `v` is 0. -/
theorem update_ignores_condition :
    updateRoute itemsContext true itemsDb itemsSession items setVAnd = .ok (.point oneKey [(1, .int 1)]) ∧
    runRoute itemsContext itemsDb itemsSession items setVAnd (.point oneKey [(1, .int 1)]) = .ok oneOne ∧
    ¬ Exact itemsContext true itemsDb itemsSession items setVAnd (.point oneKey [(1, .int 1)]) oneOne := by
  refine ⟨route_items (by decide) (by decide) rfl, run_items, fun hexact => ?_⟩
  have hnone : ∀ row, ¬ Selects itemsContext itemsDb itemsSession items setVAnd oneKey row := by
    intro row hselects
    cases seen_items.symm.trans (seen_eq_some.mpr hselects.seen)
    cases hselects.holds
  have hafter := hexact.others oneKey hnone
  rw [after, if_neg (by decide), seen_items, show items.info.name = "default.items" from rfl, oneOne,
    ExtTreeMap.getElem?_insert_self] at hafter
  cases hafter

end HenchDB.Query
