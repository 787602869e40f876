import HenchDB.Session.Columns
import HenchDB.Session.Unique

/-!
# A transaction that runs alone

With no other session a statement in autocommit goes through all phases of its
commit before the next one runs, and a transaction goes through them once, at
its `COMMIT`.  Inside the transaction a statement sees the rows of the trees with
the staged rows laid over, which are the rows that autocommit has in the trees
by then (`Matches`), so that it stages and returns the same.

Three things differ.  Outside a transaction an `UPDATE` whose `WHERE` clause fixes
the key takes the point path, which reads neither the other conditions nor, for
some texts, the same literals.  The checks of foreign keys seek the indexes of the
trees, which do not have the rows that the transaction has staged (`Dml.Exact`).  And
a row that was deleted and
inserted again is staged with `is_insert` while the tree still holds the old one,
so that `COMMIT` refuses it (`Engine.lastWrite`).
-/

namespace HenchDB.Session

open Std (ExtTreeMap ExtTreeSet)

/-! ## Statements that write -/

/-- The checks and actions of foreign keys.  They seek the indexes of the trees, which
have the rows of the first argument, and look up the rows in view, the second one. -/
abbrev FkCheck (α : Type) := Rows → Rows → Except StmtError α

/-- A statement that writes, with its names resolved. -/
inductive Dml where
  /-- `INSERT`. -/
  | insert (text table : String) (rows : List Row) (fk : FkCheck Unit)
  /-- `UPDATE` that is not on the point path. -/
  | update (table : String) (cond : Rows → Row → Bool) (set : List (Nat × Datum))
      (fk : FkCheck (List (TKey × Option Row)))
  /-- `UPDATE` that takes the point path outside a transaction: the key that it
  fixes, and the assignments as that path reads them. -/
  | updatePoint (table : String) (cond : Rows → Row → Bool) (set : List (Nat × Datum))
      (key : Bytes) (read : List (Nat × Datum))
  /-- `DELETE`. -/
  | delete (table : String) (cond : Rows → Row → Bool) (fk : FkCheck (List (TKey × Option Row)))

namespace Dml

/-- How it runs outside a transaction: the rows in view are those of the trees. -/
def direct : Dml → Stmt
  | insert text table rows fk => .insert text table rows fun view => fk view view
  | update table cond set fk => .update table cond set fun view => fk view view
  | updatePoint table _ _ key read => .updatePoint table key read
  | delete table cond fk => .delete table cond fun view => fk view view

/-- How it runs inside one.  The tables of the point path have no foreign keys. -/
def staged (trees : Rows) : Dml → Stmt
  | insert text table rows fk => .insert text table rows (fk trees)
  | update table cond set fk => .update table cond set (fk trees)
  | updatePoint table cond set _ _ => .update table cond set fun _ => .ok []
  | delete table cond fk => .delete table cond (fk trees)

/-- An `UPDATE` does not assign the primary key. -/
def LeavesKey (schemas : Schemas) : Dml → Prop
  | updatePoint table _ set _ _ =>
    ∀ schema, schemas[table]? = some schema → lastLiteral set schema.pkIdx = none
  | update table _ set _ =>
    ∀ schema, schemas[table]? = some schema → lastLiteral set schema.pkIdx = none
  | _ => True

/-- The point path stands for the `WHERE` clause: it reads the assignments as
they are, the clause selects the row under the key and no other, and that row is
under its own key.  And the foreign keys are checked over the indexes of the trees as
they would be over those of the rows in view. -/
def Exact (schemas : Schemas) (trees rows : Rows) : Dml → Prop
  | insert _ _ _ fk => fk trees rows = fk rows rows
  | update _ _ _ fk => fk trees rows = fk rows rows
  | delete _ _ fk => fk trees rows = fk rows rows
  | updatePoint table cond set key read =>
    read = set ∧ matching rows table cond = rows[(table, key)]?.toList ∧
      ∀ row, rows[(table, key)]? = some row → Kept schemas (table, key) row

end Dml

/-! ## Both ways to run them -/

/-- What `commit_txn` looks at before the commit lock: the tables and the length
of the rows. -/
def Staged.fits (schemas : Schemas) (staged : Staged) : Bool :=
  staged.toList.all fun e =>
    schemas.contains e.1.1 && e.2.row.all fun row => (encodeRow row).length ≤ maxValueLen

namespace Engine

/-- No session is in a transaction or in a commit. -/
structure Quiet (s : Engine) : Prop where
  sessions : ∀ r, s.sessions r = .idle
  flights : s.flights = []
  returning : s.returning = []
  inFlight : s.inFlight = ∅

/-- What a statement would return, if it succeeds. -/
def output (s : Engine) (r : Nat) (stmt : Stmt) : Option Output :=
  (s.attempt r stmt s.rows).2.result.toOption.map Prod.snd

/-- The phases of a commit, one after the other; an error of `commit_txn` is
none. -/
def settle (s : Engine) (r : Nat) : Option Engine :=
  match s.sessions r with
  | .idle => some s
  | .committing t =>
    if t.staged.fits s.schemas then do
      let s ← s.append r
      let s ← (s.sync 1).install
      s.finish 0
    else none
  | _ => none

def autocommit (r : Nat) (s : Engine) (d : Dml) : Option (Engine × Output) := do
  let out ← s.output r d.direct
  let s ← s.execute r d.direct true none
  return (← s.settle r, out)

/-- One statement inside a transaction. -/
def stage (r : Nat) (s : Engine) (d : Dml) : Option (Engine × Output) := do
  let out ← s.output r (d.staged s.rows)
  return (← s.execute r (d.staged s.rows) true none, out)

/-- Statements one after the other, with what they return. -/
def runAll (run : Engine → Dml → Option (Engine × Output)) :
    Engine → List Dml → Option (Engine × List Output)
  | s, [] => some (s, [])
  | s, d :: ds => do
    let (s, out) ← run s d
    let (s, outs) ← runAll run s ds
    return (s, out :: outs)

/-- `BEGIN`, the statements and `COMMIT`. -/
def transaction (s : Engine) (r : Nat) (ds : List Dml) : Option (Engine × List Output) := do
  let s ← s.begin r
  let (s, outs) ← runAll (stage r) s ds
  let s ← s.commit r
  return (← s.settle r, outs)

/-- Every statement of a run in autocommit is exact, over trees that keep their rows. -/
def AllExact (r : Nat) (trees : Rows) : Engine → List Dml → Prop
  | _, [] => True
  | s, d :: ds => d.Exact s.schemas trees s.rows ∧
      ∀ s' out, s.autocommit r d = some (s', out) → AllExact r trees s' ds

/-- What the last statement to write a row stages for it, in a run in
autocommit. -/
def lastWrite (r : Nat) : Engine → List Dml → TKey → Option StagedWrite
  | _, [], _ => none
  | s, d :: ds, k =>
    match s.autocommit r d with
    | none => none
    | some (s', _) =>
      (lastWrite r s' ds k).or (s.attempt r d.direct s.rows).2.staged[k]?

end Engine

/-! ## The point path and the `WHERE` clause -/

section Point

variable {schemas : Schemas} {schema : Schema} {trees rows : Rows} {table : String} {key : Bytes}
  {set : List (Nat × Datum)}

/-- On the row under the key both loops stage the same. -/
theorem updateRows_toList {old : Option Row} (hset : lastLiteral set schema.pkIdx = none)
    (hold : ∀ row, old = some row → schema.Normal row ∧ rowKey schema row = .ok key) :
    updateRows schema table set old.toList ∅ = updateKey schema table key set old := by
  cases old with
  | none => rfl
  | some row =>
    obtain ⟨hnormal, hkey⟩ := hold row rfl
    rw [Option.toList_some, updateRows, updateKey]
    split
    · rfl
    · next new hnew =>
      cases hvalid : schema.validateRow new with
      | error e => rfl
      | ok row' =>
        have hassigned : schema.validateRow (assignColumns row set).1 = .ok row' := by
          rw [hnew]
          exact hvalid
        have hkey' := (rowKey_of_assign hnormal hassigned hset).trans hkey
        simp only [Except.mapError, bind, Except.bind, hkey', updateRows, pure, Except.pure]

/-- An exact statement does the same on both paths. -/
theorem Dml.exec_staged {d : Dml} (hkey : d.LeavesKey schemas)
    (hexact : d.Exact schemas trees rows) (incs : AutoIncs) :
    (d.staged trees).exec schemas incs rows = d.direct.exec schemas incs rows := by
  cases d with
  | insert text table new fk =>
    have hfk : fk trees rows = fk rows rows := hexact
    simp only [Dml.staged, Dml.direct, Stmt.exec, hfk]
  | update table cond set fk =>
    have hfk : fk trees rows = fk rows rows := hexact
    simp only [Dml.staged, Dml.direct, Stmt.exec, hfk]
  | delete table cond fk =>
    have hfk : fk trees rows = fk rows rows := hexact
    simp only [Dml.staged, Dml.direct, Stmt.exec, hfk]
  | updatePoint table cond set key read =>
    obtain ⟨rfl, hmatching, hkept⟩ := hexact
    simp only [Dml.staged, Dml.direct, Stmt.exec, schemaOf, hmatching]
    rcases Option.eq_none_or_eq_some schemas[table]? with hnone | ⟨schema, hschema⟩
    · rw [hnone]
      rfl
    · have hloops : updateRows schema table read rows[(table, key)]?.toList ∅ =
          updateKey schema table key read rows[(table, key)]? := by
        refine updateRows_toList (hkey schema hschema) fun row hrow => ?_
        obtain ⟨schema', hschema', hnormal, hrowKey⟩ := hkept row hrow
        cases hschema'.symm.trans hschema
        exact ⟨hnormal, hrowKey⟩
      rw [hschema]
      simp only [bind, Except.bind, hloops]
      cases updateKey schema table key read rows[(table, key)]? <;> rfl

end Point

/-! ## A commit with nobody else -/

/-- `commit_txn` accepts the staged rows. -/
def Staged.Commits (schemas : Schemas) (rows : Rows) (staged : Staged) : Prop :=
  staged.fits schemas = true ∧ ∀ k ∈ staged.inserted, rows.contains k = false

theorem Staged.fits_iff {schemas : Schemas} {staged : Staged} :
    staged.fits schemas = true ↔ ∀ (k : TKey) (w : StagedWrite), staged[k]? = some w →
      (schemas.contains k.1 && w.row.all fun row => (encodeRow row).length ≤ maxValueLen) = true := by
  rw [Staged.fits, List.all_eq_true]
  constructor
  · intro h k w hw
    exact h (k, w) (ExtTreeMap.mem_toList_iff_getElem?_eq_some.mpr hw)
  · rintro h ⟨k, w⟩ hmem
    exact h k w (ExtTreeMap.mem_toList_iff_getElem?_eq_some.mp hmem)

/-- Writes laid over others fit if both do. -/
theorem Staged.fits_extend {schemas : Schemas} {staged more : Staged}
    (h : staged.fits schemas = true) (hmore : more.fits schemas = true) :
    (staged.extend more).fits schemas = true := by
  rw [fits_iff] at *
  intro k w hw
  rw [getElem?_extend] at hw
  rcases Option.or_eq_some_iff.mp hw with hw | ⟨-, hw⟩
  · exact hmore k w hw
  · exact h k w hw

/-- The marks of the staged keys are all removed. -/
theorem foldl_erase_eq_empty : ∀ {keys : List TKey} {marks : ExtTreeSet TKey},
    (∀ k, marks.contains k = true → k ∈ keys) → keys.foldl (fun marks k => marks.erase k) marks = ∅
  | [], marks, h => by
    refine ExtTreeSet.ext_contains fun k => ?_
    rw [List.foldl_nil, ExtTreeSet.contains_empty]
    cases hk : marks.contains k with
    | false => rfl
    | true => exact absurd (h k hk) List.not_mem_nil
  | k :: keys, marks, h => by
    rw [List.foldl_cons]
    refine foldl_erase_eq_empty fun k' hk' => ?_
    rw [ExtTreeSet.contains_erase, Bool.and_eq_true, bne_iff_ne] at hk'
    rcases List.mem_cons.mp (h k' hk'.2) with rfl | hmem
    · exact absurd Std.ReflCmp.compare_self hk'.1
    · exact hmem

namespace Engine

variable {s s' : Engine} {r : Nat} {t : Txn}

/-- Only one session runs, and it is not behind an append. -/
structure Only (s : Engine) (r : Nat) : Prop where
  sessions : ∀ r', r' ≠ r → s.sessions r' = .idle
  flights : s.flights = []
  returning : s.returning = []
  inFlight : s.inFlight = ∅

theorem Quiet.only (h : s.Quiet) (r : Nat) : s.Only r where
  sessions := fun r' _ => h.sessions r'
  flights := h.flights
  returning := h.returning
  inFlight := h.inFlight

theorem Only.setSession (h : s.Only r) (state : SessionState) : (s.setSession r state).Only r where
  sessions := fun r' hr => (Function.update_of_ne hr _ _).trans (h.sessions r' hr)
  flights := h.flights
  returning := h.returning
  inFlight := h.inFlight

theorem Only.quiet (h : s.Only r) : (s.setSession r .idle).Quiet where
  sessions := by
    intro r'
    rcases eq_or_ne r' r with rfl | hr
    · exact Function.update_self _ _ _
    · exact (h.setSession .idle).sessions r' hr
  flights := h.flights
  returning := h.returning
  inFlight := h.inFlight

/-- The marks of a commit that ran alone are gone when it returns. -/
theorem marks_removed (staged : Staged) :
    (if staged.inserted.isEmpty then (∅ : ExtTreeSet TKey).insertMany staged.inserted
      else staged.keys.foldl (fun marks k => marks.erase k)
        ((∅ : ExtTreeSet TKey).insertMany staged.inserted)) =
        ∅ := by
  split
  · next hnone =>
    rw [List.isEmpty_iff.mp hnone]
    rfl
  · refine foldl_erase_eq_empty fun k hk => ?_
    rw [ExtTreeSet.contains_insertMany_list, ExtTreeSet.contains_empty, Bool.false_or] at hk
    obtain ⟨w, hw, -⟩ := mem_inserted.mp (List.contains_iff_mem.mp hk)
    rw [ExtTreeMap.mem_keys, ExtTreeMap.mem_iff_isSome_getElem?, hw]
    rfl

/-- The phases of a commit with nobody else, from its entry. -/
theorem settle_committing (h : s.Only r) (ht : s.sessions r = .committing t)
    (hcommits : t.staged.Commits s.schemas s.rows) :
    ∃ s', s.settle r = some s' ∧ s'.Quiet ∧ s'.rows = view s.rows t.staged ∧
      s'.autoIncs = s.autoIncs ∧ s'.schemas = s.schemas := by
  have hfree : (t.staged.inserted.any fun k => s.rows.contains k || s.inFlight.contains k) = false := by
    rw [List.any_eq_false]
    intro k hk
    rw [hcommits.2 k hk, h.inFlight, ExtTreeSet.contains_empty]
    decide
  simp only [settle, ht, hcommits.1, if_true, append, hfree, Bool.false_eq_true, if_false, bind,
    Option.bind, sync, install, finish, h.flights, h.returning, setSession_returning,
    List.nil_append, List.take_succ_cons, List.take_nil, List.map_cons, List.map_nil]
  refine ⟨_, rfl, ⟨?_, rfl, rfl, ?_⟩, rfl, rfl, rfl⟩
  · exact ((h.setSession .busy).quiet).sessions
  · rw [h.inFlight]
    exact marks_removed t.staged

/-- Such a commit is refused otherwise. -/
theorem commits_of_settle (h : s.Only r) (ht : s.sessions r = .committing t)
    (hs : s.settle r = some s') : t.staged.Commits s.schemas s.rows := by
  simp only [settle, ht] at hs
  split at hs
  · next hfits =>
    refine ⟨hfits, fun k hk => ?_⟩
    obtain ⟨s₁, happend, hs⟩ := Option.bind_eq_some_iff.mp hs
    simp only [append, ht] at happend
    split at happend
    · cases happend
      obtain ⟨s₂, hinstall, -⟩ := Option.bind_eq_some_iff.mp hs
      simp [install, sync, h.flights] at hinstall
    · next hfree =>
      rw [Bool.not_eq_true, List.any_eq_false] at hfree
      have hk := hfree k hk
      rw [Bool.not_eq_true, Bool.or_eq_false_iff] at hk
      exact hk.1
  · cases hs

/-- What a commit does to the rows when nobody else runs, whether or not it
stages any. -/
theorem settle_commitTxn (h : s.Only r) (hcommits : t.staged.Commits s.schemas s.rows) :
    ∃ s', (s.commitTxn r t).settle r = some s' ∧ s'.Quiet ∧ s'.rows = view s.rows t.staged ∧
      s'.autoIncs = s.autoIncs ∧ s'.schemas = s.schemas := by
  rw [commitTxn]
  split
  · next hempty =>
    have hack : (s.acknowledge t).Only r := ⟨h.sessions, h.flights, h.returning, h.inFlight⟩
    refine ⟨(s.acknowledge t).setSession r .idle, ?_, hack.quiet, ?_, rfl, rfl⟩
    · rw [settle, hack.quiet.sessions r]
    · rw [ExtTreeMap.isEmpty_iff.mp hempty, view_empty]
      rfl
  · exact settle_committing (h.setSession _) (Function.update_self _ _ _) hcommits

theorem commits_of_settle_commitTxn (h : s.Only r) (hs : (s.commitTxn r t).settle r = some s') :
    t.staged.Commits s.schemas s.rows := by
  rw [commitTxn] at hs
  split at hs
  · next hempty =>
    rw [ExtTreeMap.isEmpty_iff.mp hempty]
    exact ⟨rfl, fun k hk => nomatch hk⟩
  · have honly : (s.setSession r (.committing t)).Only r := h.setSession _
    have hcommits := commits_of_settle honly (Function.update_self _ _ _) hs
    exact hcommits

/-! ## Statement by statement -/

/-- A transaction is at the point where autocommit is: the rows that it sees are
the rows that autocommit has in the trees. -/
structure Matches (r : Nat) (a b : Engine) (t : Txn) : Prop where
  quiet : a.Quiet
  only : b.Only r
  active : b.sessions r = .active t
  schemas : a.schemas = b.schemas
  autoIncs : a.autoIncs = b.autoIncs
  rows : a.rows = view b.rows t.staged

variable {a a' b : Engine} {d : Dml} {out : Output}

/-- What a statement outside a transaction does. -/
theorem execute_idle {stmt : Stmt} {p : Staged × Output} (hs : s.sessions r = .idle)
    (hok : (s.attempt r stmt s.rows).2.result = .ok p) :
    s.execute r stmt true none =
      some ({ s with autoIncs := (s.attempt r stmt s.rows).1 }.commitTxn r
        (Txn.empty.run (s.attempt r stmt s.rows).2)) := by
  simp only [execute, base, hs, hok, commitStagedOrStage]
  cases stmt <;> rfl

/-- What a statement inside one does. -/
theorem execute_active {d : Dml} {trees : Rows} (hs : s.sessions r = .active t) :
    s.execute r (d.staged trees) true none =
      some ({ s with autoIncs := (s.attempt r (d.staged trees) s.rows).1 }.setSession r
        (.active (t.run (s.attempt r (d.staged trees) s.rows).2))) := by
  simp only [execute, base, hs, commitStagedOrStage]
  cases d <;> rfl

theorem output_eq_some {stmt : Stmt} :
    s.output r stmt = some out ↔ ∃ staged, (s.attempt r stmt s.rows).2.result = .ok (staged, out) := by
  rw [output]
  cases (s.attempt r stmt s.rows).2.result with
  | error e => simp [Except.toOption]
  | ok p =>
    obtain ⟨staged, out'⟩ := p
    simp [Except.toOption]

/-- A statement in autocommit that succeeds, with what it staged. -/
theorem autocommit_spec (ha : a.Quiet) (h : a.autocommit r d = some (a', out)) :
    ∃ staged, (a.attempt r d.direct a.rows).2.result = .ok (staged, out) ∧
      staged.Commits a.schemas a.rows ∧ a'.Quiet ∧ a'.rows = view a.rows staged ∧
      a'.autoIncs = (a.attempt r d.direct a.rows).1 ∧ a'.schemas = a.schemas := by
  obtain ⟨out', hout, h⟩ := Option.bind_eq_some_iff.mp h
  obtain ⟨a₁, hexec, h⟩ := Option.bind_eq_some_iff.mp h
  obtain ⟨a₂, hsettle, h⟩ := Option.bind_eq_some_iff.mp h
  cases h
  obtain ⟨staged, hok⟩ := output_eq_some.mp hout
  cases (execute_idle (ha.sessions r) hok).symm.trans hexec
  have hstaged : (Txn.empty.run (a.attempt r d.direct a.rows).2).staged = staged := by
    simp [Txn.run, Txn.empty, Executed.staged, hok]
  have honly : { a with autoIncs := (a.attempt r d.direct a.rows).1 }.Only r :=
    ⟨fun r' _ => ha.sessions r', ha.flights, ha.returning, ha.inFlight⟩
  have hcommits := commits_of_settle_commitTxn honly hsettle
  obtain ⟨a₃, hsettle', hquiet, hrows, hincs, hschemas⟩ := settle_commitTxn honly hcommits
  cases hsettle'.symm.trans hsettle
  rw [hstaged] at hcommits hrows
  exact ⟨staged, hok, hcommits, hquiet, hrows, hincs, hschemas⟩

/-- The statements of the transaction stage what those of autocommit commit. -/
theorem Matches.stage (h : Matches r a b t) (hkey : d.LeavesKey a.schemas)
    (hexact : d.Exact a.schemas b.rows a.rows) (hauto : a.autocommit r d = some (a', out)) :
    ∃ b' e, b.stage r d = some (b', out) ∧ Matches r a' b' (t.run e) ∧ b'.rows = b.rows ∧
      e.staged = (a.attempt r d.direct a.rows).2.staged ∧ e.staged.fits b.schemas = true := by
  obtain ⟨staged, hok, hcommits, hquiet, hrows, hincs, hschemas⟩ := autocommit_spec h.quiet hauto
  -- Outside the transaction nothing is staged, inside `t.staged` is; both see the same rows.
  have hseen : view a.rows (a.txnOf r).staged = a.rows := by
    rw [txnOf, h.quiet.sessions r]
    exact view_empty a.rows
  have hseen' : view b.rows (b.txnOf r).staged = a.rows := by
    rw [txnOf, h.active, h.rows]
  have hexec : (d.staged b.rows).exec b.schemas b.autoIncs a.rows =
      d.direct.exec a.schemas a.autoIncs a.rows := by
    rw [← h.schemas, ← h.autoIncs]
    exact Dml.exec_staged hkey hexact a.autoIncs
  have hresult : (b.attempt r (d.staged b.rows) b.rows).2.result =
    (a.attempt r d.direct a.rows).2.result := by
    simp only [attempt, hseen, hseen', hexec]
  have hincs' : (b.attempt r (d.staged b.rows) b.rows).1 = (a.attempt r d.direct a.rows).1 := by
    simp only [attempt, hseen, hseen', hexec]
  have hstaged : (b.attempt r (d.staged b.rows) b.rows).2.staged = staged := by
    rw [Executed.staged, hresult, hok]
  have honly : { b with autoIncs := (b.attempt r (d.staged b.rows) b.rows).1 }.Only r :=
    ⟨h.only.sessions, h.only.flights, h.only.returning, h.only.inFlight⟩
  refine ⟨{ b with autoIncs := (b.attempt r (d.staged b.rows) b.rows).1 }.setSession r
    (.active (t.run (b.attempt r (d.staged b.rows) b.rows).2)),
    (b.attempt r (d.staged b.rows) b.rows).2, ?_, ?_, rfl, ?_, ?_⟩
  · rw [Engine.stage, output_eq_some.mpr ⟨staged, hresult.trans hok⟩, execute_active h.active]
    rfl
  · exact {
      quiet := hquiet
      only := honly.setSession _
      active := Function.update_self _ _ _
      schemas := hschemas.trans h.schemas
      autoIncs := hincs.trans hincs'.symm
      rows := by
        rw [hrows, h.rows, Txn.run, hstaged]
        exact (view_extend b.rows t.staged staged).symm }
  · rw [hstaged, Executed.staged, hok]
  · rw [hstaged, ← h.schemas]
    exact hcommits.1

theorem Matches.runAll {ds : List Dml} {outs : List Output} (h : Matches r a b t)
    (hkeys : ∀ d ∈ ds, d.LeavesKey a.schemas) (hexact : AllExact r b.rows a ds)
    (hfits : t.staged.fits b.schemas = true)
    (hauto : runAll (autocommit r) a ds = some (a', outs)) :
    ∃ b' t', runAll (Engine.stage r) b ds = some (b', outs) ∧ Matches r a' b' t' ∧ b'.rows = b.rows ∧
      t'.staged.fits b'.schemas = true ∧
      ∀ k : TKey, t'.staged[k]? = (lastWrite r a ds k).or t.staged[k]? := by
  induction ds generalizing a b t outs with
  | nil =>
    cases hauto
    exact ⟨b, t, rfl, h, rfl, hfits, fun k => rfl⟩
  | cons d ds ih =>
    obtain ⟨⟨a₁, out⟩, hstep, hauto⟩ := Option.bind_eq_some_iff.mp hauto
    obtain ⟨⟨a₂, outs'⟩, hrest, hauto⟩ := Option.bind_eq_some_iff.mp hauto
    cases hauto
    obtain ⟨b₁, e, hstage, hmatches, hrows, hstaged, hfit⟩ :=
      h.stage (hkeys d List.mem_cons_self) hexact.1 hstep
    have hschemas : a₁.schemas = a.schemas := by
      obtain ⟨-, -, -, -, -, -, hschemas⟩ := autocommit_spec h.quiet hstep
      exact hschemas
    have hb : b₁.schemas = b.schemas := hmatches.schemas.symm.trans (hschemas.trans h.schemas)
    have hfits₁ : (t.run e).staged.fits b₁.schemas = true := by
      rw [hb]
      exact Staged.fits_extend hfits hfit
    obtain ⟨b₂, t₂, hrun, hmatches₂, hrows₂, hfits₂, hlast⟩ :=
      ih hmatches (fun d' hd' => hschemas ▸ hkeys d' (List.mem_cons_of_mem d hd'))
        (hrows ▸ hexact.2 a₁ out hstep) hfits₁ hrest
    refine ⟨b₂, t₂, ?_, hmatches₂, hrows₂.trans hrows, hfits₂, fun k => ?_⟩
    · rw [Engine.runAll, hstage]
      simp only [bind, Option.bind, hrun, pure]
    · rw [hlast k, lastWrite, hstep, Txn.run, getElem?_extend, hstaged, Option.or_assoc]

/-- The counters whose column `n` refers to one, as the seek of an index on it finds
them: the rows of the trees, as far as they are in view and still refer to it. -/
def referring (id : Int64) (trees view : Rows) : List (TKey × Option Row) :=
  let found := trees.toList.filter fun e => (Table.column e.2 1).eqv (.int id)
  let kept := found.filter fun e => view[e.1]?.any fun row => (Table.column row 1).eqv (.int id)
  kept.map fun e => (e.1, none)

/-- `DELETE FROM counters WHERE id = ...`, with `n` a foreign key that cascades. -/
def deleteCounter (id : Int64) : Dml :=
  .delete "default.counters" (fun _ row => (Table.column row 0).eqv (.int id))
    fun trees view => .ok (referring id trees view)

/-- `INSERT INTO counters VALUES (id, n)`. -/
def addCounter (id n : Int64) : Dml :=
  .insert "counters" "default.counters" [[.int id, .int n]] fun _ _ => .ok ()

/-- `UPDATE counters SET n = ... WHERE id = ...`. -/
def setCounter (id n : Int64) : Dml :=
  .updatePoint "default.counters" (fun _ row => (Table.column row 0).eqv (.int id)) [(1, .int n)]
    (1 :: keyInt id) [(1, .int n)]

/-- A database with one row in the table. -/
def oneCounter : Engine :=
  start counterSchemas ∅ ((∅ : Rows).insert (counterKey 7) [.int 7, .int 0])

theorem oneCounter_quiet : oneCounter.Quiet := ⟨fun _ => rfl, rfl, rfl, rfl⟩

/-- The row is updated, another is inserted, and the first one is deleted. -/
def replaceCounter : List Dml := [setCounter 7 3, addCounter 8 1, deleteCounter 7]

theorem replaceCounter_exact : AllExact 0 oneCounter.rows oneCounter replaceCounter := by
  have hexact : (setCounter 7 3).Exact oneCounter.schemas oneCounter.rows oneCounter.rows := by
    refine ⟨rfl, by decide +kernel, fun row hrow => ?_⟩
    obtain rfl : [.int 7, .int 0] = row := Option.some.inj ((by decide +kernel :
      some [.int 7, .int 0] = oneCounter.rows[(("default.counters", 1 :: keyInt 7) : TKey)]?).trans hrow)
    have hvalid : counters.validateRow [.int 7, .int 0] = .ok [.int 7, .int 0] := rfl
    exact ⟨counters, by decide +kernel, Schema.validateRow_normal hvalid, rfl⟩
  -- No counter refers to the one that is deleted, in the trees or in view.
  have hseek : ((oneCounter.autocommit 0 (setCounter 7 3)).bind fun p =>
      p.1.autocommit 0 (addCounter 8 1)).all (fun p => decide
        (referring 7 oneCounter.rows p.1.rows = referring 7 p.1.rows p.1.rows)) = true := by
    decide +kernel
  refine ⟨hexact, fun s₁ out₁ h₁ => ⟨rfl, fun s₂ out₂ h₂ => ⟨?_, fun _ _ _ => trivial⟩⟩⟩
  rw [h₁, Option.bind_some, h₂, Option.all_some, decide_eq_true_eq] at hseek
  exact congrArg Except.ok hseek

theorem replaceCounter_leavesKey : ∀ d ∈ replaceCounter, d.LeavesKey oneCounter.schemas := by
  intro d hd
  simp only [replaceCounter, List.mem_cons, List.not_mem_nil, or_false] at hd
  rcases hd with rfl | rfl | rfl
  · intro schema hschema
    obtain rfl : counters = schema := Option.some.inj ((by simp [oneCounter, start, counterSchemas] :
      some counters = oneCounter.schemas["default.counters"]?).trans hschema)
    decide
  · trivial
  · trivial

theorem replaceCounter_runs :
    (runAll (autocommit 0) oneCounter replaceCounter).map Prod.snd =
      some [.count 1, .count 1, .count 1] := by
  decide +kernel

/-- A counter that the transaction adds refers to the one that it deletes: the seek of the
index does not find it, and it stays. -/
example :
    (runAll (autocommit 0) oneCounter [addCounter 8 7, deleteCounter 7]).map (fun p => p.1.rows.size) =
        some 0 ∧
      (oneCounter.transaction 0 [addCounter 8 7, deleteCounter 7]).map (fun p => p.1.rows.size) =
        some 1 := by
  decide +kernel

end Engine

end HenchDB.Session
