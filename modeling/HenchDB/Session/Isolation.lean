import HenchDB.Session.Serial

/-!
# What commits guarantee

A commit installs the rows that its statements staged, whole rows computed from
what the statements read, and phase A checks nothing but inserted keys.  So
statements outside transactions, and transactions at `SERIALIZABLE`, are serial
exactly as far as nothing that they read has changed when they commit.

Outside a transaction a statement reads the trees, and everything in flight and
everything that is appended before its own append is missing from what it read.
Inside a transaction at `SERIALIZABLE` every statement reads the trees as they
are when it runs.
-/

namespace HenchDB.Session

open Std (ExtTreeMap)
open Relation (ReflTransGen)

namespace Engine

variable {schemas : Schemas} {incs₀ : AutoIncs} {rows₀ : Rows} {s s' : Engine}

/-! ## Statements outside transactions -/

/-- The actions of sessions that run statements outside transactions. -/
def autocommitAction : Action → Bool
  | .execute _ _ autocommit snap => autocommit && snap.isNone
  | .append _ | .sync _ | .install | .finish _ => true
  | _ => false

def AutocommitStep (s s' : Engine) : Prop := ∃ a, s.step a = some s' ∧ autocommitAction a = true

/-- One in which, when a statement is appended, it would select the same rows
again from everything appended before it, and an `INSERT` would draw the same
from the sequences. -/
def FreshStep (incs₀ : AutoIncs) (s s' : Engine) : Prop :=
  ∃ a, s.step a = some s' ∧ autocommitAction a = true ∧
    ∀ r t, a = .append r → s.sessions r = .committing t → s.taken t = false →
      Valid s.schemas (serialIncs s.schemas incs₀ (s.order ++ s.flights.map Flight.txn)) s.logRows t

/-- When everything has returned, the contents are those of the statements that
returned `Ok`, one after the other in some order. -/
def SerialContents (schemas : Schemas) (incs₀ : AutoIncs) (rows₀ : Rows) (s : Engine) : Prop :=
  s.flights = [] → s.returning = [] → ∃ (order : List Txn) (incs : AutoIncs)
    (results : List (List (Except StmtError Output))), order.Perm s.oks ∧
    runSerial schemas incs₀ rows₀ (order.map Txn.stmts) = some (incs, s.rows, results)

def NoTxn (s : Engine) : Prop := ∀ r t, s.sessions r ≠ .active t

theorem NoTxn.setSession (h : NoTxn s) (r : Nat) {state : SessionState} (hstate : ∀ t, state ≠ .active t) :
    NoTxn (s.setSession r state) := by
  intro r' t
  by_cases hr : r' = r
  · subst hr
    simp only [Engine.setSession, Function.update_self]
    exact hstate t
  · simp only [Engine.setSession, Function.update_of_ne hr]
    exact h r' t

theorem NoTxn.commitTxn (h : NoTxn s) (r : Nat) (t : Txn) : NoTxn (s.commitTxn r t) := by
  unfold Engine.commitTxn
  split
  · have hack : NoTxn (s.acknowledge t) := h
    exact hack.setSession r (by simp)
  · exact h.setSession r (by simp)

theorem NoTxn.step {a : Action} (h : NoTxn s) (hs : s.step a = some s')
    (ha : autocommitAction a = true) : NoTxn s' := by
  cases a with
  | execute r stmt autocommit snap =>
    have hauto : autocommit = true := (Bool.and_eq_true_iff.mp ha).1
    obtain ⟨rows, -, incs, e, -, ⟨-, rfl, -⟩ | hstage⟩ := execute_cases hs
    · exact h
    · rcases commitStagedOrStage_cases hstage with ⟨t, ht, -⟩ | ⟨-, rfl | ⟨hoff, -⟩⟩
      · exact absurd ht (h r t)
      · exact NoTxn.commitTxn (s := { s with autoIncs := incs }) h r _
      · rw [hauto] at hoff
        cases hoff
  | append r =>
    simp only [Engine.step, Engine.append] at hs
    split at hs
    · split at hs
      · cases hs
        exact h.setSession r (by simp)
      · cases hs
        exact h.setSession r (by simp)
    · cases hs
  | sync n =>
    cases hs
    exact h
  | install =>
    simp only [Engine.step, Engine.install] at hs
    split at hs
    · split at hs
      · cases hs
        exact h
      · cases hs
    · cases hs
  | finish i =>
    simp only [Engine.step, Engine.finish] at hs
    split at hs
    · next f _ =>
      cases hs
      exact h.setSession f.session (by simp)
    · cases hs
  | _ => cases ha

/-- A statement that fails outside a transaction leaves nothing behind. -/
theorem execute_failed {r : Nat} {stmt : Stmt} {autocommit : Bool} {snap : Option Nat} {rows : Rows}
    {incs : AutoIncs} {e : Executed} {err : StmtError} (hidle : s.sessions r = .idle)
    (hrows : s.base snap = some rows) (hattempt : s.attempt r stmt rows = (incs, e))
    (herr : e.result = .error err) :
    s.execute r stmt autocommit snap = some { s with autoIncs := incs } := by
  unfold Engine.execute
  rw [hrows]
  dsimp only
  rw [hattempt]
  dsimp only
  rw [hidle, herr]

/-- A statement that stages nothing has read the rows as they are. -/
theorem FreshStep.validStep (h : NoTxn s) (hs : FreshStep incs₀ s s') : ValidStep incs₀ s s' := by
  obtain ⟨a, hstep, hauto, happend⟩ := hs
  refine ⟨a, hstep, happend, fun t hne horder => ?_⟩
  obtain ⟨hempty, ⟨r, -, ht⟩ | ⟨r, stmt, autocommit, snap, rows, incs, e, rfl, hrows, hattempt, hidle,
    rfl⟩⟩ := order_cases hstep hne horder
  · exact absurd ht (h r t)
  · have hbase : rows = s.rows := by
      have hsnap : snap = none := by simpa using (Bool.and_eq_true_iff.mp hauto).2
      rw [hsnap] at hrows
      exact (Option.some.inj hrows).symm
    have htxn : s.txnOf r = .empty := by
      rw [Engine.txnOf, hidle]
    obtain ⟨rfl, hseen, hexec⟩ := attempt_spec hattempt
    cases hresult : e.result with
    | error err =>
      cases (execute_failed hidle hrows hattempt hresult).symm.trans hstep
      exact absurd horder (by simp)
    | ok p =>
      have hnone : p.1.isEmpty = true := by
        rw [Txn.run, Executed.staged, hresult] at hempty
        simpa [Txn.empty] using hempty
      have hagain := Stmt.exec_of_empty ((congrArg Prod.snd hexec).trans hresult) hnone
        (serialIncs s.schemas incs₀ s.order)
      refine ⟨{ stable := ⟨?_, ?_, trivial⟩, free := ?_ }, Or.inr ?_⟩
      · rw [hagain, hresult]
      · rw [hseen, htxn, hbase]
        exact Stmt.Agrees.refl _ _ _ _
      · rw [ExtTreeMap.isEmpty_iff.mp hempty]
        intro k hk
        cases hk
      · exact congrArg Prod.fst hagain

/-- In every run of statements outside transactions whose appends are fresh,
the contents are those of a serial run. -/
theorem fresh_statements_serial (schemas : Schemas) (incs₀ : AutoIncs) (rows₀ : Rows)
    (h : ReflTransGen (FreshStep incs₀) (start schemas incs₀ rows₀) s) :
    SerialContents schemas incs₀ rows₀ s := by
  have hinv : NoTxn s ∧ Serial schemas incs₀ rows₀ s := by
    refine Transition.invariant (P := fun s => NoTxn s ∧ Serial schemas incs₀ rows₀ s)
      ⟨by simp [NoTxn, start], serial_start⟩ ?_ h
    rintro a b ⟨hno, hserial⟩ hstep
    refine ⟨?_, hserial.validStep (hstep.validStep hno)⟩
    obtain ⟨c, hc, hauto, -⟩ := hstep
    exact hno.step hc hauto
  intro hflights hreturning
  obtain ⟨order, incs, hperm, hrun⟩ := hinv.2.serializable hflights hreturning
  exact ⟨order, incs, _, hperm, hrun⟩

/-! ## Transactions at `SERIALIZABLE` -/

/-- A step of sessions that run all statements in transactions at
`SERIALIZABLE`: every statement reads the trees. -/
def SerializableStep (s s' : Engine) : Prop :=
  ∃ a, s.step a = some s' ∧ ∀ r stmt autocommit snap, a = .execute r stmt autocommit snap →
    snap = none ∧ ∃ t, s.sessions r = .active t

/-- One in which, when a transaction commits, all its statements would select
the same rows again and draw the same from the sequences; one that returns
without an append while others are in flight moves no sequence. -/
def ValidatedStep (incs₀ : AutoIncs) (s s' : Engine) : Prop :=
  ∃ a, s.step a = some s' ∧
    (∀ r stmt autocommit snap, a = .execute r stmt autocommit snap →
      snap = none ∧ ∃ t, s.sessions r = .active t) ∧
    (∀ r t, a = .append r → s.sessions r = .committing t → s.taken t = false →
      Valid s.schemas (serialIncs s.schemas incs₀ (s.order ++ s.flights.map Flight.txn))
        s.logRows t) ∧
    ∀ r t, a = .commit r → s.sessions r = .active t → t.staged.isEmpty = true →
      Valid s.schemas (serialIncs s.schemas incs₀ s.order) s.rows t ∧
        (s.flights = [] ∨ t.sequences s.schemas (serialIncs s.schemas incs₀ s.order) =
          serialIncs s.schemas incs₀ s.order)

theorem ValidatedStep.validStep (hs : ValidatedStep incs₀ s s') : ValidStep incs₀ s s' := by
  obtain ⟨a, hstep, hexecute, happend, hcommit⟩ := hs
  refine ⟨a, hstep, happend, fun t hne horder => ?_⟩
  obtain ⟨hempty, ⟨r, ha, ht⟩ | ⟨r, stmt, autocommit, snap, _, _, _, ha, -, -, hidle, -⟩⟩ :=
    order_cases hstep hne horder
  · exact hcommit r t ha ht hempty
  · obtain ⟨-, t', ht'⟩ := hexecute r stmt autocommit snap ha
    rw [hidle] at ht'
    cases ht'

/-- In every run whose commits are all validated so, the results and the
contents are those of a serial run. -/
theorem validated_transactions_serializable (schemas : Schemas) (incs₀ : AutoIncs) (rows₀ : Rows)
    (h : ReflTransGen (ValidatedStep incs₀) (start schemas incs₀ rows₀) s) :
    Serializable schemas incs₀ rows₀ s :=
  valid_runs_serial (ReflTransGen.mono (fun _ _ => ValidatedStep.validStep) _ _ h)

end Engine

/-! ## The conditions as checks -/

variable {rows : Rows} {schemas : Schemas}

/-- `Stmt.Agrees` as a check. -/
def Stmt.agrees (schemas : Schemas) (incs : AutoIncs) (rows rows' : Rows) : Stmt → Bool
  | .insert _ table new fk =>
    schemas[table]?.all (fun schema => sameKeys schema table rows rows' incs[table]? new) &&
      fk rows = fk rows'
  | .update table cond _ fk => matching rows table cond = matching rows' table cond && fk rows = fk rows'
  | .updatePoint table key _ => rows[(table, key)]? = rows'[(table, key)]?
  | .delete table cond fk => matching rows table cond = matching rows' table cond && fk rows = fk rows'
  | .select query => query rows = query rows'

theorem Stmt.agrees_spec {incs : AutoIncs} {rows' : Rows} {stmt : Stmt}
    (h : stmt.agrees schemas incs rows rows' = true) : stmt.Agrees schemas incs rows rows' := by
  cases stmt with
  | insert text table new fk =>
    simp only [Stmt.agrees, Bool.and_eq_true, decide_eq_true_eq] at h
    refine ⟨fun schema hschema => ?_, h.2⟩
    have hkeys := h.1
    rw [hschema] at hkeys
    exact hkeys
  | update table cond set fk => simpa [Stmt.agrees, Stmt.Agrees] using h
  | updatePoint table key set => simpa [Stmt.agrees, Stmt.Agrees] using h
  | delete table cond fk => simpa [Stmt.agrees, Stmt.Agrees] using h
  | select query => simpa [Stmt.agrees, Stmt.Agrees] using h

/-- `Stable` as a check. -/
def stable (schemas : Schemas) (rows : Rows) : AutoIncs → Staged → List Executed → Bool
  | _, _, [] => true
  | incs, staged, e :: rest =>
    (e.stmt.exec schemas incs e.seen).2 = e.result &&
      e.stmt.agrees schemas incs e.seen (view rows staged) &&
      stable schemas rows (e.stmt.exec schemas incs e.seen).1 (staged.extend e.staged) rest

theorem stable_spec : ∀ {trace : List Executed} {incs : AutoIncs} {staged : Staged},
    stable schemas rows incs staged trace = true → Stable schemas rows incs staged trace
  | [], _, _, _ => trivial
  | _ :: _, _, _, h => by
    rw [stable, Bool.and_eq_true, Bool.and_eq_true, decide_eq_true_eq] at h
    exact ⟨h.1.1, Stmt.agrees_spec h.1.2, stable_spec h.2⟩

/-- `Valid` as a check. -/
def valid (schemas : Schemas) (incs : AutoIncs) (rows : Rows) (t : Txn) : Bool :=
  stable schemas rows incs ∅ t.trace && t.staged.inserted.all fun k => !rows.contains k

theorem valid_spec {incs : AutoIncs} {t : Txn} (h : valid schemas incs rows t = true) :
    Valid schemas incs rows t := by
  rw [valid, Bool.and_eq_true, List.all_eq_true] at h
  exact { stable := stable_spec h.1, free := fun k hk => by simpa using h.2 k hk }

namespace Engine

variable {s s' : Engine}

/-- What `ValidatedStep` and `FreshStep` ask of an action. -/
def validated (incs₀ : AutoIncs) (s : Engine) : Action → Bool
  | .append r =>
    match s.sessions r with
    | .committing t => s.taken t ||
      valid s.schemas (serialIncs s.schemas incs₀ (s.order ++ s.flights.map Flight.txn)) s.logRows t
    | _ => true
  | .commit r =>
    match s.sessions r with
    | .active t => !t.staged.isEmpty ||
      valid s.schemas (serialIncs s.schemas incs₀ s.order) s.rows t && s.flights.isEmpty
    | _ => true
  | _ => true

variable {incs₀ : AutoIncs} {r : Nat} {t : Txn}

theorem validated_append (h : s.validated incs₀ (.append r) = true)
    (ht : s.sessions r = .committing t) (hfree : s.taken t = false) :
    Valid s.schemas (serialIncs s.schemas incs₀ (s.order ++ s.flights.map Flight.txn)) s.logRows t := by
  simp only [validated, ht, hfree, Bool.false_or] at h
  exact valid_spec h

theorem validated_commit (h : s.validated incs₀ (.commit r) = true)
    (ht : s.sessions r = .active t) (hempty : t.staged.isEmpty = true) :
    Valid s.schemas (serialIncs s.schemas incs₀ s.order) s.rows t ∧ s.flights = [] := by
  simp only [validated, ht, hempty, Bool.not_true, Bool.false_or, Bool.and_eq_true,
    List.isEmpty_iff] at h
  exact ⟨valid_spec h.1, h.2⟩

/-- `FreshStep` as a check. -/
def freshStep (incs₀ : AutoIncs) (a : Action) (s : Engine) : Option Engine :=
  if autocommitAction a && s.validated incs₀ a then s.step a else none

theorem freshStep_spec (a : Action) (s s' : Engine) (h : freshStep incs₀ a s = some s') :
    FreshStep incs₀ s s' := by
  unfold freshStep at h
  split at h
  · next hcheck =>
    rw [Bool.and_eq_true] at hcheck
    refine ⟨a, h, hcheck.1, ?_⟩
    rintro r t rfl ht hfree
    exact validated_append hcheck.2 ht hfree
  · cases h

/-- The session is in a transaction, and the statement reads the trees. -/
def inTransaction (s : Engine) : Action → Bool
  | .execute r _ _ snap =>
    snap.isNone &&
      match s.sessions r with
      | .active _ => true
      | _ => false
  | _ => true

theorem inTransaction_spec {stmt : Stmt} {autocommit : Bool} {snap : Option Nat}
    (h : s.inTransaction (.execute r stmt autocommit snap) = true) :
    snap = none ∧ ∃ t, s.sessions r = .active t := by
  rw [inTransaction, Bool.and_eq_true] at h
  refine ⟨by simpa using h.1, ?_⟩
  have hactive := h.2
  split at hactive
  · next t ht => exact ⟨t, ht⟩
  · cases hactive

/-- `SerializableStep` as a check. -/
def serializableStep (a : Action) (s : Engine) : Option Engine :=
  if s.inTransaction a then s.step a else none

theorem serializableStep_spec (a : Action) (s s' : Engine) (h : serializableStep a s = some s') :
    SerializableStep s s' := by
  unfold serializableStep at h
  split at h
  · next hcheck =>
    refine ⟨a, h, ?_⟩
    rintro r stmt autocommit snap rfl
    exact inTransaction_spec hcheck
  · cases h

/-- `ValidatedStep` as a check. -/
def validatedStep (incs₀ : AutoIncs) (a : Action) (s : Engine) : Option Engine :=
  if s.inTransaction a && s.validated incs₀ a then s.step a else none

theorem validatedStep_spec (a : Action) (s s' : Engine) (h : validatedStep incs₀ a s = some s') :
    ValidatedStep incs₀ s s' := by
  unfold validatedStep at h
  split at h
  · next hcheck =>
    rw [Bool.and_eq_true] at hcheck
    refine ⟨a, h, ?_, ?_, ?_⟩
    · rintro r stmt autocommit snap rfl
      exact inTransaction_spec hcheck.1
    · rintro r t rfl ht hfree
      exact validated_append hcheck.2 ht hfree
    · rintro r t rfl ht hempty
      obtain ⟨hvalid, hnone⟩ := validated_commit hcheck.2 ht hempty
      exact ⟨hvalid, Or.inl hnone⟩
  · cases h

/-! ## Examples of runs -/

/-- A table of an integer key and two integers. -/
def pairs : Schema where
  columns :=
    [{ name := "id", ctype := .int, nullable := false, autoIncrement := false, defaultValue := none },
      { name := "a", ctype := .int, nullable := true, autoIncrement := false, defaultValue := none },
      { name := "b", ctype := .int, nullable := true, autoIncrement := false, defaultValue := none }]
  pkIdx := 0

def pairSchemas : Schemas := (∅ : Schemas).insert "default.pairs" pairs

def pairKey (id : Int64) : Bytes := 1 :: keyInt id

def pairRows : Rows :=
  ((∅ : Rows).insert ("default.pairs", pairKey 1) [.int 1, .int 0, .int 0]).insert
    ("default.pairs", pairKey 2) [.int 2, .int 0, .int 0]

/-- `UPDATE pairs SET ... = 1 WHERE id = ...` on the point path. -/
def setPoint (id : Int64) (column : Nat) : Stmt :=
  .updatePoint "default.pairs" (pairKey id) [(column, .int 1)]

/-- The same inside a transaction. -/
def setColumn (id : Int64) (column : Nat) : Stmt :=
  .update "default.pairs" (fun _ row => (Table.column row 0).eqv (.int id)) [(column, .int 1)]
    fun _ => .ok []

/-- `SELECT * FROM pairs WHERE id = ...`. -/
def getPair (id : Int64) : Stmt :=
  .select fun rows => matching rows "default.pairs" fun _ row => (Table.column row 0).eqv (.int id)

/-- The phases of the commits of two sessions, one behind the other. -/
def bothPhases : List Action :=
  [.append 0, .append 1, .sync 2, .install, .install, .finish 0, .finish 0]

def phases (r : Nat) : List Action := [.commit r, .append r, .sync 1, .install, .finish 0]

/-- The same table with its keys from a sequence. -/
def numbered : Schema :=
  { pairs with columns := pairs.columns.modify 0 fun c => { c with autoIncrement := true } }

def numberedSchemas : Schemas := (∅ : Schemas).insert "default.pairs" numbered

def numberedIncs : AutoIncs := (∅ : AutoIncs).insert "default.pairs" { colIdx := 0, next := 3 }

/-- An `UPDATE` and an `INSERT` that leaves its key to the sequence, in flight at
the same time. -/
def apart : List Action :=
  [.execute 0 (setPoint 1 1) true none,
    .execute 1 (.insert "pairs" "default.pairs" [[.null, .int 7, .int 7]] fun _ => .ok ()) true
      none] ++ bothPhases

theorem apart_runs :
    (Transition.exec (freshStep numberedIncs) (fun _ => true) apart
      (start numberedSchemas numberedIncs pairRows)).map
      (fun s => (s.flights.isEmpty, s.returning.isEmpty, s.rows.values)) =
      some (true, true,
        [[.int 1, .int 1, .int 0], [.int 2, .int 0, .int 0], [.int 3, .int 7, .int 7]]) := by
  decide +kernel

theorem fresh_statements_serial_apart :
    ∃ s : Engine, ReflTransGen (FreshStep numberedIncs) (start numberedSchemas numberedIncs pairRows) s ∧
      s.flights = [] ∧ s.returning = [] ∧
      s.rows.values =
        [[.int 1, .int 1, .int 0], [.int 2, .int 0, .int 0], [.int 3, .int 7, .int 7]] ∧
      SerialContents numberedSchemas numberedIncs pairRows s := by
  obtain ⟨s, hexec, hends⟩ := Option.map_eq_some_iff.mp apart_runs
  simp only [Prod.mk.injEq, List.isEmpty_iff] at hends
  have hrun := Transition.exec_runs freshStep_spec hexec
  exact ⟨s, hrun, hends.1, hends.2.1, hends.2.2, fresh_statements_serial _ _ _ hrun⟩

/-- Two statements set different columns of one row; both read it before the
first is installed. -/
def overlapping : List Action :=
  [.execute 0 (setPoint 1 1) true none, .execute 1 (setPoint 1 2) true none] ++ bothPhases

/-- A step of sessions outside transactions, as a check. -/
def autocommitStep (a : Action) (s : Engine) : Option Engine :=
  if autocommitAction a then s.step a else none

theorem autocommitStep_spec (a : Action) (s s' : Engine) (h : autocommitStep a s = some s') :
    AutocommitStep s s' := by
  unfold autocommitStep at h
  split at h
  · next hcheck => exact ⟨a, h, hcheck⟩
  · cases h

/-- Two transactions returned, and a check fails for both of their orders. -/
def failsBothOrders (check : List Txn → Bool) (s : Engine) : Bool :=
  match s.oks with
  | [t, u] => s.flights.isEmpty && s.returning.isEmpty && !check [t, u] && !check [u, t]
  | _ => false

theorem failsBothOrders_spec {check : List Txn → Bool} (h : failsBothOrders check s = true) :
    s.flights = [] ∧ s.returning = [] ∧ ∀ order : List Txn, order.Perm s.oks → check order = false := by
  unfold failsBothOrders at h
  split at h
  · next t u hoks =>
    simp only [Bool.and_eq_true, List.isEmpty_iff, Bool.not_eq_true'] at h
    obtain ⟨⟨⟨hflights, hreturning⟩, htu⟩, hut⟩ := h
    refine ⟨hflights, hreturning, fun order hperm => ?_⟩
    rw [hoks] at hperm
    have hmem := List.mem_permutations'.mpr hperm
    simp only [List.permutations', List.permutations'Aux, List.flatMap_cons, List.flatMap_nil,
      List.map_cons, List.map_nil, List.append_nil, List.mem_cons, List.not_mem_nil,
      or_false] at hmem
    rcases hmem with rfl | rfl
    · exact htu
    · exact hut
  · cases h

def sameContents (s : Engine) (order : List Txn) : Bool :=
  (runSerial pairSchemas ∅ pairRows (order.map Txn.stmts)).any fun r => r.2.1.toList = s.rows.toList

theorem overlapping_runs :
    (Transition.exec autocommitStep (fun _ => true) overlapping
      (start pairSchemas ∅ pairRows)).map (fun s => failsBothOrders s.sameContents s) = some true := by
  decide +kernel

/-- The later statement writes the column back that the earlier one set. -/
theorem overlapping_statements_lose_update :
    ¬ ∀ (schemas : Schemas) (incs₀ : AutoIncs) (rows₀ : Rows) (s : Engine),
      ReflTransGen AutocommitStep (start schemas incs₀ rows₀) s →
        SerialContents schemas incs₀ rows₀ s := by
  intro hserial
  obtain ⟨s, hexec, hends⟩ := Option.map_eq_some_iff.mp overlapping_runs
  obtain ⟨hflights, hreturning, hfails⟩ := failsBothOrders_spec hends
  obtain ⟨order, incs, results, hperm, hrun⟩ :=
    hserial _ _ _ s (Transition.exec_runs autocommitStep_spec hexec) hflights hreturning
  have hsame := hfails order hperm
  rw [sameContents, hrun] at hsame
  simp at hsame

/-- Two transactions read and write different rows, with their statements
interleaved. -/
def sideBySide : List Action :=
  [.begin 0, .begin 1, .execute 0 (getPair 1) true none, .execute 1 (getPair 2) true none,
    .execute 0 (setColumn 1 1) true none, .execute 1 (setColumn 2 2) true none] ++
    phases 0 ++ phases 1

theorem sideBySide_runs :
    (Transition.exec (validatedStep ∅) (fun _ => true) sideBySide (start pairSchemas ∅ pairRows)).map
      (fun s => (s.flights.isEmpty, s.returning.isEmpty, s.rows.values)) =
      some (true, true, [[.int 1, .int 1, .int 0], [.int 2, .int 0, .int 1]]) := by
  decide +kernel

theorem validated_transactions_serializable_sideBySide :
    ∃ s : Engine, ReflTransGen (ValidatedStep ∅) (start pairSchemas ∅ pairRows) s ∧
      s.flights = [] ∧ s.returning = [] ∧
      s.rows.values = [[.int 1, .int 1, .int 0], [.int 2, .int 0, .int 1]] ∧
      Serializable pairSchemas ∅ pairRows s := by
  obtain ⟨s, hexec, hends⟩ := Option.map_eq_some_iff.mp sideBySide_runs
  simp only [Prod.mk.injEq, List.isEmpty_iff] at hends
  have hrun := Transition.exec_runs validatedStep_spec hexec
  exact ⟨s, hrun, hends.1, hends.2.1, hends.2.2, validated_transactions_serializable _ _ _ hrun⟩

/-- Two transactions read the row that the other one writes. -/
def crossed : List Action :=
  [.begin 0, .begin 1, .execute 0 (getPair 2) true none, .execute 1 (getPair 1) true none,
    .execute 0 (setColumn 1 1) true none, .execute 1 (setColumn 2 2) true none] ++
    phases 0 ++ phases 1

/-- A serial run in the given order returns the same and leaves the same. -/
def sameRun (s : Engine) (order : List Txn) : Bool :=
  (runSerial pairSchemas ∅ pairRows (order.map Txn.stmts)).any fun r =>
    r.2.1.toList = s.rows.toList && r.2.2 = order.map Txn.results

theorem crossed_runs :
    (Transition.exec serializableStep (fun _ => true) crossed
      (start pairSchemas ∅ pairRows)).map (fun s => failsBothOrders s.sameRun s) = some true := by
  decide +kernel

/-- Each of the two transactions misses the write of the other. -/
theorem serializable_admits_write_skew :
    ¬ ∀ (schemas : Schemas) (incs₀ : AutoIncs) (rows₀ : Rows) (s : Engine),
      ReflTransGen SerializableStep (start schemas incs₀ rows₀) s →
        Serializable schemas incs₀ rows₀ s := by
  intro hserial
  obtain ⟨s, hexec, hends⟩ := Option.map_eq_some_iff.mp crossed_runs
  obtain ⟨hflights, hreturning, hfails⟩ := failsBothOrders_spec hends
  obtain ⟨order, incs, hperm, hrun⟩ :=
    hserial _ _ _ s (Transition.exec_runs serializableStep_spec hexec) hflights hreturning
  have hsame := hfails order hperm
  rw [sameRun, hrun] at hsame
  simp at hsame

end Engine

end HenchDB.Session
