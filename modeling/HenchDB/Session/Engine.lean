import HenchDB.Session.Statement
import HenchDB.Lib.Transition

/-!
# Sessions and the phases of a commit

A session runs statements one by one.  Outside a transaction a statement
commits what it staged; inside one the staged rows are kept until `COMMIT`.
`commit_txn` then runs in its phases, and other sessions may take steps between
any two of them:

* phase A, under the commit lock: the rows staged with `is_insert` are looked
  up in the trees and among the keys in flight, the records are appended, and
  the inserted keys are marked in flight (`append`);
* phase B: the syncer makes the records durable (`sync`);
* phase C, under the install lock and in the order of the log: the rows are
  installed (`install`), and after the lock is released the marks of every
  staged key are removed and the commit returns (`finish`).

A statement reads the trees as they are, or as they were when a snapshot was
taken (`past`).

`log`, `order` and `oks` are ghosts: the transactions in the order of their
appends, in the order in which they took effect, and those that returned `Ok`.
A transaction carries its statements with what they saw and returned.
-/

namespace HenchDB.Session

open Std (ExtTreeSet)

structure Executed where
  stmt : Stmt
  seen : Rows
  result : Except StmtError (Staged × Output)

/-- What a statement staged; one that failed staged nothing. -/
def Executed.staged (e : Executed) : Staged :=
  match e.result with
  | .ok (staged, _) => staged
  | .error _ => ∅

/-- `ActiveTxn`; the trace is a ghost. -/
structure Txn where
  staged : Staged
  trace : List Executed

namespace Txn

/-- A transaction that has executed nothing. -/
def empty : Txn := { staged := ∅, trace := [] }

/-- The transaction with one more statement. -/
def run (t : Txn) (e : Executed) : Txn :=
  { staged := t.staged.extend e.staged, trace := t.trace ++ [e] }

end Txn

inductive SessionState where
  /-- No transaction. -/
  | idle
  /-- A transaction is open. -/
  | active (t : Txn)
  /-- In `commit_txn`, before phase A. -/
  | committing (t : Txn)
  /-- In `commit_txn`, behind phase A. -/
  | busy

/-- A commit behind phase A. -/
structure Flight where
  session : Nat
  txn : Txn
  durable : Bool

/-- The engine as far as the sessions see it. -/
structure Engine where
  schemas : Schemas
  autoIncs : AutoIncs
  rows : Rows
  /-- What the trees held before, latest first. -/
  past : List Rows
  /-- `in_flight`. -/
  inFlight : ExtTreeSet TKey
  sessions : Nat → SessionState
  /-- Appended and not installed, in the order of the log. -/
  flights : List Flight
  /-- Installed, with the marks still to be removed. -/
  returning : List Flight
  /-- Ghost: the appended transactions. -/
  log : List Txn
  /-- Ghost: the transactions in the order in which they took effect. -/
  order : List Txn
  /-- Ghost: the transactions that returned `Ok`. -/
  oks : List Txn

namespace Engine

/-- A database with the given tables. -/
def start (schemas : Schemas) (autoIncs : AutoIncs) (rows : Rows) : Engine where
  schemas := schemas
  autoIncs := autoIncs
  rows := rows
  past := []
  inFlight := ∅
  sessions := fun _ => .idle
  flights := []
  returning := []
  log := []
  order := []
  oks := []

def logRows (s : Engine) : Rows := s.flights.foldl (fun rows f => view rows f.txn.staged) s.rows

def setSession (s : Engine) (r : Nat) (state : SessionState) : Engine :=
  { s with sessions := Function.update s.sessions r state }

/-! ## Statements -/

/-- The transaction of a session; outside of one, an empty one. -/
def txnOf (s : Engine) (r : Nat) : Txn :=
  match s.sessions r with
  | .active t => t
  | _ => .empty

/-- The rows a statement reads: the trees, or what a snapshot returns for them. -/
def base (s : Engine) : Option Nat → Option Rows
  | none => some s.rows
  | some i => s.past[i]?

/-- A transaction without writes returns `Ok` at once. -/
def acknowledge (s : Engine) (t : Txn) : Engine :=
  { s with order := s.order ++ [t], oks := s.oks ++ [t] }

/-- `commit_txn` on the write set of one statement, or its entry. -/
def commitTxn (s : Engine) (r : Nat) (t : Txn) : Engine :=
  if t.staged.isEmpty then (s.acknowledge t).setSession r .idle else s.setSession r (.committing t)

/-- `commit_staged_or_stage`; a query outside a transaction commits nothing. -/
def commitStagedOrStage (s : Engine) (r : Nat) (autocommit : Bool) (e : Executed) : Option Engine :=
  match s.sessions r, e.stmt with
  | .active _, .updatePoint _ _ _ => none
  | .active t, _ => some (s.setSession r (.active (t.run e)))
  | .idle, .updatePoint _ _ _ =>
    some (s.commitTxn r (Txn.empty.run e))
  | .idle, .select _ => some (s.commitTxn r (Txn.empty.run e))
  | .idle, _ =>
    let t := Txn.empty.run e
    some (if autocommit then s.commitTxn r t else s.setSession r (.active t))
  | _, _ => none

/-- What a statement of a session does to the sequences, and how it ends. -/
def attempt (s : Engine) (r : Nat) (stmt : Stmt) (rows : Rows) : AutoIncs × Executed :=
  let seen := view rows (s.txnOf r).staged
  let (incs, result) := stmt.exec s.schemas s.autoIncs seen
  (incs, { stmt := stmt, seen := seen, result := result })

/-- A statement of a session.  One that fails leaves an open transaction open. -/
def execute (s : Engine) (r : Nat) (stmt : Stmt) (autocommit : Bool) (snap : Option Nat) :
    Option Engine :=
  match s.base snap with
  | none => none
  | some rows =>
    let (incs, e) := s.attempt r stmt rows
    let s := { s with autoIncs := incs }
    match s.sessions r, e.result with
    | .idle, .error _ => some s
    | _, _ => s.commitStagedOrStage r autocommit e

def begin (s : Engine) (r : Nat) : Option Engine :=
  match s.sessions r with
  | .idle => some (s.setSession r (.active .empty))
  | _ => none

def commit (s : Engine) (r : Nat) : Option Engine :=
  match s.sessions r with
  | .active t => some (s.commitTxn r t)
  | _ => none

/-- `ROLLBACK`, and a commit that fails before its append. -/
def rollback (s : Engine) (r : Nat) : Option Engine :=
  match s.sessions r with
  | .active _ => some (s.setSession r .idle)
  | .committing _ => some (s.setSession r .idle)
  | _ => none

/-! ## Phases of `commit_txn` -/

/-- Phase A: the duplicate check, the append and the marks. -/
def append (s : Engine) (r : Nat) : Option Engine :=
  match s.sessions r with
  | .committing t =>
    if t.staged.inserted.any fun k => s.rows.contains k || s.inFlight.contains k then
      some (s.setSession r .idle)
    else
      some { s.setSession r .busy with
        inFlight := s.inFlight.insertMany t.staged.inserted
        flights := s.flights ++ [{ session := r, txn := t, durable := false }]
        log := s.log ++ [t] }
  | _ => none

/-- Phase B: the first `n` commits in flight are durable. -/
def sync (s : Engine) (n : Nat) : Engine :=
  { s with
    flights := (s.flights.take n).map (fun f => { f with durable := true }) ++ s.flights.drop n }

/-- Phase C of the commit whose start offset is the frontier. -/
def install (s : Engine) : Option Engine :=
  match s.flights with
  | f :: flights =>
    if f.durable then
      some { s with
        rows := view s.rows f.txn.staged
        past := s.rows :: s.past
        flights := flights
        returning := s.returning ++ [f]
        order := s.order ++ [f.txn] }
    else none
  | [] => none

/-- The marks of all staged keys are removed, if there were inserts, and the
commit returns. -/
def finish (s : Engine) (i : Nat) : Option Engine :=
  match s.returning[i]? with
  | some f =>
    some { s.setSession f.session .idle with
      inFlight :=
        if f.txn.staged.inserted.isEmpty then s.inFlight
        else f.txn.staged.keys.foldl (fun marks k => marks.erase k) s.inFlight
      returning := s.returning.eraseIdx i
      oks := s.oks ++ [f.txn] }
  | none => none

end Engine

/-! ## Runs -/

/-- The steps of the sessions and of the syncer. -/
inductive Action where
  | execute (r : Nat) (stmt : Stmt) (autocommit : Bool) (snap : Option Nat)
  | begin (r : Nat)
  | commit (r : Nat)
  | rollback (r : Nat)
  | append (r : Nat)
  | sync (n : Nat)
  | install
  | finish (i : Nat)

namespace Engine

def step (s : Engine) : Action → Option Engine
  | .execute r stmt autocommit snap => s.execute r stmt autocommit snap
  | .begin r => s.begin r
  | .commit r => s.commit r
  | .rollback r => s.rollback r
  | .append r => s.append r
  | .sync n => some (s.sync n)
  | .install => s.install
  | .finish i => s.finish i

/-! ## What a step leaves alone -/

section Frame

variable (s : Engine) (r : Nat) (state : SessionState)

@[simp]
theorem setSession_schemas : (s.setSession r state).schemas = s.schemas := rfl

@[simp]
theorem setSession_autoIncs : (s.setSession r state).autoIncs = s.autoIncs := rfl

@[simp]
theorem setSession_rows : (s.setSession r state).rows = s.rows := rfl

@[simp]
theorem setSession_past : (s.setSession r state).past = s.past := rfl

@[simp]
theorem setSession_inFlight : (s.setSession r state).inFlight = s.inFlight := rfl

@[simp]
theorem setSession_flights : (s.setSession r state).flights = s.flights := rfl

@[simp]
theorem setSession_returning : (s.setSession r state).returning = s.returning := rfl

@[simp]
theorem setSession_log : (s.setSession r state).log = s.log := rfl

@[simp]
theorem setSession_order : (s.setSession r state).order = s.order := rfl

@[simp]
theorem setSession_oks : (s.setSession r state).oks = s.oks := rfl

/-- The syncer changes no transaction. -/
@[simp]
theorem map_txn_sync (n : Nat) :
    (s.sync n).flights.map Flight.txn = s.flights.map Flight.txn := by
  have hmap : ((s.flights.take n).map fun f => { f with durable := true }).map Flight.txn =
      (s.flights.take n).map Flight.txn := by
    rw [List.map_map]
    rfl
  rw [sync, List.map_append, hmap, ← List.map_append, List.take_append_drop]

end Frame

/-! ## What a statement can do -/

variable {s s' : Engine} {r : Nat} {stmt : Stmt} {autocommit : Bool} {snap : Option Nat}

/-- What was staged goes to the open transaction or starts a commit. -/
theorem commitStagedOrStage_cases {e : Executed}
    (h : s.commitStagedOrStage r autocommit e = some s') :
    (∃ t, s.sessions r = .active t ∧ s' = s.setSession r (.active (t.run e))) ∨
      (s.sessions r = .idle ∧ (s' = s.commitTxn r (Txn.empty.run e) ∨
        autocommit = false ∧ s' = s.setSession r (.active (Txn.empty.run e)))) := by
  unfold commitStagedOrStage at h
  split at h
  · cases h
  · next t hs _ => exact Or.inl ⟨t, hs, (Option.some.inj h).symm⟩
  · next hs _ => exact Or.inr ⟨hs, Or.inl (Option.some.inj h).symm⟩
  · next hs _ => exact Or.inr ⟨hs, Or.inl (Option.some.inj h).symm⟩
  · next hs _ _ =>
    have h := (Option.some.inj h).symm
    cases autocommit with
    | true => exact Or.inr ⟨hs, Or.inl h⟩
    | false => exact Or.inr ⟨hs, Or.inr ⟨rfl, h⟩⟩
  · cases h

/-- A statement fails outside a transaction, or its writes are staged. -/
theorem execute_cases (h : s.execute r stmt autocommit snap = some s') :
    ∃ rows, s.base snap = some rows ∧ ∃ incs e, s.attempt r stmt rows = (incs, e) ∧
      (s.sessions r = .idle ∧ s' = { s with autoIncs := incs } ∧ (∃ err, e.result = .error err) ∨
        { s with autoIncs := incs }.commitStagedOrStage r autocommit e = some s') := by
  unfold execute at h
  split at h
  · cases h
  · next rows hrows =>
    refine ⟨rows, hrows, (s.attempt r stmt rows).1, (s.attempt r stmt rows).2, rfl, ?_⟩
    dsimp only at h
    split at h
    · next err hs herr => exact Or.inl ⟨hs, (Option.some.inj h).symm, err, herr⟩
    · exact Or.inr h

/-- What a statement ran on. -/
theorem attempt_spec {rows : Rows} {incs : AutoIncs} {e : Executed}
    (h : s.attempt r stmt rows = (incs, e)) :
    e.stmt = stmt ∧ e.seen = view rows (s.txnOf r).staged ∧
      stmt.exec s.schemas s.autoIncs e.seen = (incs, e.result) := by
  cases h
  exact ⟨rfl, rfl, rfl⟩

/-! ## Rules for invariants -/

/-- What holds of the transactions of the sessions, when one session changes. -/
theorem sessions_setSession {P : Txn → Prop} {r : Nat} {state : SessionState}
    (h : ∀ r t, s.sessions r = .active t ∨ s.sessions r = .committing t → P t)
    (hstate : ∀ t, state = .active t ∨ state = .committing t → P t) (r' : Nat) (t : Txn)
    (ht : (s.setSession r state).sessions r' = .active t ∨
      (s.setSession r state).sessions r' = .committing t) : P t := by
  by_cases hr : r' = r
  · subst hr
    simp only [Engine.setSession, Function.update_self] at ht
    exact hstate t ht
  · simp only [Engine.setSession, Function.update_of_ne hr] at ht
    exact h r' t ht

/-- What holds of every transaction that is open, committing or in flight. -/
structure AllTxns (P : Txn → Prop) (s : Engine) : Prop where
  sessions : ∀ r t, s.sessions r = .active t ∨ s.sessions r = .committing t → P t
  flights : ∀ t ∈ s.flights.map Flight.txn, P t

namespace AllTxns

variable {P : Txn → Prop} {t : Txn}

theorem setSession (h : AllTxns P s) (r : Nat) {state : SessionState}
    (hstate : ∀ t, state = .active t ∨ state = .committing t → P t) :
    AllTxns P (s.setSession r state) where
  sessions := sessions_setSession h.sessions hstate
  flights := h.flights

theorem idle (h : AllTxns P s) (r : Nat) : AllTxns P (s.setSession r .idle) :=
  h.setSession r fun t ht => by simp at ht

theorem active (h : AllTxns P s) (r : Nat) (ht : P t) : AllTxns P (s.setSession r (.active t)) := by
  refine h.setSession r fun t' ht' => ?_
  simp only [SessionState.active.injEq, reduceCtorEq, or_false] at ht'
  exact ht' ▸ ht

theorem commitTxn (h : AllTxns P s) (r : Nat) (ht : P t) : AllTxns P (s.commitTxn r t) := by
  unfold Engine.commitTxn
  split
  · have hack : AllTxns P (s.acknowledge t) := ⟨h.sessions, h.flights⟩
    exact hack.idle r
  · refine h.setSession r fun t' ht' => ?_
    simp only [reduceCtorEq, SessionState.committing.injEq, false_or] at ht'
    exact ht' ▸ ht

theorem txnOf (h : AllTxns P s) (hempty : P .empty) (r : Nat) : P (s.txnOf r) := by
  unfold Engine.txnOf
  split
  · next t ht => exact h.sessions r t (Or.inl ht)
  · exact hempty

/-- A statement adds itself to the transaction of its session. -/
theorem execute (h : AllTxns P s) (hs : s.execute r stmt autocommit snap = some s')
    (hrun : ∀ rows incs e, s.base snap = some rows → s.attempt r stmt rows = (incs, e) →
      P ((s.txnOf r).run e)) : AllTxns P s' := by
  obtain ⟨rows, hrows, incs, e, hattempt, hend⟩ := execute_cases hs
  have hnext : AllTxns P { s with autoIncs := incs } := ⟨h.sessions, h.flights⟩
  have hran := hrun rows incs e hrows hattempt
  rcases hend with ⟨-, rfl, -⟩ | hstage
  · exact hnext
  · rcases commitStagedOrStage_cases hstage with ⟨t, ht, rfl⟩ | ⟨ht, hend⟩
    · rw [Engine.txnOf, show s.sessions r = .active t from ht] at hran
      exact hnext.active r hran
    · rw [Engine.txnOf, show s.sessions r = .idle from ht] at hran
      rcases hend with rfl | ⟨-, rfl⟩
      · exact hnext.commitTxn r hran
      · exact hnext.active r hran

/-- What holds of the empty transaction and of one more statement holds of every
transaction. -/
theorem step {a : Action} (h : AllTxns P s) (hempty : P .empty)
    (hrun : ∀ r stmt autocommit snap rows incs e, a = .execute r stmt autocommit snap →
      s.base snap = some rows → s.attempt r stmt rows = (incs, e) → P ((s.txnOf r).run e))
    (hs : s.step a = some s') : AllTxns P s' := by
  cases a with
  | execute r stmt autocommit snap =>
    exact h.execute hs fun rows incs e => hrun r stmt autocommit snap rows incs e rfl
  | begin r =>
    simp only [Engine.step, Engine.begin] at hs
    split at hs
    · cases hs
      exact h.active r hempty
    · cases hs
  | commit r =>
    simp only [Engine.step, Engine.commit] at hs
    split at hs
    · next t ht =>
      cases hs
      exact h.commitTxn r (h.sessions r t (Or.inl ht))
    · cases hs
  | rollback r =>
    simp only [Engine.step, Engine.rollback] at hs
    split at hs
    · cases hs
      exact h.idle r
    · cases hs
      exact h.idle r
    · cases hs
  | append r =>
    simp only [Engine.step, Engine.append] at hs
    split at hs
    · next t ht =>
      split at hs
      · cases hs
        exact h.idle r
      · have hbusy : AllTxns P (s.setSession r .busy) := h.setSession r fun t ht => by simp at ht
        have htxn := h.sessions r t (Or.inr ht)
        cases hs
        refine ⟨hbusy.sessions, fun t' ht' => ?_⟩
        rw [List.map_append, List.mem_append] at ht'
        rcases ht' with ht' | ht'
        · exact h.flights t' ht'
        · rw [List.mem_singleton.mp ht']
          exact htxn
    · cases hs
  | sync n =>
    cases hs
    refine ⟨h.sessions, fun t ht => h.flights t ?_⟩
    rwa [map_txn_sync] at ht
  | install =>
    simp only [Engine.step, Engine.install] at hs
    split at hs
    · next f flights hflights =>
      split at hs
      · cases hs
        refine ⟨h.sessions, fun t ht => h.flights t ?_⟩
        rw [hflights, List.map_cons]
        exact List.mem_cons_of_mem _ ht
      · cases hs
    · cases hs
  | finish i =>
    simp only [Engine.step, Engine.finish] at hs
    split at hs
    · next f _ =>
      have hidle := h.idle f.session
      cases hs
      exact ⟨hidle.sessions, h.flights⟩
    · cases hs

end AllTxns

/-- Nothing is appended and nothing installed. -/
structure SameData (s s' : Engine) : Prop where
  schemas : s'.schemas = s.schemas
  rows : s'.rows = s.rows
  past : s'.past = s.past
  flights : s'.flights.map Flight.txn = s.flights.map Flight.txn
  log : s'.log = s.log

theorem SameData.commitTxn (t : Txn) : SameData s (s.commitTxn r t) := by
  unfold Engine.commitTxn
  split <;> exact ⟨rfl, rfl, rfl, rfl, rfl⟩

theorem SameData.execute (hs : s.execute r stmt autocommit snap = some s') : SameData s s' := by
  obtain ⟨rows, -, incs, e, -, ⟨-, rfl, -⟩ | hstage⟩ := execute_cases hs
  · exact ⟨rfl, rfl, rfl, rfl, rfl⟩
  · rcases commitStagedOrStage_cases hstage with ⟨t, -, rfl⟩ | ⟨-, rfl | ⟨-, rfl⟩⟩
    · exact ⟨rfl, rfl, rfl, rfl, rfl⟩
    · obtain ⟨h₁, h₂, h₃, h₄, h₅⟩ := SameData.commitTxn (s := { s with autoIncs := incs }) (r := r)
        (Txn.empty.run e)
      exact ⟨h₁, h₂, h₃, h₄, h₅⟩
    · exact ⟨rfl, rfl, rfl, rfl, rfl⟩

/-- What a step can do to the log and the rows: nothing, an append or an install. -/
theorem data_cases {a : Action} (hs : s.step a = some s') :
    SameData s s' ∨
      (∃ r t, a = .append r ∧ s.sessions r = .committing t ∧ s'.schemas = s.schemas ∧
        s'.rows = s.rows ∧ s'.past = s.past ∧
        s'.flights.map Flight.txn = s.flights.map Flight.txn ++ [t] ∧ s'.log = s.log ++ [t]) ∨
      ∃ t rest, a = .install ∧ s.flights.map Flight.txn = t :: rest ∧ s'.schemas = s.schemas ∧
        s'.rows = view s.rows t.staged ∧ s'.past = s.rows :: s.past ∧
        s'.flights.map Flight.txn = rest ∧ s'.log = s.log := by
  cases a with
  | execute r stmt autocommit snap => exact Or.inl (SameData.execute hs)
  | begin r =>
    simp only [step, Engine.begin] at hs
    split at hs
    · cases hs
      exact Or.inl ⟨rfl, rfl, rfl, rfl, rfl⟩
    · cases hs
  | commit r =>
    simp only [step, Engine.commit] at hs
    split at hs
    · cases hs
      exact Or.inl (SameData.commitTxn _)
    · cases hs
  | rollback r =>
    simp only [step, Engine.rollback] at hs
    split at hs
    · cases hs
      exact Or.inl ⟨rfl, rfl, rfl, rfl, rfl⟩
    · cases hs
      exact Or.inl ⟨rfl, rfl, rfl, rfl, rfl⟩
    · cases hs
  | append r =>
    simp only [step, Engine.append] at hs
    split at hs
    · next t ht =>
      split at hs
      · cases hs
        exact Or.inl ⟨rfl, rfl, rfl, rfl, rfl⟩
      · cases hs
        exact Or.inr (Or.inl ⟨r, t, rfl, ht, rfl, rfl, rfl, List.map_append, rfl⟩)
    · cases hs
  | sync n =>
    cases hs
    exact Or.inl ⟨rfl, rfl, rfl, map_txn_sync s n, rfl⟩
  | install =>
    simp only [step, Engine.install] at hs
    split at hs
    · next f flights hflights =>
      split at hs
      · cases hs
        exact Or.inr (Or.inr ⟨f.txn, flights.map Flight.txn, rfl, by rw [hflights]; rfl, rfl, rfl, rfl,
          rfl, rfl⟩)
      · cases hs
    · cases hs
  | finish i =>
    simp only [step, Engine.finish] at hs
    split at hs
    · cases hs
      exact Or.inl ⟨rfl, rfl, rfl, rfl, rfl⟩
    · cases hs

end Engine

end HenchDB.Session
