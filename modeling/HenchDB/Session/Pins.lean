import HenchDB.Mvcc.Snapshot
import HenchDB.Session.Statement

/-!
# Snapshot pins

A session pins a snapshot in three places: `START TRANSACTION WITH CONSISTENT
SNAPSHOT` (`snapshotBegin`), the first read of a transaction at `REPEATABLE READ`
(`snapshotPinActive`) and, for the length of the statement, any other read
(`snapshotPinStatement`).  The registry entry goes with the pin when `COMMIT` or
`ROLLBACK` runs `snapshotEnd`, or behind the statement (`snapshotEndStatement`).

Four ways out of a transaction skip that: a `COMMIT` whose commit fails returns
with `?` before `snapshotEnd`, `SET autocommit` commits an open transaction and
leaves the pin, and `COM_RESET_CONNECTION` and a disconnect throw the session
away together with the pin, whose entry stays in the registry.

What the rest of the engine makes of a statement is an input here (`Outcome`):
the gates, what parsing and execution return, what a write stages, how a commit
ends and the history it records.
-/

namespace HenchDB.Pins

open Session (Staged)
open Relation (ReflTransGen)
open Mvcc (VersionState SnapshotPin)
open Std (ExtTreeMap)

/-! ## Sessions and statements -/

inductive IsolationLevel where
  | readCommitted
  | repeatableRead
  | serializable
deriving DecidableEq, Repr

structure ActiveTxn where
  id : Nat
  staged : Staged

/-- `Session`, as far as transactions and snapshots go. -/
structure Session where
  txn : Option ActiveTxn
  snapshot : Option SnapshotPin
  isolationLevel : IsolationLevel
  autocommit : Bool

/-- `new_session`, which is `Session::default`. -/
def newSession : Session where
  txn := none
  snapshot := none
  isolationLevel := .repeatableRead
  autocommit := true

/-- `Statement`; the kinds that leave transaction and snapshot alone are one. -/
inductive Statement where
  | begin (isolation : Option IsolationLevel)
  | commit
  | rollback
  | startTransaction (snapshot : Bool) (isolation : Option IsolationLevel)
  | setTransaction (isolation : IsolationLevel) (global : Bool)
  | setVariable (name : List Char) (value : Datum)
  /-- `INSERT`, `UPDATE` and `DELETE`. -/
  | write
  /-- `SELECT` and `EXPLAIN`. -/
  | query
  /-- Everything else. -/
  | other
deriving DecidableEq

/-- What a commit or a change of the catalog leaves of the history. -/
structure History where
  committed : ExtTreeMap TKey Nat
  chains : ExtTreeMap TKey (Mvcc.RowChain Session.Row)
  visibleEpoch : Nat

/-- What the rest of the engine makes of a statement. -/
structure Outcome where
  gated : Bool
  /-- The answer of `try_fast_point_select`, if it takes the statement. -/
  fastSelect : Option (Except Error Unit)
  /-- The answer of `try_fast_point_update`. -/
  fastUpdate : Option (Except Error Unit)
  /-- `max_snapshot_age` as it is printed, when the snapshot held is older. -/
  aged : Option String
  /-- `privilege::enforce`. -/
  enforce : Except Error Unit
  /-- What a write stages; `none` when there is nothing to stage. -/
  stages : Except Error (Option Staged)
  /-- `commit_txn` of rows. -/
  commits : Except Error Unit
  /-- What the statement returns otherwise. -/
  result : Except Error Unit
  history : History

/-- `Database`, as far as snapshots go. -/
structure Database where
  versions : VersionState Session.Row
  visibleEpoch : Nat
  nextTxn : Nat

/-- The database and the session that a call of `execute` gets. -/
structure Call where
  db : Database
  session : Session

namespace Call

/-! ## Pins -/

/-- `snapshot_pin_active` and `snapshot_pin_statement`. -/
def pin (isStatement : Bool) (c : Call) : Call :=
  match c.session.snapshot with
  | some _ => c
  | none =>
    let r := c.db.versions.register c.db.visibleEpoch isStatement
    { db := { c.db with versions := r.1 }, session := { c.session with snapshot := some r.2 } }

def snapshotPinActive (c : Call) : Call := c.pin false

def snapshotPinStatement (c : Call) : Call := c.pin true

def snapshotBegin (c : Call) : Call × Except Error Unit :=
  match c.session.txn with
  | some _ => (c, .error (.txnConflict "transaction already active"))
  | none =>
    let r := c.db.versions.register c.db.visibleEpoch false
    ({ db := { c.db with versions := r.1, nextTxn := c.db.nextTxn + 1 }
       session := { c.session with
         txn := some { id := c.db.nextTxn, staged := ∅ }, snapshot := some r.2 } }, .ok ())

def snapshotEnd (c : Call) : Call :=
  match c.session.snapshot with
  | none => c
  | some pin =>
    { db := { c.db with versions := c.db.versions.release pin }
      session := { c.session with snapshot := none } }

def snapshotEndStatement (c : Call) : Call :=
  match c.session.snapshot with
  | none => c
  | some pin => if pin.isStatement then c.snapshotEnd else c

/-! ## Statements -/

/-- The history that commits and checkpoints leave; the registry is theirs to
keep. -/
def record (h : History) (c : Call) : Call :=
  { c with db := { c.db with
      versions := { c.db.versions with committed := h.committed, chains := h.chains }
      visibleEpoch := h.visibleEpoch } }

/-- `commit_txn`; without rows there is nothing to do. -/
def commitTxn (o : Outcome) (staged : Staged) (c : Call) : Call × Except Error Unit :=
  if staged.isEmpty then (c, .ok ()) else (c.record o.history, o.commits)

/-- `Statement::Begin`. -/
def beginTxn (isolation : Option IsolationLevel) (c : Call) : Call × Except Error Unit :=
  match c.session.txn with
  | some _ => (c, .error (.txnConflict "transaction already active"))
  | none =>
    ({ db := { c.db with nextTxn := c.db.nextTxn + 1 }
       session := { c.session with
         isolationLevel := isolation.getD c.session.isolationLevel
         txn := some { id := c.db.nextTxn, staged := ∅ } } }, .ok ())

def commitStagedOrStage (o : Outcome) (staged : Staged) (c : Call) : Call × Except Error Unit :=
  match c.session.txn with
  | some txn =>
    ({ c with session := { c.session with
        txn := some { txn with staged := txn.staged.extend staged } } }, .ok ())
  | none =>
    if c.session.autocommit then
      commitTxn o staged { c with db := { c.db with nextTxn := c.db.nextTxn + 1 } }
    else
      ({ db := { c.db with nextTxn := c.db.nextTxn + 1 }
         session := { c.session with txn := some { id := c.db.nextTxn, staged := staged } } }, .ok ())

end Call

/-! ## Variables -/

/-- `eq_ignore_ascii_case`. -/
def eqIgnoreCase (s : String) (cs : List Char) : Bool :=
  cs.map Char.toLower = s.toList.map Char.toLower

def isAutocommit (name : List Char) : Bool :=
  ((name.dropWhile (· = '@')).map Char.toLower) ∈
    ["autocommit".toList, "session.autocommit".toList, "global.autocommit".toList]

/-- The value that `autocommit` is set to. -/
def enabledBy : Datum → Bool
  | .int n => n ≠ 0
  | .bool b => b
  | .text s => s.toList.map Char.toUpper ∈ ["1".toList, "ON".toList, "TRUE".toList]
  | _ => false

/-- The level that `transaction_isolation` is set to. -/
def isolationOf (level : IsolationLevel) : Datum → IsolationLevel
  | .text s =>
    let up := (s.toList.map Char.toUpper).map fun c => if c = '_' then '-' else c
    if "READ-COMMITTED".toList <:+: up ∨ "READ COMMITTED".toList <:+: up then .readCommitted
    else if "REPEATABLE-READ".toList <:+: up ∨ "REPEATABLE READ".toList <:+: up then .repeatableRead
    else if "SERIALIZABLE".toList <:+: up then .serializable
    else level
  | _ => level

namespace Call

def setAutocommit (o : Outcome) (enabled : Bool) (c : Call) : Call × Except Error Unit :=
  match c.session.txn with
  | some txn =>
    if enabled && !c.session.autocommit then
      let r := commitTxn o txn.staged { c with session := { c.session with txn := none } }
      match r.2 with
      | .ok _ =>
        ({ r.1 with session := { r.1.session with autocommit := enabled } }, .ok ())
      | .error e => (r.1, .error e)
    else ({ c with session := { c.session with autocommit := enabled } }, .ok ())
  | none => ({ c with session := { c.session with autocommit := enabled } }, .ok ())

/-- `Statement::SetVariable`; the limits of a query are left to `Outcome.result`. -/
def setVariable (o : Outcome) (name : List Char) (value : Datum) (c : Call) :
    Call × Except Error Unit :=
  if isAutocommit name then c.setAutocommit o (enabledBy value)
  else if eqIgnoreCase "transaction_isolation" name || eqIgnoreCase "tx_isolation" name then
    ({ c with session := { c.session with
        isolationLevel := isolationOf c.session.isolationLevel value } }, .ok ())
  else (c, o.result)

def commit (o : Outcome) (c : Call) : Call × Except Error Unit :=
  match c.session.txn with
  | none => (c.snapshotEnd, .ok ())
  | some txn =>
    let r := commitTxn o txn.staged { c with session := { c.session with txn := none } }
    match r.2 with
    | .ok _ => (r.1.snapshotEnd, .ok ())
    | .error e => (r.1, .error e)

def rollback (c : Call) : Call × Except Error Unit :=
  ({ c with session := { c.session with txn := none } }.snapshotEnd, .ok ())

def startTransaction (snapshot : Bool) (isolation : Option IsolationLevel) (c : Call) :
    Call × Except Error Unit :=
  let c := { c with session := { c.session with
    isolationLevel := isolation.getD c.session.isolationLevel } }
  if snapshot then c.snapshotBegin else c.beginTxn isolation

/-- `INSERT`, `UPDATE` and `DELETE`. -/
def write (o : Outcome) (c : Call) : Call × Except Error Unit :=
  match o.stages with
  | .error e => (c, .error e)
  | .ok none => (c.record o.history, o.result)
  | .ok (some staged) => c.commitStagedOrStage o staged

def executeStmt (o : Outcome) (stmt : Statement) (c : Call) : Call × Except Error Unit :=
  match o.enforce with
  | .error e => (c, .error e)
  | .ok _ =>
    match stmt with
    | .begin isolation => c.beginTxn isolation
    | .commit => c.commit o
    | .rollback => c.rollback
    | .startTransaction snapshot isolation => c.startTransaction snapshot isolation
    | .setTransaction isolation global =>
      (if global then c else { c with session := { c.session with isolationLevel := isolation } },
        .ok ())
    | .setVariable name value => c.setVariable o name value
    | .write => c.write o
    | .query => (c, o.result)
    | .other => (c.record o.history, o.result)

end Call

/-! ## Texts -/

/-- `split_whitespace().next()`. -/
def firstWord (text : List Char) : List Char :=
  (text.dropWhile DateTime.isWhite).takeWhile fun c => !DateTime.isWhite c

def isRead (text : List Char) : Bool :=
  ["select", "explain", "with"].any fun s => eqIgnoreCase s (firstWord text)

/-- A statement that a session sends: its trimmed text, what `parse_sql` makes of
it and what the engine does.  The grammar knows `SELECT` and `EXPLAIN` by their
first word, and no statement that begins with `WITH`. -/
structure Request where
  text : List Char
  parsed : Except Error Statement
  outcome : Outcome
  read : isRead text → ∀ stmt, parsed = .ok stmt → stmt = .query

namespace Request

/-- The statements that `execute_routed` knows by their text. -/
def direct (q : Request) : Option Statement :=
  if eqIgnoreCase "begin" q.text || eqIgnoreCase "begin;" q.text then some (.begin none)
  else if eqIgnoreCase "commit" q.text || eqIgnoreCase "commit;" q.text then some .commit
  else if eqIgnoreCase "rollback" q.text || eqIgnoreCase "rollback;" q.text then some .rollback
  else none

/-- `try_fast_point_select`: neither in a transaction nor with a snapshot. -/
def fastSelect (q : Request) (s : Session) : Option (Except Error Unit) :=
  if s.txn.isSome || s.snapshot.isSome then none else q.outcome.fastSelect

/-- `try_fast_point_update`: not in a transaction. -/
def fastUpdate (q : Request) (s : Session) : Option (Except Error Unit) :=
  if s.txn.isSome then none else q.outcome.fastUpdate

def tooOld (q : Request) (s : Session) : Option String :=
  if s.snapshot.isSome then q.outcome.aged else none

end Request

namespace Call

/-- `prepare_statement_snapshot` behind the age test. -/
def prepare (text : List Char) (c : Call) : Call :=
  if isRead text then
    if c.session.txn.isSome then
      if c.session.isolationLevel = .repeatableRead then c.snapshotPinActive
      else c.snapshotPinStatement
    else c.snapshotPinStatement
  else c

def executeInner (q : Request) (c : Call) : Call × Except Error Unit :=
  match q.parsed with
  | .error e => (c, .error e)
  | .ok stmt => c.executeStmt q.outcome stmt

def executeRouted (q : Request) (c : Call) : Call × Except Error Unit :=
  match q.direct with
  | some stmt => c.executeStmt q.outcome stmt
  | none =>
    match q.fastSelect c.session with
    | some answer => (c, answer)
    | none =>
      match q.fastUpdate c.session with
      | some answer => (c.record q.outcome.history, answer)
      | none =>
        match q.tooOld c.session with
        | some age =>
          (c, .error (.executionError s!"snapshot exceeded maximum configured age limit ({age})"))
        | none =>
          let r := (c.prepare q.text).executeInner q
          (r.1.snapshotEndStatement, r.2)

def execute (q : Request) (c : Call) : Call × Except Error Unit :=
  if q.outcome.gated then (c, .error .readOnlyReplica) else c.executeRouted q

end Call

/-! ## The server -/

/-- The database and the live sessions. -/
structure Server where
  db : Database
  sessions : Nat → Option Session

/-- What happens to a session. -/
inductive Event where
  | connect (r : Nat)
  | execute (r : Nat) (q : Request)
  /-- `COM_RESET_CONNECTION`. -/
  | reset (r : Nat)
  | disconnect (r : Nat)

namespace Server

def setSession (s : Server) (r : Nat) (session : Option Session) : Server :=
  { s with sessions := Function.update s.sessions r session }

/-- The server behind a call of session `r`. -/
def back (s : Server) (r : Nat) (c : Call) : Server :=
  { db := c.db, sessions := Function.update s.sessions r (some c.session) }

def step (s : Server) : Event → Option Server
  | .connect r => if (s.sessions r).isNone then some (s.setSession r (some newSession)) else none
  | .execute r q =>
    (s.sessions r).map fun session => s.back r (Call.execute q { db := s.db, session := session }).1
  | .reset r => (s.sessions r).map fun _ => s.setSession r (some newSession)
  | .disconnect r => (s.sessions r).map fun _ => s.setSession r none

@[simp]
theorem sessions_setSession (s : Server) (r : Nat) (session : Option Session) :
    (s.setSession r session).sessions = Function.update s.sessions r session := rfl

@[simp]
theorem sessions_back (s : Server) (r : Nat) (c : Call) :
    (s.back r c).sessions = Function.update s.sessions r (some c.session) := rfl

/-- A database that has just been opened. -/
def start (visibleEpoch nextTxn : Nat) : Server where
  db := { versions := .new, visibleEpoch := visibleEpoch, nextTxn := nextTxn }
  sessions := fun _ => none

end Server

/-! ## What should hold -/

/-- Pins match transactions: a session without a transaction holds no snapshot,
and every registered snapshot is held by a live session. -/
structure Server.Matched (s : Server) : Prop where
  idle : ∀ r session, s.sessions r = some session → session.txn = none → session.snapshot = none
  owned : ∀ id, id ∈ s.db.versions.snapshots → ∃ r session pin,
    s.sessions r = some session ∧ session.snapshot = some pin ∧ pin.id = id

/-- The statement that comes to `execute_stmt`, if one does. -/
def Request.reaches (q : Request) (s : Session) : Option Statement :=
  if q.outcome.gated then none
  else
    match q.direct with
    | some stmt => some stmt
    | none =>
      if (q.fastSelect s).isSome || (q.fastUpdate s).isSome || (q.tooOld s).isSome then none
      else q.parsed.toOption

/-- A statement does not end a transaction in a way that forgets the snapshot: a
`COMMIT` with a snapshot commits, and `SET autocommit` finds none to forget. -/
def Statement.Releases (o : Outcome) (s : Session) : Statement → Prop
  | .commit => ∀ txn, s.txn = some txn → s.snapshot.isSome →
      txn.staged.isEmpty = true ∨ o.commits = .ok ()
  | .setVariable name value => isAutocommit name = true → enabledBy value = true →
      s.autocommit = false → s.txn.isSome → s.snapshot = none
  | _ => True

/-- The same of what a session sends, when it passes the privilege gate. -/
def Request.Releases (q : Request) (s : Session) : Prop :=
  ∀ stmt, q.reaches s = some stmt → q.outcome.enforce = .ok () → stmt.Releases q.outcome s

/-- A session is thrown away only when it holds no snapshot. -/
def Event.Clean (s : Server) : Event → Prop
  | .connect _ => True
  | .execute r q => ∀ session, s.sessions r = some session → q.Releases session
  | .reset r | .disconnect r => ∀ session, s.sessions r = some session → session.snapshot = none

/-! ## The registry -/

inductive Move : Option SnapshotPin × VersionState Session.Row →
    Option SnapshotPin × VersionState Session.Row → Prop
  /-- The registry stays; the history may change. -/
  | keep {p : Option SnapshotPin} {vs vs' : VersionState Session.Row} (hs : vs'.snapshots = vs.snapshots)
      (hn : vs'.nextSnapshotId = vs.nextSnapshotId) : Move (p, vs) (p, vs')
  | take (vs : VersionState Session.Row) (epoch : Nat) (isStatement : Bool) :
      Move (none, vs) (some (vs.register epoch isStatement).2, (vs.register epoch isStatement).1)
  | drop (vs : VersionState Session.Row) (pin : SnapshotPin) : Move (some pin, vs) (none, vs.release pin)

abbrev Moves := ReflTransGen Move

/-- The registry lists the snapshots that are held, each under an id of its own. -/
structure Registered (held : Nat → Option SnapshotPin) (vs : VersionState Session.Row) : Prop where
  owned : ∀ id, id ∈ vs.snapshots → ∃ r pin, held r = some pin ∧ pin.id = id
  listed : ∀ r pin, held r = some pin → pin.id ∈ vs.snapshots
  apart : ∀ r r' pin pin', held r = some pin → held r' = some pin' → pin.id = pin'.id → r = r'
  fresh : ∀ id, id ∈ vs.snapshots → id < vs.nextSnapshotId

section Registry

variable {held : Nat → Option SnapshotPin} {vs vs' : VersionState Session.Row} {r : Nat}
  {p p' : Option SnapshotPin} {pin : SnapshotPin}

theorem mem_snapshots_release {id : Nat} :
    id ∈ (vs.release pin).snapshots ↔ id ≠ pin.id ∧ id ∈ vs.snapshots := by
  rw [VersionState.release, Mvcc.Engine.gcLocked_snapshots, ExtTreeMap.mem_erase]
  refine and_congr_left fun _ => ?_
  rw [ne_eq, Std.compare_eq_iff_eq, eq_comm]

theorem Registered.keep (h : Registered held vs) (hs : vs'.snapshots = vs.snapshots)
    (hn : vs'.nextSnapshotId = vs.nextSnapshotId) : Registered held vs' where
  owned id hid := h.owned id (hs ▸ hid)
  listed r pin hpin := hs ▸ h.listed r pin hpin
  apart := h.apart
  fresh id hid := hn ▸ h.fresh id (hs ▸ hid)

theorem Registered.take (h : Registered held vs) (hr : held r = none) (epoch : Nat)
    (isStatement : Bool) :
    Registered (Function.update held r (some (vs.register epoch isStatement).2))
      (vs.register epoch isStatement).1 where
  owned id hid := by
    simp only [VersionState.register, ExtTreeMap.mem_insert, Std.compare_eq_iff_eq] at hid
    rcases hid with rfl | hid
    · exact ⟨r, _, Function.update_self .., rfl⟩
    · obtain ⟨r', pin, hpin, hidpin⟩ := h.owned id hid
      refine ⟨r', pin, ?_, hidpin⟩
      rw [Function.update_of_ne, hpin]
      rintro rfl
      rw [hr] at hpin
      cases hpin
  listed r' pin hpin := by
    simp only [VersionState.register, ExtTreeMap.mem_insert, Std.compare_eq_iff_eq]
    by_cases hr' : r' = r
    · subst hr'
      rw [Function.update_self] at hpin
      cases hpin
      exact Or.inl rfl
    · rw [Function.update_of_ne hr'] at hpin
      exact Or.inr (h.listed r' pin hpin)
  apart r₁ r₂ pin₁ pin₂ h₁ h₂ hids := by
    -- the new id is above those that are registered
    have hnew : ∀ r' pin', held r' = some pin' → pin'.id ≠ vs.nextSnapshotId := by
      intro r' pin' hpin'
      exact (h.fresh _ (h.listed r' pin' hpin')).ne
    by_cases hr₁ : r₁ = r <;> by_cases hr₂ : r₂ = r
    · rw [hr₁, hr₂]
    · subst hr₁
      rw [Function.update_self] at h₁
      rw [Function.update_of_ne hr₂] at h₂
      cases h₁
      exact absurd hids.symm (hnew r₂ pin₂ h₂)
    · subst hr₂
      rw [Function.update_self] at h₂
      rw [Function.update_of_ne hr₁] at h₁
      cases h₂
      exact absurd hids (hnew r₁ pin₁ h₁)
    · rw [Function.update_of_ne hr₁] at h₁
      rw [Function.update_of_ne hr₂] at h₂
      exact h.apart r₁ r₂ pin₁ pin₂ h₁ h₂ hids
  fresh id hid := by
    simp only [VersionState.register, ExtTreeMap.mem_insert, Std.compare_eq_iff_eq] at hid ⊢
    rcases hid with rfl | hid
    · omega
    · have := h.fresh id hid
      omega

theorem Registered.drop (h : Registered held vs) (hr : held r = some pin) :
    Registered (Function.update held r none) (vs.release pin) where
  owned id hid := by
    rw [mem_snapshots_release] at hid
    obtain ⟨r', pin', hpin', hid'⟩ := h.owned id hid.2
    refine ⟨r', pin', ?_, hid'⟩
    rw [Function.update_of_ne, hpin']
    rintro rfl
    rw [hr] at hpin'
    cases hpin'
    exact hid.1 hid'.symm
  listed r' pin' hpin' := by
    by_cases hr' : r' = r
    · subst hr'
      rw [Function.update_self] at hpin'
      cases hpin'
    · rw [Function.update_of_ne hr'] at hpin'
      rw [mem_snapshots_release]
      exact ⟨fun hid => hr' (h.apart r' r pin' pin hpin' hr hid), h.listed r' pin' hpin'⟩
  apart r₁ r₂ pin₁ pin₂ h₁ h₂ hids := by
    have hback : ∀ r' pin', Function.update held r none r' = some pin' → held r' = some pin' := by
      intro r' pin' h'
      by_cases hr' : r' = r
      · subst hr'
        rw [Function.update_self] at h'
        cases h'
      · rwa [Function.update_of_ne hr'] at h'
    exact h.apart r₁ r₂ pin₁ pin₂ (hback r₁ pin₁ h₁) (hback r₂ pin₂ h₂) hids
  fresh id hid := by
    rw [mem_snapshots_release] at hid
    rw [VersionState.release, Mvcc.Engine.gcLocked_nextSnapshotId]
    exact h.fresh id hid.2

/-- Whatever a session does, the registry lists what is held. -/
theorem Registered.moves (h : Registered held vs) (hm : Moves (held r, vs) (p', vs')) :
    Registered (Function.update held r p') vs' := by
  have hrun := Transition.invariant
    (P := fun x => Registered (Function.update held r x.1) x.2) (s := (held r, vs)) ?_ ?_ hm
  · exact hrun
  · simpa using h
  · rintro ⟨p, vs⟩ ⟨p', vs'⟩ hreg hmove
    cases hmove with
    | keep hs hn => exact hreg.keep hs hn
    | take _ epoch isStatement =>
      simpa using hreg.take (r := r) (Function.update_self ..) epoch isStatement
    | drop _ pin => simpa using hreg.drop (r := r) (Function.update_self ..)

end Registry

/-! ## What a statement does to the registry -/

def Call.pins (c : Call) : Option SnapshotPin × VersionState Session.Row :=
  (c.session.snapshot, c.db.versions)

def Session.Idle (s : Session) : Prop := s.txn = none → s.snapshot = none

def Session.Lasting (s : Session) : Prop := ∀ pin, s.snapshot = some pin → pin.isStatement = false

namespace Call

variable {o : Outcome} {c : Call} {q : Request}

theorem moves_snapshotEnd : Moves c.pins c.snapshotEnd.pins := by
  obtain ⟨db, session⟩ := c
  obtain ⟨txn, snapshot, level, autocommit⟩ := session
  cases snapshot with
  | none => exact .refl
  | some pin => exact .single (.drop _ pin)

@[simp]
theorem snapshot_snapshotEnd : c.snapshotEnd.session.snapshot = none := by
  unfold snapshotEnd
  split
  · assumption
  · rfl

@[simp]
theorem txn_snapshotEnd : c.snapshotEnd.session.txn = c.session.txn := by
  unfold snapshotEnd
  split <;> rfl

theorem moves_record (h : History) : Moves c.pins (c.record h).pins := .single (.keep rfl rfl)

theorem moves_pin (isStatement : Bool) : Moves c.pins (c.pin isStatement).pins := by
  obtain ⟨db, session⟩ := c
  obtain ⟨txn, snapshot, level, autocommit⟩ := session
  cases snapshot with
  | none => exact .single (.take _ _ isStatement)
  | some pin => exact .refl

theorem moves_commitTxn (staged : Staged) : Moves c.pins (c.commitTxn o staged).1.pins := by
  unfold commitTxn
  split
  · exact .refl
  · exact moves_record _

@[simp]
theorem session_commitTxn (staged : Staged) : (c.commitTxn o staged).1.session = c.session := by
  unfold commitTxn
  split <;> rfl

theorem commitTxn_ok_iff (staged : Staged) :
    (c.commitTxn o staged).2 = .ok () ↔ staged.isEmpty = true ∨ o.commits = .ok () := by
  unfold commitTxn
  split
  · next h => simp [h]
  · next h => simp [h]

/-! ## Transactions -/

theorem moves_commit : Moves c.pins (c.commit o).1.pins := by
  unfold commit
  split
  · exact moves_snapshotEnd
  · next txn htxn =>
    have hcommit : Moves c.pins
        (commitTxn o txn.staged { c with session := { c.session with txn := none } }).1.pins :=
      moves_commitTxn (c := { c with session := { c.session with txn := none } }) txn.staged
    dsimp only
    split
    · exact hcommit.trans moves_snapshotEnd
    · exact hcommit

/-- `COMMIT` forgets the snapshot when, and only when, the commit fails. -/
theorem idle_commit_iff : (c.commit o).1.session.Idle ↔ Statement.commit.Releases o c.session := by
  unfold commit
  split
  · next htxn => simp [Session.Idle, Statement.Releases, htxn]
  · next txn htxn =>
    have hok := commitTxn_ok_iff (o := o)
      (c := { c with session := { c.session with txn := none } }) txn.staged
    dsimp only
    split
    · next u hr =>
      rw [hr] at hok
      refine iff_of_true (fun _ => snapshot_snapshotEnd) fun t ht _ => ?_
      rw [htxn] at ht
      cases ht
      exact hok.mp rfl
    · next e hr =>
      rw [hr] at hok
      have hfail : ¬(txn.staged.isEmpty = true ∨ o.commits = .ok ()) := fun h => nomatch hok.mpr h
      rw [Session.Idle, session_commitTxn, Statement.Releases]
      constructor
      · intro hidle t _ hsnap
        rw [hidle rfl] at hsnap
        cases hsnap
      · intro hrel _
        by_contra hsnap
        exact hfail (hrel txn htxn (Option.isSome_iff_ne_none.mpr hsnap))

theorem moves_setAutocommit (enabled : Bool) : Moves c.pins (c.setAutocommit o enabled).1.pins := by
  unfold setAutocommit
  split
  · next txn htxn =>
    have hcommit : Moves c.pins
        (commitTxn o txn.staged { c with session := { c.session with txn := none } }).1.pins :=
      moves_commitTxn (c := { c with session := { c.session with txn := none } }) txn.staged
    split
    · dsimp only
      split <;> exact hcommit
    · exact .refl
  · exact .refl

/-- Turning `autocommit` on in a transaction forgets the snapshot. -/
theorem idle_setAutocommit_iff (h : c.session.Idle) (enabled : Bool) :
    (c.setAutocommit o enabled).1.session.Idle ↔
      (enabled = true → c.session.autocommit = false → c.session.txn.isSome →
        c.session.snapshot = none) := by
  unfold setAutocommit
  split
  · next txn htxn =>
    split
    · next hon =>
      rw [Bool.and_eq_true, Bool.not_eq_true'] at hon
      dsimp only
      split <;> simp [Session.Idle, htxn, hon]
    · next hoff =>
      rw [Bool.and_eq_true, Bool.not_eq_true'] at hoff
      refine iff_of_true (fun hnone => ?_) (fun hon hauto _ => absurd ⟨hon, hauto⟩ hoff)
      rw [htxn] at hnone
      cases hnone
  · next htxn => exact iff_of_true h fun _ _ _ => h htxn

theorem moves_beginTxn (isolation : Option IsolationLevel) :
    Moves c.pins (c.beginTxn isolation).1.pins := by
  unfold beginTxn
  split <;> exact .refl

theorem idle_beginTxn (h : c.session.Idle) (isolation : Option IsolationLevel) :
    (c.beginTxn isolation).1.session.Idle := by
  unfold beginTxn
  split
  · exact h
  · intro hnone
    cases hnone

/-- A new snapshot replaces none, since there is none outside a transaction. -/
theorem moves_snapshotBegin (h : c.session.Idle) : Moves c.pins c.snapshotBegin.1.pins := by
  unfold snapshotBegin
  split
  · exact .refl
  · next htxn =>
    have hpins : c.pins = (none, c.db.versions) := by rw [pins, h htxn]
    rw [hpins]
    exact .single (.take _ _ false)

theorem idle_snapshotBegin (h : c.session.Idle) : c.snapshotBegin.1.session.Idle := by
  unfold snapshotBegin
  split
  · exact h
  · intro hnone
    cases hnone

theorem moves_commitStagedOrStage (staged : Staged) :
    Moves c.pins (c.commitStagedOrStage o staged).1.pins := by
  unfold commitStagedOrStage
  split
  · exact .refl
  · split
    · exact moves_commitTxn (c := { c with db := { c.db with nextTxn := c.db.nextTxn + 1 } }) staged
    · exact .refl

theorem idle_commitStagedOrStage (h : c.session.Idle) (staged : Staged) :
    (c.commitStagedOrStage o staged).1.session.Idle := by
  unfold commitStagedOrStage
  split
  · intro hnone
    cases hnone
  · split
    · rw [session_commitTxn]
      exact h
    · intro hnone
      cases hnone

/-! ## Statements -/

theorem moves_executeStmt (h : c.session.Idle) (stmt : Statement) :
    Moves c.pins (c.executeStmt o stmt).1.pins := by
  unfold executeStmt
  split
  · exact .refl
  · cases stmt with
    | begin isolation => exact moves_beginTxn isolation
    | commit => exact moves_commit
    | rollback =>
      exact moves_snapshotEnd (c := { c with session := { c.session with txn := none } })
    | startTransaction snapshot isolation =>
      dsimp only [startTransaction]
      split
      · exact moves_snapshotBegin (c := { c with session := { c.session with
          isolationLevel := isolation.getD c.session.isolationLevel } }) h
      · exact moves_beginTxn (c := { c with session := { c.session with
          isolationLevel := isolation.getD c.session.isolationLevel } }) isolation
    | setTransaction isolation global =>
      dsimp only
      split <;> exact .refl
    | setVariable name value =>
      dsimp only [setVariable]
      split
      · exact moves_setAutocommit _
      · split <;> exact .refl
    | write =>
      dsimp only [write]
      split
      · exact .refl
      · exact moves_record _
      · exact moves_commitStagedOrStage _
    | query => exact .refl
    | other => exact moves_record _

/-- Behind a statement that runs, a session without a transaction holds no
snapshot if and only if the statement does not forget it. -/
theorem idle_runStmt_iff (h : c.session.Idle) (henforce : o.enforce = .ok ()) (stmt : Statement) :
    (c.executeStmt o stmt).1.session.Idle ↔ stmt.Releases o c.session := by
  unfold executeStmt
  rw [henforce]
  cases stmt with
  | commit => exact idle_commit_iff
  | setVariable name value =>
    dsimp only [setVariable]
    split
    · next hname =>
      rw [idle_setAutocommit_iff h, Statement.Releases]
      exact ⟨fun hrel _ => hrel, fun hrel => hrel hname⟩
    · next hname =>
      refine iff_of_true ?_ fun hname' => absurd hname' hname
      split <;> exact h
  | begin isolation => exact iff_of_true (idle_beginTxn h isolation) trivial
  | rollback => exact iff_of_true (fun _ => snapshot_snapshotEnd) trivial
  | startTransaction snapshot isolation =>
    refine iff_of_true ?_ trivial
    dsimp only [startTransaction]
    split
    · exact idle_snapshotBegin (c := { c with session := { c.session with
        isolationLevel := isolation.getD c.session.isolationLevel } }) h
    · exact idle_beginTxn (c := { c with session := { c.session with
        isolationLevel := isolation.getD c.session.isolationLevel } }) h isolation
  | setTransaction isolation global =>
    refine iff_of_true ?_ trivial
    dsimp only
    split <;> exact h
  | write =>
    refine iff_of_true ?_ trivial
    dsimp only [write]
    split
    · exact h
    · exact h
    · exact idle_commitStagedOrStage h _
  | query => exact iff_of_true h trivial
  | other => exact iff_of_true h trivial

/-- The same of a statement that the privilege gate may turn away. -/
theorem idle_executeStmt_iff (h : c.session.Idle) (stmt : Statement) :
    (c.executeStmt o stmt).1.session.Idle ↔ (o.enforce = .ok () → stmt.Releases o c.session) := by
  cases henforce : o.enforce with
  | error e =>
    refine iff_of_true ?_ fun hok => nomatch hok
    unfold executeStmt
    rw [henforce]
    exact h
  | ok u =>
    rw [idle_runStmt_iff h henforce]
    exact ⟨fun hrel _ => hrel, fun hrel => hrel rfl⟩

theorem snapshot_beginTxn (isolation : Option IsolationLevel) :
    (c.beginTxn isolation).1.session.snapshot = c.session.snapshot := by
  unfold beginTxn
  split <;> rfl

/-- A statement pins no snapshot of its own. -/
theorem lasting_executeStmt (h : c.session.Lasting) (stmt : Statement) :
    (c.executeStmt o stmt).1.session.Lasting := by
  intro pin hpin
  unfold executeStmt at hpin
  split at hpin
  · exact h pin hpin
  · cases stmt with
    | begin isolation =>
      dsimp only at hpin
      rw [snapshot_beginTxn] at hpin
      exact h pin hpin
    | commit =>
      dsimp only [commit] at hpin
      split at hpin
      · rw [snapshot_snapshotEnd] at hpin
        cases hpin
      · split at hpin
        · rw [snapshot_snapshotEnd] at hpin
          cases hpin
        · rw [session_commitTxn] at hpin
          exact h pin hpin
    | rollback =>
      dsimp only [rollback] at hpin
      rw [snapshot_snapshotEnd] at hpin
      cases hpin
    | startTransaction snapshot isolation =>
      dsimp only [startTransaction] at hpin
      split at hpin
      · unfold snapshotBegin at hpin
        split at hpin
        · exact h pin hpin
        · cases hpin
          rfl
      · rw [snapshot_beginTxn] at hpin
        exact h pin hpin
    | setTransaction isolation global =>
      dsimp only at hpin
      split at hpin <;> exact h pin hpin
    | setVariable name value =>
      dsimp only [setVariable] at hpin
      split at hpin
      · unfold setAutocommit at hpin
        split at hpin
        · split at hpin
          · dsimp only at hpin
            split at hpin <;>
              · simp only [session_commitTxn] at hpin
                exact h pin hpin
          · exact h pin hpin
        · exact h pin hpin
      · split at hpin <;> exact h pin hpin
    | write =>
      dsimp only [write] at hpin
      split at hpin
      · exact h pin hpin
      · exact h pin hpin
      · unfold commitStagedOrStage at hpin
        split at hpin
        · exact h pin hpin
        · split at hpin
          · rw [session_commitTxn] at hpin
            exact h pin hpin
          · exact h pin hpin
    | query => exact h pin hpin
    | other => exact h pin hpin

/-! ## Texts -/

@[simp]
theorem txn_pin (isStatement : Bool) : (c.pin isStatement).session.txn = c.session.txn := by
  unfold pin
  split <;> rfl

theorem moves_prepare (text : List Char) : Moves c.pins (c.prepare text).pins := by
  unfold prepare
  split
  · split
    · split
      · exact moves_pin false
      · exact moves_pin true
    · exact moves_pin true
  · exact .refl

@[simp]
theorem txn_prepare (text : List Char) : (c.prepare text).session.txn = c.session.txn := by
  unfold prepare snapshotPinActive snapshotPinStatement
  split
  · split
    · split <;> exact txn_pin _
    · exact txn_pin true
  · rfl

theorem moves_snapshotEndStatement : Moves c.pins c.snapshotEndStatement.pins := by
  unfold snapshotEndStatement
  split
  · exact .refl
  · split
    · exact moves_snapshotEnd
    · exact .refl

@[simp]
theorem txn_snapshotEndStatement : c.snapshotEndStatement.session.txn = c.session.txn := by
  unfold snapshotEndStatement
  split
  · rfl
  · split
    · exact txn_snapshotEnd
    · rfl

/-- What is left behind the statement is not of the statement. -/
theorem lasting_snapshotEndStatement : c.snapshotEndStatement.session.Lasting := by
  intro pin hpin
  unfold snapshotEndStatement at hpin
  split at hpin
  · next hnone => simp [hnone] at hpin
  · next pin' hpin' =>
    split at hpin
    · rw [snapshot_snapshotEnd] at hpin
      cases hpin
    · next hstmt =>
      rw [hpin'] at hpin
      cases hpin
      exact Bool.not_eq_true _ ▸ hstmt

theorem snapshotEndStatement_of_lasting (h : c.session.Lasting) : c.snapshotEndStatement = c := by
  unfold snapshotEndStatement
  split
  · rfl
  · next pin hpin => simp [h pin hpin]

theorem executeInner_read (hread : isRead q.text) : (c.executeInner q).1 = c := by
  unfold executeInner
  cases hp : q.parsed with
  | error e => rfl
  | ok stmt =>
    rw [q.read hread stmt hp]
    unfold executeStmt
    cases q.outcome.enforce <;> rfl

/-- The snapshot that a read outside a transaction pins goes with it. -/
theorem idle_read {text : List Char} (h : c.session.Idle) (hread : isRead text) :
    (c.prepare text).snapshotEndStatement.session.Idle := by
  intro hnone
  rw [txn_snapshotEndStatement, txn_prepare] at hnone
  have hpinned : (c.prepare text).session.snapshot =
      some (c.db.versions.register c.db.visibleEpoch true).2 := by
    simp [prepare, hread, hnone, snapshotPinStatement, pin, h hnone]
  rw [snapshotEndStatement, hpinned]
  simp [VersionState.register]

theorem prepare_of_not_read {text : List Char} (hread : ¬isRead text) : c.prepare text = c := by
  rw [prepare, if_neg hread]

theorem moves_executeRouted (h : c.session.Idle) : Moves c.pins (c.executeRouted q).1.pins := by
  unfold executeRouted
  split
  · exact moves_executeStmt h _
  · split
    · exact .refl
    · split
      · exact moves_record _
      · split
        · exact .refl
        · dsimp only
          refine .trans ?_ moves_snapshotEndStatement
          by_cases hread : isRead q.text
          · rw [executeInner_read hread]
            exact moves_prepare q.text
          · rw [prepare_of_not_read hread]
            unfold executeInner
            split
            · exact .refl
            · exact moves_executeStmt h _

theorem lasting_executeRouted (h : c.session.Lasting) : (c.executeRouted q).1.session.Lasting := by
  unfold executeRouted
  split
  · exact lasting_executeStmt h _
  · split
    · exact h
    · split
      · exact h
      · split
        · exact h
        · exact lasting_snapshotEndStatement

theorem idle_executeRouted_iff (h : c.session.Idle) (hlast : c.session.Lasting)
    (hgated : q.outcome.gated = false) :
    (c.executeRouted q).1.session.Idle ↔ q.Releases c.session := by
  unfold executeRouted Request.Releases Request.reaches
  rw [hgated]
  cases hdirect : q.direct with
  | some stmt =>
    rw [idle_executeStmt_iff h]
    simp
  | none =>
    cases hselect : q.fastSelect c.session with
    | some answer => simpa using h
    | none =>
      cases hupdate : q.fastUpdate c.session with
      | some answer => exact iff_of_true h (by simp)
      | none =>
        cases hold : q.tooOld c.session with
        | some age => simpa using h
        | none =>
          dsimp only
          by_cases hread : isRead q.text
          · -- a read is a query, which forgets nothing
            rw [executeInner_read hread]
            refine iff_of_true (idle_read h hread) fun stmt hstmt _ => ?_
            have hparsed : q.parsed = .ok stmt := by
              cases hp : q.parsed <;> simp_all [Except.toOption]
            rw [q.read hread stmt hparsed]
            trivial
          · rw [prepare_of_not_read hread]
            unfold executeInner
            cases hparsed : q.parsed with
            | error e =>
              dsimp only
              rw [snapshotEndStatement_of_lasting hlast]
              simpa [Except.toOption] using h
            | ok stmt =>
              dsimp only
              rw [snapshotEndStatement_of_lasting (lasting_executeStmt hlast stmt),
                idle_executeStmt_iff h]
              simp [Except.toOption]

theorem moves_execute (h : c.session.Idle) : Moves c.pins (c.execute q).1.pins := by
  unfold execute
  split
  · exact .refl
  · exact moves_executeRouted h

theorem lasting_execute (h : c.session.Lasting) : (c.execute q).1.session.Lasting := by
  unfold execute
  split
  · exact h
  · exact lasting_executeRouted h

/-- What a session sends leaves it without a snapshot outside a transaction if and
only if it does not forget one. -/
theorem idle_execute_iff (h : c.session.Idle) (hlast : c.session.Lasting) :
    (c.execute q).1.session.Idle ↔ q.Releases c.session := by
  unfold execute
  cases hgated : q.outcome.gated with
  | true => exact iff_of_true h fun stmt hstmt => by simp [Request.reaches, hgated] at hstmt
  | false => exact idle_executeRouted_iff h hlast hgated

end Call

/-! ## Runs -/

namespace Server

variable {s s' : Server} {e : Event} {r : Nat}

def held (s : Server) (r : Nat) : Option SnapshotPin := (s.sessions r).bind Session.snapshot

/-- Pins match transactions, and the registry lists what is held. -/
structure Inv (s : Server) : Prop where
  registered : Registered s.held s.db.versions
  idle : ∀ r session, s.sessions r = some session → session.Idle
  lasting : ∀ r session, s.sessions r = some session → session.Lasting

theorem held_of_session {session : Session} (h : s.sessions r = some session) :
    s.held r = session.snapshot := by
  rw [held, h, Option.bind_some]

theorem Inv.matched (h : s.Inv) : s.Matched where
  idle := h.idle
  owned id hid := by
    obtain ⟨r, pin, hpin, hidpin⟩ := h.registered.owned id hid
    obtain ⟨session, hsession, hsnap⟩ := Option.bind_eq_some_iff.mp hpin
    exact ⟨r, session, pin, hsession, hsnap, hidpin⟩

theorem inv_start (visibleEpoch nextTxn : Nat) : (start visibleEpoch nextTxn).Inv where
  registered :=
    { owned := fun id hid => by simp [start, VersionState.new] at hid
      listed := fun r pin hpin => by simp [held, start] at hpin
      apart := fun r r' pin pin' hpin => by simp [held, start] at hpin
      fresh := fun id hid => by simp [start, VersionState.new] at hid }
  idle r session h := by cases h
  lasting r session h := by cases h

/-! ### Sessions that come and go -/

/-- A session that is put in place of another holds nothing, if there is one. -/
def IsNew (x : Option Session) : Prop := ∀ session, x = some session → session = newSession

theorem held_setSession {x : Option Session} (hx : IsNew x) :
    (s.setSession r x).held = Function.update s.held r none := by
  funext r'
  by_cases hr : r' = r
  · subst hr
    rw [held, sessions_setSession, Function.update_self, Function.update_self]
    cases x with
    | none => rfl
    | some session =>
      rw [hx session rfl]
      rfl
  · simp [held, Function.update_of_ne hr]

theorem Inv.setSession (h : s.Inv) {x : Option Session} (hx : IsNew x) (hr : s.held r = none) :
    (s.setSession r x).Inv := by
  have hcase : ∀ {P : Session → Prop}, P newSession →
      (∀ r session, s.sessions r = some session → P session) →
      ∀ r' session, (s.setSession r x).sessions r' = some session → P session := by
    intro P hnew hold r' session hsession
    by_cases hr' : r' = r
    · subst hr'
      rw [sessions_setSession, Function.update_self] at hsession
      rw [hx session hsession]
      exact hnew
    · rw [sessions_setSession, Function.update_of_ne hr'] at hsession
      exact hold r' session hsession
  constructor
  · rw [held_setSession hx, ← hr, Function.update_eq_self]
    exact h.registered
  · exact hcase (fun _ => rfl) h.idle
  · exact hcase (fun pin hpin => nomatch hpin) h.lasting

/-- Throwing a session away that holds a snapshot leaves an entry of nobody. -/
theorem matched_setSession_iff (h : s.Inv) {x : Option Session} (hx : IsNew x) :
    (s.setSession r x).Matched ↔ s.held r = none := by
  constructor
  · intro hm
    by_contra hsome
    obtain ⟨pin, hpin⟩ := Option.ne_none_iff_exists'.mp hsome
    obtain ⟨r', session, pin', hsession, hsnap, hid⟩ :=
      hm.owned pin.id (h.registered.listed r pin hpin)
    have hheld : (s.setSession r x).held r' = some pin' := by rw [held_of_session hsession, hsnap]
    rw [held_setSession hx] at hheld
    by_cases hr : r' = r
    · subst hr
      rw [Function.update_self] at hheld
      cases hheld
    · rw [Function.update_of_ne hr] at hheld
      exact hr (h.registered.apart r' r pin' pin hheld hpin hid)
  · exact fun hr => (h.setSession hx hr).matched

/-! ### Statements -/

theorem held_back (c : Call) :
    (s.back r c).held = Function.update s.held r c.session.snapshot := by
  funext r'
  by_cases hr : r' = r
  · subst hr
    rw [held, sessions_back, Function.update_self, Function.update_self, Option.bind_some]
  · simp [held, Function.update_of_ne hr]

theorem of_sessions_back {P : Session → Prop} {c : Call} (hc : P c.session)
    (hold : ∀ r session, s.sessions r = some session → P session) (r' : Nat) (session : Session)
    (h : (s.back r c).sessions r' = some session) : P session := by
  by_cases hr : r' = r
  · subst hr
    rw [sessions_back, Function.update_self] at h
    cases h
    exact hc
  · rw [sessions_back, Function.update_of_ne hr] at h
    exact hold r' session h

section Execute

variable {session : Session} {q : Request}

theorem Inv.execute (h : s.Inv) (hs : s.sessions r = some session) (hq : q.Releases session) :
    (s.back r (Call.execute q { db := s.db, session := session }).1).Inv := by
  have hidle := h.idle r session hs
  have hlast := h.lasting r session hs
  constructor
  · rw [held_back]
    refine h.registered.moves (r := r) ?_
    rw [held_of_session hs]
    exact Call.moves_execute (c := { db := s.db, session := session }) hidle
  · exact of_sessions_back
      ((Call.idle_execute_iff (c := { db := s.db, session := session }) hidle hlast).mpr hq) h.idle
  · exact of_sessions_back
      (Call.lasting_execute (c := { db := s.db, session := session }) hlast) h.lasting

theorem matched_execute_iff (h : s.Inv) (hs : s.sessions r = some session) :
    (s.back r (Call.execute q { db := s.db, session := session }).1).Matched ↔
      q.Releases session := by
  refine ⟨fun hm => ?_, fun hq => (h.execute hs hq).matched⟩
  rw [← Call.idle_execute_iff (c := { db := s.db, session := session }) (h.idle r session hs)
    (h.lasting r session hs)]
  refine hm.idle r _ ?_
  rw [sessions_back, Function.update_self]

end Execute

/-- What an event does, and when it is clean. -/
theorem step_cases (h : s.step e = some s') :
    (∃ r x, IsNew x ∧ s' = s.setSession r x ∧ (e.Clean s ↔ s.held r = none)) ∨
    ∃ r session q, e = .execute r q ∧ s.sessions r = some session ∧
      s' = s.back r (Call.execute q { db := s.db, session := session }).1 := by
  have hheld : ∀ r session, s.sessions r = some session →
      ((∀ t, s.sessions r = some t → t.snapshot = none) ↔ s.held r = none) := by
    intro r session hs
    rw [held_of_session hs, hs]
    exact ⟨fun h => h session rfl, fun h t ht => by cases ht; exact h⟩
  cases e with
  | connect r =>
    rw [step] at h
    split at h
    · next hr =>
      cases h
      refine .inl ⟨r, some newSession, fun _ hx => by cases hx; rfl, rfl, iff_of_true trivial ?_⟩
      rw [held, Option.isNone_iff_eq_none.mp hr, Option.bind_none]
    · cases h
  | execute r q =>
    obtain ⟨session, hs, rfl⟩ := Option.map_eq_some_iff.mp h
    exact .inr ⟨r, session, q, rfl, hs, rfl⟩
  | reset r =>
    obtain ⟨session, hs, rfl⟩ := Option.map_eq_some_iff.mp h
    exact .inl ⟨r, _, fun _ hx => by cases hx; rfl, rfl, hheld r session hs⟩
  | disconnect r =>
    obtain ⟨session, hs, rfl⟩ := Option.map_eq_some_iff.mp h
    exact .inl ⟨r, none, fun _ hx => (nomatch hx), rfl, hheld r session hs⟩

theorem clean_execute_iff {session : Session} {q : Request} (hs : s.sessions r = some session) :
    Event.Clean s (.execute r q) ↔ q.Releases session := by
  rw [Event.Clean, hs]
  exact ⟨fun h => h session rfl, fun h t ht => by cases ht; exact h⟩

theorem Inv.step (h : s.Inv) (hstep : s.step e = some s') (hclean : e.Clean s) : s'.Inv := by
  obtain ⟨r, x, hx, rfl, hiff⟩ | ⟨r, session, q, rfl, hs, rfl⟩ := step_cases hstep
  · exact h.setSession hx (hiff.mp hclean)
  · exact h.execute hs ((clean_execute_iff hs).mp hclean)

/-- One event keeps the pins right if and only if it is clean. -/
theorem Inv.matched_iff (h : s.Inv) (hstep : s.step e = some s') : s'.Matched ↔ e.Clean s := by
  obtain ⟨r, x, hx, rfl, hiff⟩ | ⟨r, session, q, rfl, hs, rfl⟩ := step_cases hstep
  · rw [matched_setSession_iff h hx, hiff]
  · rw [matched_execute_iff h hs, clean_execute_iff hs]

def Step (s s' : Server) : Prop := ∃ e, s.step e = some s'

/-- An event that forgets no snapshot. -/
def CleanStep (s s' : Server) : Prop := ∃ e, s.step e = some s' ∧ e.Clean s

theorem inv_of_clean {visibleEpoch nextTxn : Nat}
    (h : ReflTransGen CleanStep (start visibleEpoch nextTxn) s) : s.Inv :=
  Transition.invariant (inv_start visibleEpoch nextTxn)
    (by rintro a b hinv ⟨e, hstep, hclean⟩; exact hinv.step hstep hclean) h

/-- As long as no event forgets a snapshot, pins match transactions; the first
event that does breaks it. -/
theorem pins_match {visibleEpoch nextTxn : Nat}
    (h : ReflTransGen CleanStep (start visibleEpoch nextTxn) s) :
    s.Matched ∧ ∀ e s', s.step e = some s' → (s'.Matched ↔ e.Clean s) :=
  ⟨(inv_of_clean h).matched, fun _ _ hstep => (inv_of_clean h).matched_iff hstep⟩

/-- Everything goes well, and nothing takes a short cut. -/
def plain : Outcome where
  gated := false
  fastSelect := none
  fastUpdate := none
  aged := none
  enforce := .ok ()
  stages := .ok none
  commits := .ok ()
  result := .ok ()
  history := { committed := ∅, chains := ∅, visibleEpoch := 1 }

/-- `START TRANSACTION WITH CONSISTENT SNAPSHOT`. -/
def startSnapshot : Request where
  text := "start transaction with consistent snapshot".toList
  parsed := .ok (.startTransaction true none)
  outcome := plain
  read h := absurd h (by decide)

def commitRequest : Request where
  text := "commit".toList
  parsed := .ok .commit
  outcome := plain
  read h := absurd h (by decide)

/-- The events up to an open transaction with a snapshot. -/
theorem startSnapshot_clean : ∃ s session pin,
    ReflTransGen CleanStep (start 1 1) s ∧ s.sessions 0 = some session ∧
      session.txn = some { id := 1, staged := ∅ } ∧ session.snapshot = some pin := by
  refine ⟨_, _, _, .tail (.tail .refl ⟨.connect 0, rfl, trivial⟩)
    ⟨.execute 0 startSnapshot, rfl, ?_⟩, rfl, rfl, rfl⟩
  intro session hs stmt hstmt _
  cases hs
  cases hstmt
  trivial

/-- A `COMMIT` that commits keeps the pins right. -/
theorem pins_match_commit : ∃ s s', ReflTransGen CleanStep (start 1 1) s ∧
    s.step (.execute 0 commitRequest) = some s' ∧ s.Matched ∧ s'.Matched := by
  obtain ⟨s, session, pin, hrun, hs, htxn, hsnap⟩ := startSnapshot_clean
  have hstep : s.step (.execute 0 commitRequest) =
      some (s.back 0 (Call.execute commitRequest { db := s.db, session := session }).1) := by
    rw [step, hs, Option.map_some]
  refine ⟨s, _, hrun, hstep, (pins_match hrun).1, ((pins_match hrun).2 _ _ hstep).mpr ?_⟩
  rw [clean_execute_iff hs]
  intro stmt hstmt _
  cases hstmt
  exact fun txn _ _ => .inr rfl

/-- A disconnect in a transaction leaves the snapshot registered. -/
theorem pin_left_behind : ¬∀ s, ReflTransGen Step (start 1 1) s → s.Matched := by
  intro hall
  obtain ⟨s, session, pin, hrun, hs, htxn, hsnap⟩ := startSnapshot_clean
  have hstep : s.step (.disconnect 0) = some (s.setSession 0 none) := by
    rw [step, hs, Option.map_some]
  have hsteps : ReflTransGen Step (start 1 1) s := by
    refine ReflTransGen.mono ?_ _ _ hrun
    rintro a b ⟨e, h, -⟩
    exact ⟨e, h⟩
  have hclean := ((inv_of_clean hrun).matched_iff hstep).mp (hall _ (hsteps.tail ⟨_, hstep⟩))
  rw [hclean session hs] at hsnap
  cases hsnap

end Server

end HenchDB.Pins
