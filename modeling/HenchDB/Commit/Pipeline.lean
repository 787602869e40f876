import HenchDB.Store
import HenchDB.Lib.Transition

/-!
# The commit pipeline and checkpoints

`commit_txn` runs in three phases.  Phase A appends to the log under the commit
lock and learns its offsets; phase B waits until the syncer has made the bytes
durable; phase C waits until the install frontier is the start offset, applies
the rows, moves the frontier to the end offset and returns.  `checkpoint` holds
the commit lock throughout: it scans the trees leaf by leaf, writes a snapshot
beside the old one, renames it, truncates the log, and sets the frontier to the
new end of the log.

The scan follows the leaves without a lock against installs.  An install that
merges leaves or borrows between them may move rows from a leaf that the scan has
yet to read into one that it has read; the scan does not see them.  And an install
may never end: `BTree::upsert` of a key in a gap between two leaves does not.

The log is kept by transactions: an entry ends at `fin`, and a crash that
leaves the file cut at `cut` leaves the entries that end by `cut`.  Entries are
staged whole, so `durable` is always the end of an entry or of the header.

`before`, `stale` and `moved` are ghosts: the transactions of truncated logs, and
whether a row changed behind the scan of the running checkpoint or was moved there.
-/

namespace HenchDB.Commit

open Transition (Ends)

def headerLen : Nat := 8

/-- A transaction in the log. -/
structure Logged where
  /-- Offset one past its `Commit` record. -/
  fin : Nat
  writes : List Write

inductive FlightPhase where
  /-- Appended; `wait_durable` comes next. -/
  | appended
  | durable
  /-- Holds the install lock, with `done` applied and `pending` to apply. -/
  | installing (done pending : List Write)

/-- A call of `commit_txn` between its append and its return. -/
structure Flight where
  /-- Ghost: position in the order of all commits. -/
  txn : Nat
  start : Nat
  /-- End offset. -/
  fin : Nat
  writes : List Write
  phase : FlightPhase

def Flight.logged (f : Flight) : Logged := { fin := f.fin, writes := f.writes }

inductive Ckpt where
  /-- Tables still to scan, the first from `cursor` on, and the rows read. -/
  | scanning (todo : List String) (cursor : Bytes) (image : Trees)
  /-- `snapshot.bin.tmp` is written and synced. -/
  | written (image : Trees)
  /-- The new `snapshot.bin` is in place. -/
  | renamed
  /-- The log is truncated and its offsets restart. -/
  | truncated
  /-- The install frontier is re-based. -/
  | rebased

structure Engine where
  tables : List String
  /-- The rows in memory. -/
  trees : Trees
  /-- The rows of `snapshot.bin`. -/
  snapshot : Trees
  /-- The log since it was last truncated. -/
  wal : List Logged
  /-- `written`: the next offset. -/
  written : Nat
  /-- `durable`: bytes known to be on disk. -/
  durable : Nat
  frontier : Nat
  /-- Commits in flight, in the order of their appends. -/
  flights : List Flight
  /-- The running checkpoint, which holds the commit lock. -/
  ckpt : Option Ckpt
  /-- Commits that returned `Ok`. -/
  acked : List Nat
  /-- Ghost: the rows before the first commit. -/
  base : Trees
  /-- Ghost: the transactions of truncated logs. -/
  before : List (List Write)
  /-- Ghost: a row changed behind the scan. -/
  stale : Bool
  /-- Ghost: a row was moved behind the scan. -/
  moved : Bool

namespace Engine

/-- A database opened over a snapshot and a log. -/
def start (tables : List String) (snapshot : Trees) (wal : List Logged) (len : Nat) : Engine where
  tables := tables
  trees := replay snapshot (wal.flatMap Logged.writes)
  snapshot := snapshot
  wal := wal
  written := len
  durable := len
  frontier := len
  flights := []
  ckpt := none
  acked := []
  base := snapshot
  before := []
  stale := false
  moved := false

/-- All transactions ever appended, in the order of the log. -/
def history (s : Engine) : List (List Write) := s.before ++ s.wal.map Logged.writes

/-- What a crash that cuts the log at `cut` leaves of it. -/
def surviving (s : Engine) (cut : Nat) : List Logged := s.wal.takeWhile fun e => e.fin ≤ cut

/-- The state `Database::open` finds after such a crash. -/
def recover (s : Engine) (cut : Nat) : Trees :=
  replay s.snapshot ((s.surviving cut).flatMap Logged.writes)

/-! ## Steps of `commit_txn` and of the syncer -/

/-- Phase A, under the commit lock; `len` bytes are appended. -/
def append (s : Engine) (writes : List Write) (len : Nat) : Option Engine :=
  if s.ckpt.isNone ∧ 0 < len ∧ ∀ w ∈ writes, w.1.1 ∈ s.tables then
    let f : Flight :=
      { txn := s.history.length
        start := s.written
        fin := s.written + len
        writes := writes
        phase := .appended }
    some { s with
      wal := s.wal ++ [f.logged]
      written := s.written + len
      flights := s.flights ++ [f] }
  else none

/-- A round of the syncer makes the log durable up to the end of an entry. -/
def sync (s : Engine) (upTo : Nat) : Option Engine :=
  if s.durable ≤ upTo ∧ upTo ≤ s.written ∧ ∃ e ∈ s.wal, e.fin = upTo then
    some { s with durable := upTo }
  else none

def setPhase (s : Engine) (i : Nat) (f : Flight) (phase : FlightPhase) : Engine :=
  { s with flights := s.flights.set i { f with phase := phase } }

/-- Phase B: `wait_durable` returns. -/
def wait (s : Engine) (i : Nat) : Option Engine :=
  match s.flights[i]? with
  | some f =>
    match f.phase with
    | .appended => if f.fin ≤ s.durable then some (s.setPhase i f .durable) else none
    | _ => none
  | none => none

def installHeld (s : Engine) : Bool :=
  s.flights.any fun f =>
    match f.phase with
    | .installing _ _ => true
    | _ => false

/-- Phase C: the frontier is the start offset. -/
def enter (s : Engine) (i : Nat) : Option Engine :=
  match s.flights[i]? with
  | some f =>
    match f.phase with
    | .durable =>
      if s.frontier = f.start ∧ s.installHeld = false then
        some (s.setPhase i f (.installing [] f.writes))
      else none
    | _ => none
  | none => none

/-- The checkpoint has scanned the place of a key. -/
def scanned (s : Engine) (k : TKey) : Bool :=
  match s.ckpt with
  | some (.scanning todo cursor _) =>
    !todo.contains k.1 || (todo.head? = some k.1 && k.2 < cursor)
  | some (.written _) => true
  | some .renamed => true
  | _ => false

def apply (s : Engine) (i : Nat) : Option Engine :=
  match s.flights[i]? with
  | some f =>
    match f.phase with
    | .installing done (w :: pending) =>
      some { s.setPhase i f (.installing (done ++ [w]) pending) with
        trees := applyWrite s.trees w
        stale := s.stale || (s.scanned w.1 && s.trees[w.1]? ≠ w.2) }
    | _ => none
  | none => none

/-- Phase C: every row is applied, the frontier moves and `commit_txn` returns. -/
def finish (s : Engine) (i : Nat) : Option Engine :=
  match s.flights[i]? with
  | some f =>
    match f.phase with
    | .installing _ [] =>
      some { s with
        frontier := f.fin
        flights := s.flights.eraseIdx i
        acked := f.txn :: s.acked }
    | _ => none
  | none => none

/-! ## Steps of `checkpoint` -/

/-- Take the commit lock and list the tables, in any order. -/
def beginCheckpoint (s : Engine) (todo : List String) : Option Engine :=
  if s.ckpt.isNone ∧ todo.Nodup ∧ ∀ t ∈ s.tables, t ∈ todo then
    some { s with ckpt := some (.scanning todo [] ∅), stale := false, moved := false }
  else none

/-- Read the next leaf of the table in turn; without a bound it is the last.  The rows of its
range under the keys `missed` were moved behind the scan. -/
def scanLeaf (s : Engine) (upTo : Option Bytes) (missed : List Bytes) : Option Engine :=
  match s.ckpt with
  | some (.scanning (table :: todo) cursor image) =>
    let rows := leafRows s.trees table cursor upTo
    let image' := image.insertMany (rows.filter fun r => !missed.contains r.1.2)
    let moved := s.moved || rows.any fun r => missed.contains r.1.2
    match upTo with
    | some b =>
      if cursor ≤ b then
        some { s with ckpt := some (.scanning (table :: todo) b image'), moved := moved }
      else none
    | none => some { s with ckpt := some (.scanning todo [] image'), moved := moved }
  | _ => none

/-- Write and sync `snapshot.bin.tmp`. -/
def writeSnapshot (s : Engine) : Option Engine :=
  match s.ckpt with
  | some (.scanning [] _ image) => some { s with ckpt := some (.written image) }
  | _ => none

/-- Rename it over `snapshot.bin`. -/
def rename (s : Engine) : Option Engine :=
  match s.ckpt with
  | some (.written image) => some { s with snapshot := image, ckpt := some .renamed }
  | _ => none

/-- `Wal::reset`: drain and sync what is staged, truncate, restart the offsets. -/
def reset (s : Engine) : Option Engine :=
  match s.ckpt with
  | some .renamed =>
    some { s with
      wal := []
      written := headerLen
      durable := headerLen
      before := s.history
      ckpt := some .truncated }
  | _ => none

/-- Set the install frontier to the next offset, under the install lock. -/
def rebase (s : Engine) : Option Engine :=
  match s.ckpt with
  | some .truncated =>
    if s.installHeld then none else some { s with frontier := s.written, ckpt := some .rebased }
  | _ => none

/-- A checkpoint that fails before the truncation returns its error. -/
def abortCheckpoint (s : Engine) : Option Engine :=
  match s.ckpt with
  | some (.scanning _ _ _) => some { s with ckpt := none }
  | some (.written _) => some { s with ckpt := none }
  | some .renamed => some { s with ckpt := none }
  | _ => none

/-- Release the commit lock. -/
def endCheckpoint (s : Engine) : Option Engine :=
  match s.ckpt with
  | some .rebased => some { s with ckpt := none }
  | _ => none

end Engine

/-! ## Runs -/

/-- The steps of the sessions, the syncer and the checkpoints. -/
inductive Action where
  | append (writes : List Write) (len : Nat)
  | sync (upTo : Nat)
  | wait (i : Nat)
  | enter (i : Nat)
  | apply (i : Nat)
  | finish (i : Nat)
  | beginCheckpoint (todo : List String)
  | scanLeaf (upTo : Option Bytes) (missed : List Bytes)
  | writeSnapshot
  | rename
  | reset
  | rebase
  | abortCheckpoint
  | endCheckpoint

namespace Engine

def step (s : Engine) : Action → Option Engine
  | .append writes len => s.append writes len
  | .sync upTo => s.sync upTo
  | .wait i => s.wait i
  | .enter i => s.enter i
  | .apply i => s.apply i
  | .finish i => s.finish i
  | .beginCheckpoint todo => s.beginCheckpoint todo
  | .scanLeaf upTo missed => s.scanLeaf upTo missed
  | .writeSnapshot => s.writeSnapshot
  | .rename => s.rename
  | .reset => s.reset
  | .rebase => s.rebase
  | .abortCheckpoint => s.abortCheckpoint
  | .endCheckpoint => s.endCheckpoint

def Steps (s s' : Engine) : Prop := ∃ a, s.step a = some s'

/-- No commit is in flight, and none changed a row behind the scan. -/
def idle (s : Engine) : Bool := s.flights.isEmpty && !s.stale

section
-- The install of a write hangs in the tree that those before it leave, in the order of the log.
variable (hangs : List Write → Write → Bool)

/-- A step of the commits in flight or of the syncer. -/
def CommitterStep (s s' : Engine) : Prop :=
  ∃ i, s.sync i = some s' ∨ s.wait i = some s' ∨ s.enter i = some s' ∨ s.finish i = some s' ∨
    s.apply i = some s' ∧ ∀ f done w pending, s.flights[i]? = some f →
      f.phase = .installing done (w :: pending) →
        hangs ((s.history.take f.txn).flatten ++ done) w = false

/-- A step that appends only what can be installed, renames only a snapshot behind which no row
was moved and truncates the log only in an idle window. -/
def SparingStep (s s' : Engine) : Prop :=
  ∃ a, s.step a = some s' ∧ (∀ writes len, a = .append writes len → Ends hangs s.history.flatten writes) ∧
    (a = .rename → s.moved = false) ∧ (a = .reset → s.idle = true)

end

/-- Whatever a crash leaves of the log, the recovered rows are those of a
prefix of the commits that has every acknowledged one. -/
def Durable (s : Engine) : Prop :=
  ∀ cut, s.durable ≤ cut → ∃ n, (∀ txn ∈ s.acked, txn < n) ∧
    s.recover cut = replay s.base (s.history.take n).flatten

/-- The commits in flight reach the frontier they wait for, with no help from a
checkpoint. -/
def Unblocked (hangs : List Write → Write → Bool) (s : Engine) : Prop :=
  ∀ f ∈ s.flights, ∃ s', Relation.ReflTransGen (CommitterStep hangs) s s' ∧ s'.frontier = f.start

end Engine

end HenchDB.Commit
