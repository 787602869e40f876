import HenchDB.Mvcc.Versions
import HenchDB.Lib.Transition

/-!
# Committers and snapshot readers

The commit pipeline as the version buffer sees it, together with sessions that
read under a pinned snapshot.  Phase A allocates a commit epoch and appends
under the commit lock, so the appended commits wait in epoch order (`queue`).
Phase C runs under the install lock, for the commit whose start offset is the
frontier: the batch is recorded, the rows are applied one by one, the epoch is
published and the buffer is collected.  A commit whose recording fails returns
its error and never moves the frontier (`InstallPhase.failed`); one that fails
to apply a row is one that takes no further step.

A reader takes the row of the tree first and asks the version buffer for it in
a later step.  A scan reads the tree leaf by leaf, resolves the rows one by one
and then sweeps the chains.  Between any two steps of a reader any number of
other steps may happen.

`log` and `base` are ghosts: the commits recorded so far and the rows before
the first of them.  `rowAt` says what a read at an epoch has to return.
-/

namespace HenchDB.Mvcc

/-! ## Commits -/

/-- The staged writes of a commit in the order of the map, each key once. -/
structure Batch where
  /-- Key and encoded row; `none` deletes. -/
  writes : List Write
  nodup : (writes.map Prod.fst).Nodup

structure Commit where
  epoch : Nat
  /-- Its writes. -/
  batch : Batch

inductive InstallPhase where
  /-- The batch is recorded; these rows are still to be applied. -/
  | applying (pending : List Write)
  /-- `visible_epoch` is stored; `gc_locked` comes next. -/
  | published
  /-- `record_commit_batch` failed; the frontier stays where it is. -/
  | failed

/-- The commit that entered phase C. -/
structure Install where
  commit : Commit
  /-- The keys whose superseded state it recorded. -/
  recorded : List TKey
  /-- How far it is. -/
  phase : InstallPhase

/-- The value of a key after the commits up to an epoch. -/
def asOf (base : Trees) (log : List Commit) (epoch : Nat) (k : TKey) : Option Bytes :=
  log.foldl (fun v c => if c.epoch ≤ epoch then (c.batch.writes.lookup k).getD v else v) base[k]?

/-! ## Readers -/

variable {Row E : Type}

/-- A session that reads under a snapshot. -/
inductive Reader (Row : Type) where
  /-- No snapshot. -/
  | idle
  | pinned (pin : SnapshotPin)
  /-- The tree was read for a key, the version buffer was not. -/
  | fetched (pin : SnapshotPin) (k : TKey) (current : Option Row)
  /-- A scan that has read the leaves below `cursor`. -/
  | scanning (pin : SnapshotPin) (table : String) (cursor : Bytes) (rows : List (Bytes × Row))
  | resolving (pin : SnapshotPin) (table : String) (rest kept : List (Bytes × Row))

/-- What a read returned, with the epoch it was answered at. -/
inductive Answer (Row E : Type) where
  | row (readEpoch : Nat) (k : TKey) (result : Except (ReadError E) (Option Row))
  | scan (readEpoch : Nat) (table : String) (result : Except (ReadError E) (List (Bytes × Row)))

/-- The engine as far as snapshot reads see it. -/
structure Engine (Row E : Type) where
  /-- The stored rows. -/
  trees : Trees
  /-- The version buffer and the snapshot registry. -/
  versions : VersionState Row
  commitEpoch : Nat
  visibleEpoch : Nat
  /-- Commits appended and waiting for the frontier, oldest first. -/
  queue : List Commit
  /-- The commit in phase C. -/
  installing : Option Install
  /-- The sessions. -/
  readers : Nat → Reader Row
  /-- What reads have returned, newest first. -/
  answers : List (Answer Row E)
  /-- Ghost: the rows at the start. -/
  base : Trees
  /-- Ghost: the recorded commits, oldest first. -/
  log : List Commit

namespace Engine

/-- A freshly opened database over the given rows. -/
def start (base : Trees) : Engine Row E where
  trees := base
  versions := VersionState.new
  commitEpoch := 1
  visibleEpoch := 0
  queue := []
  installing := none
  readers := fun _ => .idle
  answers := []
  base := base
  log := []

/-- The row a read of `k` at `epoch` has to return. -/
def rowAt (decodeStored : String → Bytes → Except E Row) (s : Engine Row E) (epoch : Nat)
    (k : TKey) : Except E (Option Row) :=
  VersionState.decodeAt decodeStored k (asOf s.base s.log epoch k)

/-! ## Steps of a committer -/

def append (s : Engine Row E) (batch : Batch) : Engine Row E :=
  { s with
    queue := s.queue ++ [{ epoch := s.commitEpoch, batch := batch }]
    commitEpoch := s.commitEpoch + 1 }

def appendFailed (s : Engine Row E) : Engine Row E :=
  { s with commitEpoch := s.commitEpoch + 1 }

def changedKeys (trees : Trees) (writes : List Write) : List TKey :=
  (writes.filter fun w => trees[w.1]? ≠ w.2).map Prod.fst

/-- The first commit of the queue enters phase C and records its batch. -/
def record (decodeStored : String → Bytes → Except E Row) (s : Engine Row E) :
    Option (Engine Row E) :=
  match s.installing, s.queue with
  | none, c :: queue =>
    let batch :=
      VersionState.recordCommitBatch decodeStored s.trees c.epoch c.batch.writes s.versions
    some { s with
      versions := batch.1
      queue := queue
      log := s.log ++ [c]
      installing := some
        { commit := c
          recorded := changedKeys s.trees c.batch.writes
          phase :=
            match batch.2 with
            | .ok _ => .applying c.batch.writes
            | .error _ => .failed } }
  | _, _ => none

def apply (s : Engine Row E) : Option (Engine Row E) :=
  match s.installing with
  | some { commit := c, recorded := recorded, phase := .applying (w :: pending) } =>
    some { s with
      trees := applyWrite s.trees w
      installing := some { commit := c, recorded := recorded, phase := .applying pending } }
  | _ => none

/-- Store `visible_epoch` once every row is applied. -/
def publish (s : Engine Row E) : Option (Engine Row E) :=
  match s.installing with
  | some { commit := c, recorded := recorded, phase := .applying [] } =>
    some { s with
      visibleEpoch := c.epoch
      installing := some { commit := c, recorded := recorded, phase := .published } }
  | _ => none

/-- The collection at the end of phase C; the frontier moves on. -/
def finish (s : Engine Row E) : Option (Engine Row E) :=
  match s.installing with
  | some { phase := .published, .. } =>
    some { s with versions := s.versions.gcLocked, installing := none }
  | _ => none

/-- `gc_versions`, which a checkpoint runs. -/
def gcVersions (s : Engine Row E) : Engine Row E :=
  { s with versions := s.versions.gcLocked }

/-! ## Steps of a reader -/

/-- Move a session. -/
def setReader (s : Engine Row E) (r : Nat) (reader : Reader Row) : Engine Row E :=
  { s with readers := Function.update s.readers r reader }

/-- A read returns; the session keeps its snapshot. -/
def answer (s : Engine Row E) (r : Nat) (pin : SnapshotPin) (a : Answer Row E) : Engine Row E :=
  { s.setReader r (.pinned pin) with answers := a :: s.answers }

/-- `snapshot_pin_active` and `snapshot_pin_statement`: register at the current
`visible_epoch`. -/
def pin (s : Engine Row E) (r : Nat) (isStatement : Bool) : Option (Engine Row E) :=
  match s.readers r with
  | .idle =>
    let (versions, pin) := s.versions.register s.visibleEpoch isStatement
    some ({ s with versions := versions }.setReader r (.pinned pin))
  | _ => none

/-- `snapshot_end` and `snapshot_end_statement`. -/
def unpin (s : Engine Row E) (r : Nat) : Option (Engine Row E) :=
  match s.readers r with
  | .pinned pin => some ({ s with versions := s.versions.release pin }.setReader r .idle)
  | _ => none

/-- The tree read of `visible_row`. -/
def fetch (decodeStored : String → Bytes → Except E Row) (s : Engine Row E) (r : Nat) (k : TKey) :
    Option (Engine Row E) :=
  match s.readers r with
  | .pinned pin =>
    match VersionState.decodeAt decodeStored k s.trees[k]? with
    | .ok current => some (s.setReader r (.fetched pin k current))
    | .error e => some (s.answer r pin (.row pin.readEpoch k (.error (.decode e))))
  | _ => none

/-- The `snapshot_lookup` of `visible_row`. -/
def lookup (s : Engine Row E) (r : Nat) (aged : Bool) : Option (Engine Row E) :=
  match s.readers r with
  | .fetched pin k current =>
    some (s.answer r pin
      (.row pin.readEpoch k (s.versions.snapshotLookup (some pin) aged k current)))
  | _ => none

def startScan (s : Engine Row E) (r : Nat) (table : String) : Option (Engine Row E) :=
  match s.readers r with
  | .pinned pin => some (s.setReader r (.scanning pin table [] []))
  | _ => none

/-- Decode the rows of a leaf in order; the first that fails ends the scan. -/
def decodeRows (decodeStored : String → Bytes → Except E Row) :
    List (TKey × Bytes) → Except E (List (Bytes × Row))
  | [] => .ok []
  | (k, raw) :: rest =>
    match decodeStored k.1 raw with
    | .error e => .error e
    | .ok row => (decodeRows decodeStored rest).map ((k.2, row) :: ·)

/-- The scan reads the leaf up to `upTo`, the last one if there is no bound. -/
def scanLeaf (decodeStored : String → Bytes → Except E Row) (s : Engine Row E) (r : Nat)
    (upTo : Option Bytes) : Option (Engine Row E) :=
  match s.readers r with
  | .scanning pin table cursor rows =>
    match decodeRows decodeStored (leafRows s.trees table cursor upTo) with
    | .error e => some (s.answer r pin (.scan pin.readEpoch table (.error (.decode e))))
    | .ok leaf =>
      match upTo with
      | some b =>
        if cursor ≤ b then some (s.setReader r (.scanning pin table b (rows ++ leaf)))
        else none
      | none => some (s.setReader r (.resolving pin table (rows ++ leaf) []))
  | _ => none

/-- The `snapshot_lookup` of one scanned row. -/
def resolve (s : Engine Row E) (r : Nat) (aged : Bool) : Option (Engine Row E) :=
  match s.readers r with
  | .resolving pin table ((k, row) :: rest) kept =>
    match s.versions.snapshotLookup (some pin) aged (table, k) (some row) with
    | .error e => some (s.answer r pin (.scan pin.readEpoch table (.error e)))
    | .ok (some hist) => some (s.setReader r (.resolving pin table rest (kept ++ [(k, hist)])))
    | .ok none => some (s.setReader r (.resolving pin table rest kept))
  | _ => none

/-- Rows restored from history are merged in key order. -/
def mergeExtra (kept extra : List (Bytes × Row)) : List (Bytes × Row) :=
  if extra.isEmpty then kept else (kept ++ extra).mergeSort fun a b => a.1 ≤ b.1

/-- The sweep of the chains that ends a scan. -/
def sweep (s : Engine Row E) (r : Nat) (aged : Bool) : Option (Engine Row E) :=
  match s.readers r with
  | .resolving pin table [] kept =>
    let extra := s.versions.snapshotScanExtra (some pin) aged table (kept.map Prod.fst)
    some (s.answer r pin (.scan pin.readEpoch table (extra.map (mergeExtra kept))))
  | _ => none

end Engine

/-! ## Runs -/

/-- The steps of the pipeline and of the sessions. -/
inductive Action where
  | append (batch : Batch)
  | appendFailed
  | record
  | apply
  | publish
  | finish
  | gcVersions
  | pin (r : Nat) (isStatement : Bool)
  | unpin (r : Nat)
  | fetch (r : Nat) (k : TKey)
  | lookup (r : Nat) (aged : Bool)
  | startScan (r : Nat) (table : String)
  | scanLeaf (r : Nat) (upTo : Option Bytes)
  | resolve (r : Nat) (aged : Bool)
  | sweep (r : Nat) (aged : Bool)

namespace Engine

def step (decodeStored : String → Bytes → Except E Row) (s : Engine Row E) :
    Action → Option (Engine Row E)
  | .append batch => some (s.append batch)
  | .appendFailed => some s.appendFailed
  | .record => s.record decodeStored
  | .apply => s.apply
  | .publish => s.publish
  | .finish => s.finish
  | .gcVersions => some s.gcVersions
  | .pin r isStatement => s.pin r isStatement
  | .unpin r => s.unpin r
  | .fetch r k => s.fetch decodeStored r k
  | .lookup r aged => s.lookup r aged
  | .startScan r table => s.startScan r table
  | .scanLeaf r upTo => s.scanLeaf decodeStored r upTo
  | .resolve r aged => s.resolve r aged
  | .sweep r aged => s.sweep r aged

/-- The commit being installed still has every version entry it recorded. -/
def historyKept (s : Engine Row E) : Bool :=
  match s.installing with
  | some { commit := c, recorded := recorded, phase := .applying _ } =>
    recorded.all fun k => s.versions.committedEpoch k = c.epoch
  | _ => true

def Steps (decodeStored : String → Bytes → Except E Row) (s s' : Engine Row E) : Prop :=
  ∃ a, s.step decodeStored a = some s'

/-- A step that pins no snapshot while the commit being installed has lost
version entries. -/
def SparingStep (decodeStored : String → Bytes → Except E Row) (s s' : Engine Row E) : Prop :=
  ∃ a, s.step decodeStored a = some s' ∧ ((∃ r isStatement, a = .pin r isStatement) →
    s.historyKept = true)

end Engine

/-- A read is right: it returned the rows of its epoch, or an error other than
missing history. -/
def Answer.Consistent (rowAt : Nat → TKey → Except E (Option Row)) : Answer Row E → Prop
  | .row readEpoch k (.ok found) => rowAt readEpoch k = .ok found
  | .row _ _ (.error e) => ∀ table, e ≠ .historyMissing table
  | .scan readEpoch table (.ok rows) =>
    (rows.map Prod.fst).Nodup ∧
      ∀ k row, (k, row) ∈ rows ↔ rowAt readEpoch (table, k) = .ok (some row)
  | .scan _ _ (.error e) => ∀ table, e ≠ .historyMissing table

end HenchDB.Mvcc
