import HenchDB.Wal.Recovery
import HenchDB.Lib.Transition

/-!
# Replication

The feeder of the primary serves one replica over a connection with two
queues.  It keeps a cursor, a generation of the log and an offset in it, and
sends chunks of at most 64 KiB of the durable log from there; when the cursor
is not in the current generation it sends a snapshot instead.  The replica
keeps a position across connections, takes a chunk only if it starts at the
position, buffers the records of a transaction until its `Commit` record and
forgets the buffer with the connection.

The feeder looks at the generation, at the durable offset and at the log in
three separate steps, and takes its cursor anew in a step after it has served
a snapshot; a checkpoint can come between any two of them.

A served snapshot is taken to be a consistent image of its position.
-/

namespace HenchDB.Replication

open Wal
open Std (ExtTreeMap)

def logStart : Nat := 8

def chunkBytes : Nat := 64 * 1024

/-! ## The primary -/

/-- The log of one generation. -/
structure Gen where
  /-- Ghost: the tables when the log was truncated. -/
  base : Catalog
  /-- The transactions in the log. -/
  txns : List Txn

namespace Gen

def records (g : Gen) : List Record := g.txns.flatMap Txn.log

def bytes (g : Gen) : Bytes := header ++ frames g.records

/-- The tables of exactly the transactions whose `Commit` record lies below an
offset. -/
def stateAt (g : Gen) (offset : Nat) : Except Fault Catalog :=
  g.base.applyRecords ((wholeTxns g.txns (offset - logStart)).flatMap Txn.records)

end Gen

/-! ## Messages -/

/-- A frame to the replica; the frames of a snapshot count as one. -/
inductive Frame where
  | walChunk (offset : Nat) (data : Bytes)
  | snapshot (image : Catalog) (endOffset generation : Nat)

/-- `StartReplication`; `NO_GENERATION` is `none`. -/
structure Request where
  generation : Option Nat
  fromOffset : Nat

/-! ## The feeder and the replica -/

/-- Where the loop of `handle_replica` stands. -/
inductive Phase where
  /-- At the top of the loop, or waiting for a request. -/
  | polling
  /-- The cursor is in the current generation. -/
  | checked
  | sized (durable : Nat)
  /-- A snapshot has been sent; the cursor comes next. -/
  | served
deriving DecidableEq

/-- The connection as the primary sees it. -/
structure Feeder where
  cursor : Option (Nat × Nat)
  phase : Phase

structure Replica where
  generation : Option Nat
  applied : Nat
  /-- `resume_host` is the primary. -/
  anchored : Bool
  connected : Bool
  pending : ExtTreeMap Nat (List Record)
  tables : Catalog

/-- Both sides and what is in flight between them. -/
structure System where
  /-- Ghost: the logs of earlier generations, by generation. -/
  past : List Gen
  current : Gen
  durable : Nat
  feeder : Feeder
  replica : Replica
  up : List Request
  down : List Frame

namespace System

/-- A primary with an empty log, and a replica that has not connected. -/
def start (base tables : Catalog) : System where
  past := []
  current := { base := base, txns := [] }
  durable := logStart
  feeder := { cursor := none, phase := .polling }
  replica :=
    { generation := none
      applied := logStart
      anchored := false
      connected := false
      pending := ∅
      tables := tables }
  up := []
  down := []

def generation (s : System) : Nat := s.past.length

/-- The log of a generation. -/
def genAt (s : System) (g : Nat) : Option Gen := (s.past ++ [s.current])[g]?

/-! ## Steps of the primary -/

/-- A transaction is appended and installed. -/
def commit (s : System) (t : Txn) : Option System :=
  let current := { s.current with txns := s.current.txns ++ [t] }
  if t.wellFormed ∧ (current.base.applyRecords (current.txns.flatMap Txn.records)).toOption.isSome
  then some { s with current := current }
  else none

/-- The syncer makes the first `k` transactions durable. -/
def sync (s : System) (k : Nat) : Option System :=
  let durable := logStart + (frames ((s.current.txns.take k).flatMap Txn.log)).length
  if s.durable ≤ durable then some { s with durable := durable } else none

def reset (s : System) : Option System :=
  match s.current.base.applyRecords (s.current.txns.flatMap Txn.records) with
  | .ok base =>
    some { s with
      past := s.past ++ [s.current]
      current := { base := base, txns := [] }
      durable := logStart }
  | .error _ => none

/-! ## Steps of the feeder -/

/-- `send_snapshot`: the image of the durable position. -/
def sendSnapshot (s : System) : Option System :=
  match s.current.stateAt s.durable with
  | .ok image =>
    some { s with
      down := s.down ++ [.snapshot image s.durable s.generation]
      feeder := { s.feeder with phase := .served } }
  | .error _ => none

/-- The comparison of the generations. -/
def feedCheck (s : System) : Option System :=
  match s.replica.connected, s.feeder.phase, s.feeder.cursor with
  | true, .polling, some (g, _) =>
    if g = s.generation then some { s with feeder := { s.feeder with phase := .checked } }
    else s.sendSnapshot
  | _, _, _ => none

/-- The read of the durable offset. -/
def feedSize (s : System) : Option System :=
  match s.replica.connected, s.feeder.phase with
  | true, .checked => some { s with feeder := { s.feeder with phase := .sized s.durable } }
  | _, _ => none

/-- `read_wal_range` and the chunk. -/
def feedRead (s : System) : Option System :=
  match s.replica.connected, s.feeder.phase, s.feeder.cursor with
  | true, .sized durable, some (g, next) =>
    if durable < next then s.sendSnapshot
    else if next < logStart ∨ s.current.bytes.length < next then s.sendSnapshot
    else
      let data := (s.current.bytes.drop next).take (min (durable - next) chunkBytes)
      if data.isEmpty then some { s with feeder := { s.feeder with phase := .polling } }
      else
        some { s with
          down := s.down ++ [.walChunk next data]
          feeder := { cursor := some (g, next + data.length), phase := .polling } }
  | _, _, _ => none

/-- The cursor behind a snapshot. -/
def feedResume (s : System) : Option System :=
  match s.replica.connected, s.feeder.phase with
  | true, .served =>
    some { s with feeder := { cursor := some (s.generation, s.durable), phase := .polling } }
  | _, _ => none

def feedRequest (s : System) : Option System :=
  match s.replica.connected, s.feeder.phase, s.up with
  | true, .polling, r :: up =>
    let s := { s with up := up }
    if r.generation ≠ some s.generation ∨ r.fromOffset < logStart ∨ s.durable < r.fromOffset then
      s.sendSnapshot
    else some { s with feeder := { s.feeder with cursor := some (s.generation, r.fromOffset) } }
  | _, _, _ => none

/-! ## Steps of the replica -/

/-- `stream_once` connects and asks for its position. -/
def connect (s : System) : Option System :=
  if s.replica.connected then none
  else
    some { s with
      feeder := { cursor := none, phase := .polling }
      replica := { s.replica with connected := true, pending := ∅ }
      up := [{ generation := s.replica.generation, fromOffset := s.replica.applied }]
      down := [] }

/-- The connection ends; what is in flight is lost. -/
def disconnected (s : System) : System :=
  { s with replica := { s.replica with connected := false }, up := [], down := [] }

def drop (s : System) : Option System :=
  if s.replica.connected then some s.disconnected else none

def applyChunk (s : System) (data : Bytes) : Option System :=
  match decodeWalRange false data with
  | .error _ => some s.disconnected
  | .ok (rs, left) =>
    if left.isEmpty then
      let redo := Redo.run { pending := s.replica.pending, applied := [] } rs
      match s.replica.tables.applyRecords redo.applied.flatten with
      | .ok tables =>
        some { s with replica := { s.replica with
          applied := s.replica.applied + data.length
          pending := redo.pending
          tables := tables } }
      | .error _ => none
    else some s.disconnected

/-- A snapshot, unless it is of an older generation of the same primary. -/
def applySnapshot (s : System) (image : Catalog) (endOffset generation : Nat) : System :=
  if s.replica.anchored && s.replica.generation.any fun g => generation < g then s.disconnected
  else
    { s with replica := { s.replica with
      generation := some generation
      applied := endOffset
      anchored := true
      pending := ∅
      tables := image } }

/-- The next frame. -/
def receive (s : System) : Option System :=
  match s.replica.connected, s.down with
  | true, .walChunk offset data :: down =>
    let s := { s with down := down }
    if offset ≠ s.replica.applied then
      some { s with up := s.up ++
        [{ generation := s.replica.generation, fromOffset := s.replica.applied }] }
    else s.applyChunk data
  | true, .snapshot image endOffset generation :: down =>
    some ({ s with down := down }.applySnapshot image endOffset generation)
  | _, _ => none

end System

/-! ## Runs -/

/-- The steps of both sides. -/
inductive Action where
  | commit (t : Txn)
  | sync (k : Nat)
  | reset
  | feedCheck
  | feedSize
  | feedRead
  | feedResume
  | feedRequest
  | connect
  | drop
  | receive

namespace System

def step (s : System) : Action → Option System
  | .commit t => s.commit t
  | .sync k => s.sync k
  | .reset => s.reset
  | .feedCheck => s.feedCheck
  | .feedSize => s.feedSize
  | .feedRead => s.feedRead
  | .feedResume => s.feedResume
  | .feedRequest => s.feedRequest
  | .connect => s.connect
  | .drop => s.drop
  | .receive => s.receive

def Steps (s s' : System) : Prop := ∃ a, s.step a = some s'

/-- The tables of the replica are those of exactly the transactions below its
position. -/
def Exact (s : System) : Prop :=
  ∀ g, s.replica.generation = some g →
    ∃ gen, s.genAt g = some gen ∧ gen.stateAt s.replica.applied = .ok s.replica.tables

/-- A step that ends no connection with records buffered, truncates the log
under a connection only between two rounds of the feeder, and logs what the
codec reads back. -/
def SteadyStep (s s' : System) : Prop :=
  ∃ a, s.step a = some s' ∧
    (s.replica.connected = true → s'.replica.connected = false → s.replica.pending = ∅) ∧
    (a = .reset → s.replica.connected = true → s.feeder.phase = .polling) ∧
    ∀ t, a = .commit t → ∀ r ∈ t.log, RecordKept r

end System

end HenchDB.Replication
