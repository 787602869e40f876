import HenchDB.Replication.Chunk

/-!
# Promotion

A replica thread follows an upstream while a client session promotes the node.
The thread looks at the read-only flag once in every turn of its loop, then
waits for a frame, and handles it without looking again: a chunk applies every
transaction it completes, first to the tables and then to the local log, and
the end of a snapshot replaces the tables and takes a checkpoint.  Promotion
takes a checkpoint and then lifts the flag.

What comes from the upstream and from the sessions is arbitrary here: any
frame can arrive in any turn, calls of `promote` interleave with each other and
with the thread, and clients change the tables at any moment.  A checkpoint
counts as one step.  Decoding a snapshot image and building its tables is a
parameter, since nothing here depends on what an image holds.

The history records, in order, the returns of `promote` and what the thread
did to the database.  After a return nothing from the upstream reaches the
database, if no frame that makes the thread write is handled by a turn that
looked at the flag before it was lifted (`timely_promotions_fence`).
-/

namespace HenchDB.Replication

open Wal
open Std (ExtTreeMap)

def maxFrame : Nat := 64 * 1024 * 1024

/-- A frame from the upstream; `other` is one the replica does not expect. -/
inductive Upstream where
  | walChunk (offset : Nat) (data : Bytes)
  | heartbeat
  | snapshotRequired
  | snapshotBegin (totalBytes endOffset generation : Nat)
  | snapshotChunk (data : Bytes)
  | snapshotEnd
  | other

structure SnapshotAsm where
  buf : Bytes
  totalBytes : Nat
  endOffset : Nat
  generation : Nat

inductive Thread where
  /-- At the top of the loop of `run_replica`. -/
  | resting
  /-- Before the handshake of `stream_once`. -/
  | connecting
  /-- At the top of the loop of `stream_once`. -/
  | looping
  /-- The flag has been looked at; a frame comes next. -/
  | reading
  /-- The records of a chunk that are left, and the position behind it. -/
  | applying (records : List Record) (position : Nat)
  /-- A batch is in the tables and not yet in the local log. -/
  | logging (batch records : List Record) (position : Nat)
  /-- A snapshot is decoded. -/
  | swapping (image : Catalog) (endOffset generation : Nat)
  /-- A snapshot is in the tables; its checkpoint comes next. -/
  | persisting (endOffset generation : Nat)
  /-- The thread has ended. -/
  | detached

/-- Where a call of `promote` stands. -/
inductive Promotion where
  | idle
  /-- The flag was set. -/
  | checked
  | checkpointed
  | lifted
deriving DecidableEq

/-- What the history records. -/
inductive Event where
  /-- `promote` has returned `Ok`. -/
  | promoted
  /-- A batch went to the tables. -/
  | applied
  /-- A batch went to the local log. -/
  | logged
  /-- A snapshot replaced the tables. -/
  | swapped
  /-- A snapshot was made durable. -/
  | persisted
deriving DecidableEq

/-- The node: the database, the calls of `promote` and the replica thread. -/
structure Node where
  tables : Catalog
  /-- The local log since its last reset. -/
  log : List (List Record)
  walGeneration : Nat
  readOnly : Bool
  promotions : Nat → Promotion
  thread : Thread
  /-- `wal_generation` when the thread started. -/
  startGen : Nat
  generation : Option Nat
  applied : Nat
  /-- `resume_host` is the upstream. -/
  anchored : Bool
  /-- The seal of an earlier promotion. -/
  promoted : Bool
  pending : ExtTreeMap Nat (List Record)
  snap : Option SnapshotAsm
  /-- Ghost: what happened so far. -/
  history : List Event

namespace Node

/-- A replica whose thread is about to start, from any files. -/
def Starting (s : Node) : Prop :=
  s.readOnly = true ∧ (∀ p, s.promotions p = .idle) ∧ s.thread = .resting ∧
    s.startGen = s.walGeneration ∧ s.history = []

/-! ## Promotion -/

/-- `Database::checkpoint`, as far as the log is concerned. -/
def checkpoint (s : Node) : Node := { s with log := [], walGeneration := s.walGeneration + 1 }

/-- Move a call of `promote`. -/
def setPromotion (s : Node) (p : Nat) (stage : Promotion) : Node :=
  { s with promotions := Function.update s.promotions p stage }

/-- The check of the flag; a node that is primary already is an error. -/
def promoteCheck (s : Node) (p : Nat) : Option Node :=
  match s.promotions p with
  | .idle => some (if s.readOnly then s.setPromotion p .checked else s)
  | _ => none

/-- The checkpoint of `promote`, which may fail. -/
def promoteCheckpoint (s : Node) (p : Nat) (ok : Bool) : Option Node :=
  match s.promotions p with
  | .checked =>
    some (if ok then s.checkpoint.setPromotion p .checkpointed else s.setPromotion p .idle)
  | _ => none

def promoteLift (s : Node) (p : Nat) : Option Node :=
  match s.promotions p with
  | .checkpointed => some { s.setPromotion p .lifted with readOnly := false }
  | _ => none

/-- `promote` returns `Ok`. -/
def promoteReturn (s : Node) (p : Nat) : Option Node :=
  match s.promotions p with
  | .lifted => some { s.setPromotion p .idle with history := s.history ++ [.promoted] }
  | _ => none

/-! ## The replica thread -/

/-- The loop of `run_replica`. -/
def runReplica (s : Node) : Option Node :=
  match s.thread with
  | .resting =>
    if s.promoted && s.anchored then some s
    else if !s.readOnly && s.walGeneration ≠ s.startGen then some { s with thread := .detached }
    else some { s with thread := .connecting }
  | _ => none

/-- The handshake of `stream_once`. -/
def connect (s : Node) : Option Node :=
  match s.thread with
  | .connecting => some { s with thread := .looping, pending := ∅, snap := none }
  | _ => none

/-- `stream_once` returns with an error. -/
def fail (s : Node) : Option Node :=
  match s.thread with
  | .detached => none
  | _ => some { s with thread := .resting }

/-- The check of the flag in a turn of the loop. -/
def check (s : Node) : Option Node :=
  match s.thread with
  | .looping => some { s with thread := if s.readOnly then .reading else .resting }
  | _ => none

/-- The snapshot that `SnapshotEnd` makes the thread apply; `stage` decodes an
image and builds its tables. -/
def takeSnapshot (stage : Bytes → Option Catalog) (s : Node) : Option (Catalog × Nat × Nat) :=
  match s.snap with
  | none => none
  | some asm =>
    if asm.buf.length ≠ asm.totalBytes then none
    else if s.anchored && s.generation.any fun g => asm.generation < g then none
    else (stage asm.buf).map fun image => (image, asm.endOffset, asm.generation)

/-- A turn of the loop gets a frame, or none in time. -/
def read (stage : Bytes → Option Catalog) (s : Node) (frame : Option Upstream) : Option Node :=
  match s.thread with
  | .reading =>
    match frame with
    | none | some .heartbeat | some .snapshotRequired => some { s with thread := .looping }
    | some (.walChunk offset data) =>
      let s := { s with snap := none }
      if offset ≠ s.applied then some { s with thread := .looping }
      else
        match takeChunk s.applied offset data with
        | some (records, position) => some { s with thread := .applying records position }
        | none => some { s with thread := .resting }
    | some (.snapshotBegin totalBytes endOffset generation) =>
      if totalBytes > maxFrame then some { s with thread := .resting }
      else
        some { s with
          thread := .looping
          snap := some
            { buf := []
              totalBytes := totalBytes
              endOffset := endOffset
              generation := generation } }
    | some (.snapshotChunk data) =>
      match s.snap with
      | none => some { s with thread := .resting }
      | some asm =>
        if asm.buf.length + data.length > asm.totalBytes then some { s with thread := .resting }
        else
          some { s with
            thread := .looping
            snap := some { asm with buf := asm.buf ++ data } }
    | some .snapshotEnd =>
      match s.takeSnapshot stage with
      | some (image, endOffset, generation) =>
        some { s with thread := .swapping image endOffset generation, snap := none }
      | none => some { s with thread := .resting, snap := none }
    | some .other => some { s with thread := .resting }
  | _ => none

/-- The next record of a chunk; a `Commit` record applies its batch to the
tables.  A panic ends the thread. -/
def apply (s : Node) : Option Node :=
  match s.thread with
  | .applying [] position => some { s with thread := .looping, applied := position }
  | .applying (r :: records) position =>
    if r.isCommit then
      match s.pending[r.txnOf]? with
      | some batch =>
        match s.tables.applyRecords (batch ++ [r]) with
        | .ok tables =>
          some { s with
            tables := tables
            pending := s.pending.erase r.txnOf
            thread := .logging (batch ++ [r]) records position
            history := s.history ++ [.applied] }
        | .error _ => some { s with thread := .detached }
      | none => some { s with thread := .applying records position }
    else
      some { s with
        pending := s.pending.insert r.txnOf (s.pending[r.txnOf]?.getD [] ++ [r])
        thread := .applying records position }
  | _ => none

def logBatch (s : Node) : Option Node :=
  match s.thread with
  | .logging batch records position =>
    some { s with
      log := s.log ++ [batch]
      thread := .applying records position
      history := s.history ++ [.logged] }
  | _ => none

/-- `apply_replica_snapshot` replaces the tables. -/
def swap (s : Node) : Option Node :=
  match s.thread with
  | .swapping image endOffset generation =>
    some { s with
      tables := image
      thread := .persisting endOffset generation
      history := s.history ++ [.swapped] }
  | _ => none

/-- Its checkpoint, and the new position. -/
def persist (s : Node) : Option Node :=
  match s.thread with
  | .persisting endOffset generation =>
    some { s.checkpoint with
      thread := .looping
      generation := some generation
      applied := endOffset
      anchored := true
      promoted := false
      pending := ∅
      history := s.history ++ [.persisted] }
  | _ => none

end Node

/-! ## Runs -/

/-- The steps of the sessions and of the thread. -/
inductive NodeAction where
  | promoteCheck (p : Nat)
  | promoteCheckpoint (p : Nat) (ok : Bool)
  | promoteLift (p : Nat)
  | promoteReturn (p : Nat)
  | client (tables : Catalog) (batch : List Record)
  | runReplica
  | connect
  | fail
  | check
  | read (frame : Option Upstream)
  | apply
  | logBatch
  | swap
  | persist

namespace Node

def step (stage : Bytes → Option Catalog) (s : Node) : NodeAction → Option Node
  | .promoteCheck p => s.promoteCheck p
  | .promoteCheckpoint p ok => s.promoteCheckpoint p ok
  | .promoteLift p => s.promoteLift p
  | .promoteReturn p => s.promoteReturn p
  | .client tables batch => some { s with tables := tables, log := s.log ++ [batch] }
  | .runReplica => s.runReplica
  | .connect => s.connect
  | .fail => s.fail
  | .check => s.check
  | .read frame => s.read stage frame
  | .apply => s.apply
  | .logBatch => s.logBatch
  | .swap => s.swap
  | .persist => s.persist

def Steps (stage : Bytes → Option Catalog) (s s' : Node) : Prop := ∃ a, s.step stage a = some s'

/-- Behind a return of `promote` the history has nothing from the upstream. -/
def Fenced (s : Node) : Prop :=
  ∀ before after, s.history = before ++ Event.promoted :: after → ∀ e ∈ after, e = .promoted

def completes (pending : ExtTreeMap Nat (List Record)) : List Record → Bool
  | [] => false
  | r :: records =>
    if r.isCommit then pending.contains r.txnOf || completes pending records
    else
      completes (pending.insert r.txnOf (pending[r.txnOf]?.getD [] ++ [r])) records

/-- The thread is going to write what it has received. -/
def owes (s : Node) : Bool :=
  match s.thread with
  | .applying records _ => completes s.pending records
  | .logging _ _ _ | .swapping _ _ _ | .persisting _ _ => true
  | _ => false

/-- A frame that makes the thread write: a chunk at its position that completes
a transaction, or the end of a snapshot that it accepts. -/
def delivers (stage : Bytes → Option Catalog) (s : Node) : Option Upstream → Bool
  | some (.walChunk offset data) =>
    (takeChunk s.applied offset data).any fun (records, _) => completes s.pending records
  | some .snapshotEnd => (s.takeSnapshot stage).isSome
  | _ => false

/-- A step that does not lift the flag while the thread is writing, and brings
nothing to write to a turn that looked at the flag before it was lifted. -/
def TimelyStep (stage : Bytes → Option Catalog) (s s' : Node) : Prop :=
  ∃ a, s.step stage a = some s' ∧ (∀ p, a = .promoteLift p → s.owes = false) ∧
    ∀ frame, a = .read frame → s.readOnly = false → s.delivers stage frame = false

/-! ## What a timely run keeps -/

/-- The invariant: once the flag is lifted, which it is before `promote`
returns, the thread has nothing left to write. -/
structure Inv (s : Node) : Prop where
  lifted : ∀ p, s.promotions p = .lifted → s.readOnly = false
  returned : .promoted ∈ s.history → s.readOnly = false
  quiet : s.readOnly = false → s.owes = false
  fenced : s.Fenced

variable {stage : Bytes → Option Catalog} {s s' : Node} {p : Nat}

theorem Starting.inv (h : s.Starting) : s.Inv := by
  obtain ⟨hflag, hidle, hthread, -, hhistory⟩ := h
  constructor
  · intro p hp
    rw [hidle p] at hp
    cases hp
  · intro hmem
    rw [hhistory] at hmem
    cases hmem
  · intro _
    rw [owes, hthread]
  · intro before after heq
    rw [hhistory] at heq
    simp at heq

/-- A move of the thread that writes nothing. -/
theorem Inv.move (h : s.Inv) (hpromotions : s'.promotions = s.promotions)
    (hflag : s'.readOnly = s.readOnly) (hhistory : s'.history = s.history)
    (howes : s.readOnly = false → s'.owes = false) : s'.Inv := by
  constructor
  · rw [hpromotions, hflag]
    exact h.lifted
  · rw [hhistory, hflag]
    exact h.returned
  · rw [hflag]
    exact howes
  · rw [Fenced, hhistory]
    exact h.fenced

theorem Inv.write (h : s.Inv) (howes : s.owes = true) {e : Event} (he : e ≠ .promoted)
    (hpromotions : s'.promotions = s.promotions) (hflag : s'.readOnly = s.readOnly)
    (hhistory : s'.history = s.history ++ [e]) : s'.Inv := by
  have hset : s.readOnly ≠ false := by
    intro hlifted
    rw [h.quiet hlifted] at howes
    cases howes
  have hnone : Event.promoted ∉ s'.history := by
    rw [hhistory, List.mem_append, List.mem_singleton]
    rintro (hmem | heq)
    · exact hset (h.returned hmem)
    · exact he heq.symm
  constructor
  · rw [hpromotions, hflag]
    exact h.lifted
  · intro hmem
    exact absurd hmem hnone
  · rw [hflag]
    intro hlifted
    exact absurd hlifted hset
  · intro before after heq
    refine absurd ?_ hnone
    rw [heq]
    simp

/-! ### The sessions -/

theorem promotions_setPromotion (p q : Nat) (stage : Promotion) :
    (s.setPromotion p stage).promotions q = if q = p then stage else s.promotions q :=
  Function.update_apply ..

/-- A call of `promote` moves on before the flag is lifted. -/
theorem Inv.promote (h : s.Inv) {next : Promotion} (hnext : next ≠ .lifted) :
    (s.setPromotion p next).Inv := by
  constructor
  · intro q hq
    rw [promotions_setPromotion] at hq
    split at hq
    · exact absurd hq hnext
    · exact h.lifted q hq
  · exact h.returned
  · exact h.quiet
  · exact h.fenced

theorem Inv.checkpoint (h : s.Inv) : s.checkpoint.Inv := h.move rfl rfl rfl h.quiet

theorem Inv.promoteCheck (h : s.Inv) (hs : s.promoteCheck p = some s') : s'.Inv := by
  unfold Node.promoteCheck at hs
  split at hs
  · cases hs
    split
    · exact h.promote (by simp)
    · exact h
  · cases hs

theorem Inv.promoteCheckpoint {ok : Bool} (h : s.Inv) (hs : s.promoteCheckpoint p ok = some s') :
    s'.Inv := by
  unfold Node.promoteCheckpoint at hs
  split at hs
  · cases hs
    split
    · exact h.checkpoint.promote (by simp)
    · exact h.promote (by simp)
  · cases hs

theorem Inv.promoteLift (h : s.Inv) (howes : s.owes = false) (hs : s.promoteLift p = some s') :
    s'.Inv := by
  unfold Node.promoteLift at hs
  split at hs
  · cases hs
    exact ⟨fun _ _ => rfl, fun _ => rfl, fun _ => howes, h.fenced⟩
  · cases hs

theorem Inv.promoteReturn (h : s.Inv) (hs : s.promoteReturn p = some s') : s'.Inv := by
  unfold Node.promoteReturn at hs
  split at hs
  · next hlifted =>
    have hflag := h.lifted p hlifted
    cases hs
    constructor
    · intro q hq
      exact hflag
    · intro _
      exact hflag
    · exact h.quiet
    · -- the new return is the last event
      intro before after heq
      have heq : s.history ++ [Event.promoted] = before ++ Event.promoted :: after := heq
      intro e he
      rcases List.eq_nil_or_concat after with rfl | ⟨init, last, rfl⟩
      · cases he
      · rw [List.concat_eq_append, ← List.cons_append, ← List.append_assoc] at heq
        obtain ⟨hinit, hlast⟩ := List.append_inj' heq rfl
        rw [List.concat_eq_append, List.mem_append] at he
        rcases he with he | he
        · exact h.fenced before init hinit e he
        · rw [List.mem_singleton.mp he]
          exact (List.singleton_inj.mp hlast).symm
  · cases hs

/-! ### The thread -/

/-- A frame that delivers nothing leaves nothing to write. -/
theorem Inv.read {frame : Option Upstream} (h : s.Inv)
    (hquiet : s.readOnly = false → s.delivers stage frame = false)
    (hs : s.read stage frame = some s') : s'.Inv := by
  unfold Node.read at hs
  split at hs
  case h_2 => cases hs
  split at hs
  case h_1 | h_2 | h_3 | h_8 =>
    cases hs
    exact h.move rfl rfl rfl fun _ => rfl
  case h_4 offset data =>
    dsimp only at hs
    split at hs
    · cases hs
      exact h.move rfl rfl rfl fun _ => rfl
    · split at hs
      · next records position htake =>
        cases hs
        refine h.move rfl rfl rfl fun hlifted => ?_
        have hnot := hquiet hlifted
        rw [delivers, htake] at hnot
        exact hnot
      · cases hs
        exact h.move rfl rfl rfl fun _ => rfl
  case h_5 =>
    split at hs
    · cases hs
      exact h.move rfl rfl rfl fun _ => rfl
    · cases hs
      exact h.move rfl rfl rfl fun _ => rfl
  case h_6 =>
    split at hs
    · cases hs
      exact h.move rfl rfl rfl fun _ => rfl
    · split at hs
      · cases hs
        exact h.move rfl rfl rfl fun _ => rfl
      · cases hs
        exact h.move rfl rfl rfl fun _ => rfl
  case h_7 =>
    split at hs
    · next image endOffset generation htake =>
      cases hs
      refine h.move rfl rfl rfl fun hlifted => ?_
      have hnot := hquiet hlifted
      rw [delivers, htake] at hnot
      cases hnot
    · cases hs
      exact h.move rfl rfl rfl fun _ => rfl

/-- A record is buffered, dropped or, where it completes a batch, applied. -/
theorem Inv.apply (h : s.Inv) (hs : s.apply = some s') : s'.Inv := by
  unfold Node.apply at hs
  split at hs
  case h_1 =>
    cases hs
    exact h.move rfl rfl rfl fun _ => rfl
  case h_3 => cases hs
  case h_2 r records position hthread =>
    have howes : s.owes = completes s.pending (r :: records) := by rw [owes, hthread]
    rw [completes] at howes
    split at hs
    · next hcommit =>
      rw [if_pos hcommit, ExtTreeMap.contains_eq_isSome_getElem?] at howes
      split at hs
      · next batch hbatch =>
        rw [hbatch] at howes
        split at hs
        · cases hs
          exact h.write howes (by simp) rfl rfl rfl
        · cases hs
          exact h.move rfl rfl rfl fun _ => rfl
      · next hnone =>
        cases hs
        refine h.move rfl rfl rfl fun hlifted => ?_
        rw [hnone] at howes
        exact howes.symm.trans (h.quiet hlifted)
    · next hcommit =>
      cases hs
      refine h.move rfl rfl rfl fun hlifted => ?_
      rw [if_neg hcommit] at howes
      exact howes.symm.trans (h.quiet hlifted)

theorem Inv.logBatch (h : s.Inv) (hs : s.logBatch = some s') : s'.Inv := by
  unfold Node.logBatch at hs
  split at hs
  · next hthread =>
    cases hs
    exact h.write (by rw [owes, hthread]) (by simp) rfl rfl rfl
  · cases hs

theorem Inv.swap (h : s.Inv) (hs : s.swap = some s') : s'.Inv := by
  unfold Node.swap at hs
  split at hs
  · next hthread =>
    cases hs
    exact h.write (by rw [owes, hthread]) (by simp) rfl rfl rfl
  · cases hs

theorem Inv.persist (h : s.Inv) (hs : s.persist = some s') : s'.Inv := by
  unfold Node.persist at hs
  split at hs
  · next hthread =>
    cases hs
    exact h.write (by rw [owes, hthread]) (by simp) rfl rfl rfl
  · cases hs

theorem Inv.runReplica (h : s.Inv) (hs : s.runReplica = some s') : s'.Inv := by
  unfold Node.runReplica at hs
  split at hs
  · split at hs
    · cases hs
      exact h
    · split at hs
      · cases hs
        exact h.move rfl rfl rfl fun _ => rfl
      · cases hs
        exact h.move rfl rfl rfl fun _ => rfl
  · cases hs

theorem Inv.connect (h : s.Inv) (hs : s.connect = some s') : s'.Inv := by
  unfold Node.connect at hs
  split at hs
  · cases hs
    exact h.move rfl rfl rfl fun _ => rfl
  · cases hs

theorem Inv.fail (h : s.Inv) (hs : s.fail = some s') : s'.Inv := by
  unfold Node.fail at hs
  split at hs
  · cases hs
  · cases hs
    exact h.move rfl rfl rfl fun _ => rfl

theorem Inv.check (h : s.Inv) (hs : s.check = some s') : s'.Inv := by
  unfold Node.check at hs
  split at hs
  · cases hs
    refine h.move rfl rfl rfl fun hlifted => ?_
    rw [owes, hlifted]
    rfl
  · cases hs

theorem Inv.timelyStep (h : s.Inv) (hs : TimelyStep stage s s') : s'.Inv := by
  obtain ⟨a, ha, hlift, hread⟩ := hs
  cases a with
  | promoteCheck p => exact h.promoteCheck ha
  | promoteCheckpoint p ok => exact h.promoteCheckpoint ha
  | promoteLift p => exact h.promoteLift (hlift p rfl) ha
  | promoteReturn p => exact h.promoteReturn ha
  | client tables batch =>
    cases ha
    exact h.move rfl rfl rfl h.quiet
  | runReplica => exact h.runReplica ha
  | connect => exact h.connect ha
  | fail => exact h.fail ha
  | check => exact h.check ha
  | read frame => exact h.read (hread frame rfl) ha
  | apply => exact h.apply ha
  | logBatch => exact h.logBatch ha
  | swap => exact h.swap ha
  | persist => exact h.persist ha

theorem timely_promotions_fence (stage : Bytes → Option Catalog) (s₀ s : Node)
    (h₀ : s₀.Starting) (hrun : Relation.ReflTransGen (TimelyStep stage) s₀ s) : s.Fenced := by
  have hinv : s.Inv := Transition.invariant h₀.inv (fun _ _ h hs => h.timelyStep hs) hrun
  exact hinv.fenced

/-! ## Two runs -/

/-- The condition of a timely step, as a check. -/
def timely (stage : Bytes → Option Catalog) (s : Node) : NodeAction → Bool
  | .promoteLift _ => !s.owes
  | .read frame => s.readOnly || !s.delivers stage frame
  | _ => true

theorem timelyStep_spec {a : NodeAction}
    (hs : (if s.timely stage a then s.step stage a else none) = some s') : TimelyStep stage s s' := by
  split at hs
  case isFalse => cases hs
  case isTrue htimely =>
    refine ⟨a, hs, ?_, ?_⟩
    · rintro p rfl
      simpa [timely] using htimely
    · rintro frame rfl hlifted
      simpa [timely, hlifted] using htimely

/-- A replica without tables. -/
def bare : Node where
  tables := Catalog.empty
  log := []
  walGeneration := 0
  readOnly := true
  promotions := fun _ => .idle
  thread := .resting
  startGen := 0
  generation := some 0
  applied := logStart
  anchored := true
  promoted := false
  pending := ∅
  snap := none
  history := []

theorem bare_starting : bare.Starting := ⟨rfl, fun _ => rfl, rfl, rfl, rfl⟩

/-- A chunk with one transaction. -/
def newDatabase : Upstream :=
  .walChunk logStart (frames [.createDatabase 1 "crm", .commit 1 none])

/-- A chunk is handled, the node is promoted while the thread waits, and the
thread sees the flag. -/
def betweenFrames : List NodeAction :=
  [.runReplica, .connect, .check, .read (some newDatabase), .apply, .apply, .logBatch, .apply,
    .check, .promoteCheck 0, .promoteCheckpoint 0 true, .promoteLift 0, .promoteReturn 0,
    .read none, .check, .runReplica]

theorem betweenFrames_runs :
    (Transition.exec (fun a s => if timely (fun _ => none) s a then s.step (fun _ => none) a else none)
      (fun _ => true) betweenFrames bare).map history =
        some [.applied, .logged, .promoted] := by
  decide +kernel

theorem timely_promotions_fence_betweenFrames :
    ∃ s : Node, s.history = [.applied, .logged, .promoted] ∧ s.Fenced := by
  obtain ⟨s, hexec, hhistory⟩ := Option.map_eq_some_iff.mp betweenFrames_runs
  exact ⟨s, hhistory, timely_promotions_fence (fun _ => none) bare s bare_starting
    (Transition.exec_runs (fun _ _ _ hs => timelyStep_spec hs) hexec)⟩

/-- The node is promoted while the thread waits, and then the chunk comes. -/
def frameAfterPromotion : List NodeAction :=
  [.runReplica, .connect, .check, .promoteCheck 0, .promoteCheckpoint 0 true, .promoteLift 0,
    .promoteReturn 0, .read (some newDatabase), .apply, .apply, .logBatch]

theorem frameAfterPromotion_runs :
    (Transition.exec (fun a s => s.step (fun _ => none) a) (fun _ => true) frameAfterPromotion
      bare).map history = some [.promoted, .applied, .logged] := by
  decide +kernel

theorem promoted_node_applies_batch :
    ¬ ∀ (stage : Bytes → Option Catalog) (s₀ s : Node), s₀.Starting →
      Relation.ReflTransGen (Steps stage) s₀ s → s.Fenced := by
  intro halways
  obtain ⟨s, hexec, hhistory⟩ := Option.map_eq_some_iff.mp frameAfterPromotion_runs
  have hfenced := halways (fun _ => none) bare s bare_starting
    (Transition.exec_runs (fun a _ _ hs => ⟨a, hs⟩) hexec)
  have := hfenced [] [.applied, .logged] hhistory .applied (by simp)
  cases this

end Node

end HenchDB.Replication
