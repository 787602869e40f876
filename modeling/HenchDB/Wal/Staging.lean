import HenchDB.Lib.Interleave
import HenchDB.Lib.Transition
import HenchDB.BTree.Key

/-!
# Staging shards of the log

An append reserves an offset and pushes its bytes into one of several queues;
the syncer takes the segments out of the queues in offset order and writes them.
Both happen in steps, so that an append may stand between its reservation and
its push while the syncer looks through the queues.

The queues are at all times an interleaving of the segments in offset order
(`Core.queued`).  So the segment that continues the file is in front of its
queue, and a batch that could not be written goes back in front of the queues
it came from.  Over this stands the log one would write without shards
(`SeqLog`), which every run of the shards is a run of.
-/

namespace HenchDB.Wal

open Interleave
open Relation

/-! ## The shards and the syncer -/

/-- `Segment`: the bytes reserved at an offset. -/
structure Segment where
  start : Nat
  data : Bytes
deriving DecidableEq, Repr

inductive Round where
  | idle
  /-- `drain_available` is about to look into shard `probe` for the segment at
  `frontier`. -/
  | draining (cap frontier reserved bytes : Nat) (batch : List (Nat × Segment)) (probe : Nat)
  /-- `write_and_sync` is about to write the batch. -/
  | writing (frontier : Nat) (batch : List (Nat × Segment))
  /-- The write failed, and this much of the batch is not yet pushed back. -/
  | requeuing (back : List (Nat × Segment))
  /-- The batch is filed and about to be synced. -/
  | syncing (frontier : Nat)
deriving DecidableEq, Repr

/-- `WalShared`, as far as staging goes. -/
structure Staging where
  file : Bytes
  /-- The reservation frontier. -/
  written : Nat
  fileWritten : Nat
  durable : Nat
  shards : List (List Segment)
  /-- The holder of `stage_lock`: what it reserved and the shard it picked. -/
  staging : Option (Nat × Segment)
  round : Round
  /-- Ghost: the file when the log was opened. -/
  opened : Bytes
  /-- Ghost: the bytes of the appends in the order of their reservations. -/
  appended : List Bytes
deriving DecidableEq, Repr

namespace Staging

/-- `Wal::open` with a number of shards. -/
def openAt (file : Bytes) (shards : Nat) : Staging where
  file := file
  written := file.length
  fileWritten := file.length
  durable := file.length
  shards := List.replicate shards []
  staging := none
  round := .idle
  opened := file
  appended := []

/-- `append_records` under `stage_lock`, up to the reservation.  An append
without bytes returns before it. -/
def reserve (shard : Nat) (data : Bytes) (s : Staging) : Option Staging :=
  if s.staging = none ∧ data ≠ [] ∧ shard < s.shards.length then
    some { s with
      written := s.written + data.length
      staging := some (shard, { start := s.written, data := data })
      appended := s.appended ++ [data] }
  else none

/-- `Shard::push`, and the release of `stage_lock`. -/
def push (s : Staging) : Option Staging :=
  match s.staging with
  | some (shard, seg) =>
    some { s with shards := s.shards.modify shard (· ++ [seg]), staging := none }
  | none => none

def popAt (frontier : Nat) : List Segment → Option (Bytes × List Segment)
  | seg :: queue => if seg.start = frontier then some (seg.data, queue) else none
  | [] => none

/-- The start of `drain_available`. -/
def beginDrain (cap : Nat) (s : Staging) : Option Staging :=
  match s.round with
  | .idle => some { s with round := .draining cap s.durable s.written 0 [] 0 }
  | _ => none

/-- `drain_available` returns; a caller does nothing with an empty batch. -/
def endDrain (frontier : Nat) (batch : List (Nat × Segment)) (s : Staging) : Staging :=
  { s with round := if batch.isEmpty then .idle else .writing frontier batch }

/-- One turn of the loops of `drain_available`.  Where no shard has the segment
at the frontier the drain stops; a debug build asserts that this does not
happen. -/
def probe (s : Staging) : Option Staging :=
  match s.round with
  | .draining cap frontier reserved bytes batch i =>
    if frontier < reserved ∧ bytes < cap then
      match s.shards[i]? with
      | some queue =>
        match popAt frontier queue with
        | some (data, queue') =>
          some { s with
            shards := s.shards.set i queue'
            round := .draining cap (frontier + data.length) reserved (bytes + data.length)
              (batch ++ [(i, { start := frontier, data := data })]) 0 }
        | none => some { s with round := .draining cap frontier reserved bytes batch (i + 1) }
      | none => some (s.endDrain frontier batch)
    else some (s.endDrain frontier batch)
  | _ => none

/-- The write of `write_and_sync`: all of the batch or nothing. -/
def write (ok : Bool) (s : Staging) : Option Staging :=
  match s.round with
  | .writing frontier batch =>
    if ok then
      some { s with
        file := s.file ++ batch.flatMap fun x => x.2.data
        fileWritten := frontier
        round := .syncing frontier }
    else some { s with round := .requeuing batch }
  | _ => none

/-- The failed batch is pushed back, the last segment first. -/
def requeue (s : Staging) : Option Staging :=
  match s.round with
  | .requeuing back =>
    match back.getLast? with
    | some (shard, seg) =>
      some { s with
        shards := s.shards.modify shard (seg :: ·)
        round := .requeuing back.dropLast }
    | none => some { s with round := .idle }
  | _ => none

/-- The sync of `write_and_sync`. -/
def sync (ok : Bool) (s : Staging) : Option Staging :=
  match s.round with
  | .syncing frontier =>
    some { s with
      durable := if ok then max s.durable frontier else s.durable
      round := .idle }
  | _ => none

/-- What a thread or the syncer does next. -/
inductive Action where
  | reserve (shard : Nat) (data : Bytes)
  | push
  | beginDrain (cap : Nat)
  | probe
  | write (ok : Bool)
  | requeue
  | sync (ok : Bool)

def next : Action → Staging → Option Staging
  | .reserve shard data => reserve shard data
  | .push => push
  | .beginDrain cap => beginDrain cap
  | .probe => probe
  | .write ok => write ok
  | .requeue => requeue
  | .sync ok => sync ok

def Step (s s' : Staging) : Prop := ∃ a, next a s = some s'

/-- What the syncer holds of the queues. -/
def held (s : Staging) : List (Nat × Segment) :=
  match s.round with
  | .draining _ _ _ _ batch _ => batch
  | .writing _ batch => batch
  | .requeuing back => back
  | _ => []

/-- What is reserved and not filed, wherever it stands. -/
def waiting (s : Staging) : List Segment :=
  s.held.map Prod.snd ++ (s.shards.flatten ++ (s.staging.map Prod.snd).toList)

def contents (s : Staging) : Bytes := s.opened ++ s.appended.flatten

end Staging

/-! ## Consecutive segments -/

/-- The segments cover the offsets from the first number to the second. -/
def Consecutive : Nat → List Segment → Nat → Prop
  | a, [], b => a = b
  | a, seg :: l, b => seg.start = a ∧ seg.data ≠ [] ∧ Consecutive (a + seg.data.length) l b

def segmentBytes (l : List Segment) : Bytes := l.flatMap Segment.data

variable {a b m : Nat} {l l' : List Segment} {x y : Segment}

theorem consecutive_append :
    Consecutive a (l ++ l') b ↔ ∃ m, Consecutive a l m ∧ Consecutive m l' b := by
  induction l generalizing a with
  | nil => simp [Consecutive]
  | cons x l ih => simp [Consecutive, ih, and_assoc]

theorem Consecutive.le (h : Consecutive a l b) : a ≤ b := by
  induction l generalizing a with
  | nil => exact h.le
  | cons x l ih =>
    obtain ⟨-, -, hrest⟩ := h
    exact (Nat.le_add_right _ _).trans (ih hrest)

theorem Consecutive.le_start (h : Consecutive a l b) (hx : x ∈ l) : a ≤ x.start := by
  induction l generalizing a with
  | nil => simp at hx
  | cons y l ih =>
    obtain ⟨hy, -, hrest⟩ := h
    rcases List.mem_cons.1 hx with rfl | hx
    · exact hy.ge
    · exact (Nat.le_add_right _ _).trans (ih hrest hx)

/-- Offsets do not repeat. -/
theorem Consecutive.start_ne (h : Consecutive a (x :: l) b) : ∀ z ∈ l, z.start ≠ x.start := by
  obtain ⟨hx, hne, hrest⟩ := h
  intro z hz
  have hlt : 0 < x.data.length := List.length_pos_iff.2 hne
  have hle := hrest.le_start hz
  omega

theorem Consecutive.length (h : Consecutive a l b) : a + (segmentBytes l).length = b := by
  induction l generalizing a with
  | nil => exact h
  | cons x l ih =>
    obtain ⟨-, -, hrest⟩ := h
    have := ih hrest
    rw [segmentBytes, List.flatMap_cons, List.length_append]
    rw [segmentBytes] at this
    omega

theorem segmentBytes_append : segmentBytes (l ++ l') = segmentBytes l ++ segmentBytes l' :=
  List.flatMap_append

/-! ## The invariant -/

namespace Staging

/-- What a round knows of the segments it holds. -/
def RoundOk (s : Staging) : Prop :=
  match s.round with
  | .draining _ frontier _ _ batch _ =>
    batch = [] ∧ frontier = s.durable ∨ Consecutive s.file.length (batch.map Prod.snd) frontier
  | .writing frontier batch => batch ≠ [] ∧ Consecutive s.file.length (batch.map Prod.snd) frontier
  | .syncing frontier => frontier = s.file.length
  | _ => True

/-- What is reserved and not filed in offset order, where the queues hold `rest`. -/
def line (s : Staging) (rest : List Segment) : List Segment :=
  s.held.map Prod.snd ++ (rest ++ (s.staging.map Prod.snd).toList)

/-- The segments in the queues are `rest` in offset order, behind those the
syncer holds and in front of the one that is being pushed. -/
structure Core (s : Staging) (rest : List Segment) : Prop where
  queued : Interleaves s.shards rest
  covered : Consecutive s.file.length (s.line rest) s.written
  bytes : s.file ++ segmentBytes (s.line rest) = s.contents
  durable : s.durable ≤ s.file.length
  filed : s.fileWritten = s.file.length
  picked : ∀ shard seg, s.staging = some (shard, seg) → shard < s.shards.length
  popped : ∀ x ∈ s.held, x.1 < s.shards.length
  round : RoundOk s

theorem core_openAt (file : Bytes) (n : Nat) : Core (openAt file n) [] where
  queued := interleaves_replicate n
  covered := rfl
  bytes := by simp [openAt, line, held, segmentBytes, contents]
  durable := le_rfl
  filed := rfl
  picked := by simp [openAt]
  popped := by simp [openAt, held]
  round := trivial

variable {s s' : Staging} {rest rest' : List Segment} {batch : List (Nat × Segment)}

/-- A segment moves between the queues and who holds it. -/
theorem Core.moved {shards : List (List Segment)} {staging : Option (Nat × Segment)} {round : Round}
    (h : Core s rest)
    (hline : line { s with shards := shards, staging := staging, round := round } rest' = s.line rest)
    (hqueued : Interleaves shards rest') (hlen : shards.length = s.shards.length)
    (hpicked : ∀ shard seg, staging = some (shard, seg) → shard < s.shards.length)
    (hpopped : ∀ x ∈ held { s with shards := shards, staging := staging, round := round },
      x.1 < s.shards.length)
    (hround : RoundOk { s with shards := shards, staging := staging, round := round }) :
    Core { s with shards := shards, staging := staging, round := round } rest' where
  queued := hqueued
  covered := hline ▸ h.covered
  bytes := hline ▸ h.bytes
  durable := h.durable
  filed := h.filed
  picked := hlen ▸ hpicked
  popped := hlen ▸ hpopped
  round := hround

variable {data : Bytes} {i cap frontier : Nat}

theorem Core.reserve {shard : Nat} (h : Core s rest) (hs : s.reserve shard data = some s') :
    Core s' rest := by
  unfold Staging.reserve at hs
  split at hs
  · next hif =>
    cases hs
    obtain ⟨hnone, hne, hshard⟩ := hif
    have hline : s.line rest = s.held.map Prod.snd ++ rest := by simp [line, hnone]
    have hcovered := h.covered
    have hbytes := h.bytes
    rw [hline] at hcovered hbytes
    refine
      { queued := h.queued
        covered := ?_
        bytes := ?_
        durable := h.durable
        filed := h.filed
        picked := ?_
        popped := h.popped
        round := h.round }
    · show Consecutive s.file.length (s.held.map Prod.snd ++ (rest ++ [_])) _
      rw [← List.append_assoc, consecutive_append]
      exact ⟨s.written, hcovered, rfl, hne, rfl⟩
    · show s.file ++ segmentBytes (s.held.map Prod.snd ++ (rest ++ [_])) = s.opened ++ _
      rw [← List.append_assoc, segmentBytes_append, ← List.append_assoc, hbytes]
      simp [contents, segmentBytes]
    · rintro _ _ ⟨⟩
      exact hshard
  · cases hs

theorem exists_queue {shard : Nat} (h : shard < s.shards.length) : ∃ q, s.shards[shard]? = some q :=
  ⟨_, List.getElem?_eq_getElem h⟩

theorem modify_of_getElem? {α : Type*} {l : List α} {q : α} {f : α → α} (h : l[i]? = some q) :
    l.modify i f = l.set i (f q) := by
  rw [List.modify_eq_set_getElem?, h]
  rfl

theorem Core.push (h : Core s rest) (hs : s.push = some s') : ∃ rest', Core s' rest' := by
  unfold Staging.push at hs
  split at hs
  · next shard seg hstaging =>
    cases hs
    obtain ⟨q, hq⟩ := exists_queue (h.picked _ _ hstaging)
    refine ⟨rest ++ [seg], h.moved ?_ ?_ (by simp) (by simp) h.popped h.round⟩
    · simp [line, held, hstaging]
    · rw [modify_of_getElem? hq]
      exact h.queued.push hq
  · cases hs

theorem Core.beginDrain (h : Core s rest) (hs : s.beginDrain cap = some s') :
    Core s' rest := by
  unfold Staging.beginDrain at hs
  split at hs
  · next hround =>
    cases hs
    refine h.moved ?_ h.queued rfl h.picked ?_ (.inl ⟨rfl, rfl⟩)
    · simp [line, held, hround]
    · simp [held]
  · cases hs

theorem Core.endDrain {reserved bytes : Nat} (h : Core s rest)
    (hround : s.round = .draining cap frontier reserved bytes batch i) :
    Core (s.endDrain frontier batch) rest := by
  have hok := h.round
  rw [RoundOk, hround] at hok
  unfold Staging.endDrain
  cases batch with
  | nil =>
    refine h.moved ?_ h.queued rfl h.picked ?_ trivial
    · simp [line, held, hround]
    · simp [held]
  | cons x batch =>
    have hpopped := h.popped
    rw [held, hround] at hpopped
    refine h.moved ?_ h.queued rfl h.picked hpopped ?_
    · simp [line, held, hround]
    · refine ⟨by simp, hok.resolve_left ?_⟩
      rintro ⟨hnil, -⟩
      cases hnil

theorem popAt_eq_some {queue queue' : List Segment} (h : popAt frontier queue = some (data, queue')) :
    queue = { start := frontier, data := data } :: queue' := by
  cases queue with
  | nil => cases h
  | cons seg queue =>
    rw [popAt] at h
    split at h
    · next hstart =>
      cases h
      rw [← hstart]
    · cases h

theorem Core.pop {reserved bytes : Nat} {queue : List Segment} (h : Core s rest)
    (hround : s.round = .draining cap frontier reserved bytes batch i)
    (hqueue : s.shards[i]? = some ({ start := frontier, data := data } :: queue)) :
    ∃ rest', Core { s with
      shards := s.shards.set i queue
      round := .draining cap (frontier + data.length) reserved (bytes + data.length)
        (batch ++ [(i, { start := frontier, data := data })]) 0 } rest' := by
  have hok := h.round
  have hpopped := h.popped
  have hcovered := h.covered
  rw [RoundOk, hround] at hok
  rw [held, hround] at hpopped
  rw [line, held, hround] at hcovered
  obtain ⟨m, hbatch, hbehind⟩ := consecutive_append.1 hcovered
  have hmem : { start := frontier, data := data } ∈ rest := h.queued.mem hqueue (by simp)
  obtain rfl : m = frontier := by
    rcases hok with ⟨rfl, rfl⟩ | hok
    · -- behind a failed sync no queue starts at the durable offset
      have hle : m ≤ s.durable := hbehind.le_start (List.mem_append_left _ hmem)
      have hm : s.file.length = m := hbatch
      have := h.durable
      omega
    · exact hbatch.length.symm.trans hok.length
  obtain ⟨x, rest', rfl⟩ := List.exists_cons_of_ne_nil (List.ne_nil_of_mem hmem)
  have hkeys : ∀ z ∈ rest', z.start ≠ x.start :=
    fun z hz => hbehind.start_ne z (List.mem_append_left _ hz)
  obtain ⟨rfl, hqueued⟩ := h.queued.pop_front hkeys hqueue hbehind.1.symm
  refine ⟨rest', h.moved ?_ hqueued (by simp) h.picked ?_ (.inr ?_)⟩
  · simp [line, held, hround]
  · have hi : i < s.shards.length := (List.getElem?_eq_some_iff.1 hqueue).1
    show ∀ x ∈ batch ++ [_], _
    rw [List.forall_mem_append, List.forall_mem_singleton]
    exact ⟨hpopped, hi⟩
  · rw [List.map_append, consecutive_append]
    exact ⟨m, hbatch, rfl, hbehind.2.1, rfl⟩

theorem Core.probe (h : Core s rest) (hs : s.probe = some s') : ∃ rest', Core s' rest' := by
  unfold Staging.probe at hs
  split at hs
  · next cap frontier reserved bytes batch i hround =>
    split at hs
    · split at hs
      · next queue hqueue =>
        split at hs
        · next data queue' hpop =>
          cases hs
          rw [popAt_eq_some hpop] at hqueue
          exact h.pop hround hqueue
        · cases hs
          have hok := h.round
          have hpopped := h.popped
          rw [RoundOk, hround] at hok
          rw [held, hround] at hpopped
          refine ⟨rest, h.moved ?_ h.queued rfl h.picked hpopped hok⟩
          simp [line, held, hround]
      · cases hs
        exact ⟨rest, h.endDrain hround⟩
    · cases hs
      exact ⟨rest, h.endDrain hround⟩
  · cases hs

theorem Core.write {ok : Bool} (h : Core s rest) (hs : s.write ok = some s') : Core s' rest := by
  unfold Staging.write at hs
  split at hs
  · next frontier batch hround =>
    have hok := h.round
    have hpopped := h.popped
    rw [RoundOk, hround] at hok
    rw [held, hround] at hpopped
    split at hs
    · cases hs
      have hcovered := h.covered
      have hbytes := h.bytes
      rw [line, held, hround] at hcovered hbytes
      obtain ⟨m, hbatch, hbehind⟩ := consecutive_append.1 hcovered
      obtain rfl : m = frontier := hbatch.length.symm.trans hok.2.length
      have hfile : (s.file ++ batch.flatMap fun x => x.2.data).length = m := by
        rw [List.length_append, ← hbatch.length, segmentBytes, List.flatMap_map]
      rw [segmentBytes_append, ← List.append_assoc, segmentBytes, List.flatMap_map] at hbytes
      exact
        { queued := h.queued
          covered := hfile.symm ▸ hbehind
          bytes := hbytes
          durable := h.durable.trans (by simp)
          filed := hfile.symm
          picked := h.picked
          popped := by simp [held]
          round := hfile.symm }
    · cases hs
      refine h.moved ?_ h.queued rfl h.picked hpopped trivial
      simp [line, held, hround]
  · cases hs

theorem Core.requeue (h : Core s rest) (hs : s.requeue = some s') : ∃ rest', Core s' rest' := by
  unfold Staging.requeue at hs
  split at hs
  · next back hround =>
    have hpopped := h.popped
    rw [held, hround] at hpopped
    split at hs
    · next shard seg hlast =>
      cases hs
      have hback : back.dropLast ++ [(shard, seg)] = back := List.dropLast_append_getLast? _ hlast
      obtain ⟨q, hq⟩ := exists_queue (s := s) (hpopped _ (List.mem_of_getLast? hlast))
      refine ⟨seg :: rest, h.moved ?_ ?_ (by simp) h.picked ?_ trivial⟩
      · simp only [line, held, hround]
        conv_rhs => rw [← hback]
        simp
      · rw [modify_of_getElem? hq]
        exact h.queued.putBack hq
      · intro x hx
        exact hpopped x (List.mem_of_mem_dropLast hx)
    · next hlast =>
      cases hs
      obtain rfl : back = [] := List.getLast?_eq_none_iff.1 hlast
      refine ⟨rest, h.moved ?_ h.queued rfl h.picked (by simp [held]) trivial⟩
      simp [line, held, hround]
  · cases hs

theorem Core.sync {ok : Bool} (h : Core s rest) (hs : s.sync ok = some s') : Core s' rest := by
  unfold Staging.sync at hs
  split at hs
  · next frontier hround =>
    cases hs
    have hok := h.round
    rw [RoundOk, hround] at hok
    have hline : s.line rest = rest ++ (s.staging.map Prod.snd).toList := by simp [line, held, hround]
    have hcovered := h.covered
    have hbytes := h.bytes
    rw [hline] at hcovered hbytes
    refine
      { queued := h.queued
        covered := hcovered
        bytes := hbytes
        durable := ?_
        filed := h.filed
        picked := h.picked
        popped := by simp [held]
        round := trivial }
    show (if ok then max s.durable frontier else s.durable) ≤ s.file.length
    have := h.durable
    split <;> omega
  · cases hs

theorem Core.step (h : Core s rest) (hs : Step s s') : ∃ rest', Core s' rest' := by
  obtain ⟨a, ha⟩ := hs
  cases a with
  | reserve shard data => exact ⟨rest, h.reserve ha⟩
  | push => exact h.push ha
  | beginDrain cap => exact ⟨rest, h.beginDrain ha⟩
  | probe => exact h.probe ha
  | write ok => exact ⟨rest, h.write ha⟩
  | requeue => exact h.requeue ha
  | sync ok => exact ⟨rest, h.sync ha⟩

/-! ## The log without shards -/

end Staging

/-- The log as a sequential writer keeps it: what was appended, and how much of
it is in the file and durable. -/
structure SeqLog where
  contents : Bytes
  filed : Nat
  durable : Nat

namespace SeqLog

/-- An append, a write of some of what is not in the file, and a sync. -/
inductive Step : SeqLog → SeqLog → Prop where
  | append (log : SeqLog) (data : Bytes) : Step log { log with contents := log.contents ++ data }
  | write (log : SeqLog) (n : Nat) (hfrom : log.filed ≤ n) (hto : n ≤ log.contents.length) :
      Step log { log with filed := n }
  | sync (log : SeqLog) : Step log { log with durable := log.filed }

end SeqLog

namespace Staging

variable {s s' : Staging} {rest rest' : List Segment} {batch : List (Nat × Segment)}

def seqLog (s : Staging) : SeqLog where
  contents := s.contents
  filed := s.file.length
  durable := s.durable

theorem Core.begins (h : Core s rest) : s.file <+: s.contents := ⟨_, h.bytes⟩

/-- A step of the shards is a step of the log, or does not show. -/
theorem Core.simulates (h : Core s rest) (hs : Step s s') :
    SeqLog.Step s.seqLog s'.seqLog ∨ s.seqLog = s'.seqLog := by
  obtain ⟨rest', h'⟩ := h.step hs
  obtain ⟨a, ha⟩ := hs
  cases a with
  | reserve shard data =>
    simp only [next, Staging.reserve] at ha
    split at ha
    · cases ha
      have hcontents : s.opened ++ (s.appended ++ [data]).flatten = s.contents ++ data := by
        simp [contents]
      have happend := SeqLog.Step.append s.seqLog data
      rw [seqLog, ← hcontents] at happend
      exact .inl happend
    · cases ha
  | push =>
    simp only [next, Staging.push] at ha
    split at ha
    · cases ha
      exact .inr rfl
    · cases ha
  | beginDrain cap =>
    simp only [next, Staging.beginDrain] at ha
    split at ha
    · cases ha
      exact .inr rfl
    · cases ha
  | probe =>
    right
    simp only [next, Staging.probe] at ha
    split at ha
    · split at ha
      · split at ha
        · split at ha
          · cases ha
            rfl
          · cases ha
            rfl
        · cases ha
          rfl
      · cases ha
        rfl
    · cases ha
  | write ok =>
    simp only [next, Staging.write] at ha
    split at ha
    · next frontier batch hround =>
      split at ha
      · cases ha
        refine .inl (SeqLog.Step.write s.seqLog _ ?_ h'.begins.length_le)
        simp [seqLog]
      · cases ha
        exact .inr rfl
    · cases ha
  | requeue =>
    simp only [next, Staging.requeue] at ha
    split at ha
    · split at ha
      · cases ha
        exact .inr rfl
      · cases ha
        exact .inr rfl
    · cases ha
  | sync ok =>
    simp only [next, Staging.sync] at ha
    split at ha
    · next frontier hround =>
      cases ha
      have hok := h.round
      rw [RoundOk, hround] at hok
      cases ok with
      | true =>
        have hmax : max s.durable frontier = s.file.length := by
          have := h.durable
          omega
        left
        show SeqLog.Step s.seqLog
          { contents := s.contents, filed := s.file.length, durable := max s.durable frontier }
        rw [hmax]
        exact .sync s.seqLog
      | false => exact .inr rfl
    · cases ha

/-- The file and what is staged, seen from outside. -/
structure InOrder (s : Staging) : Prop where
  /-- The file is the beginning of the appends in the order of their
  reservations, and what is durable is in it. -/
  file : s.file <+: s.contents
  durable : s.durable ≤ s.file.length
  /-- What is not in the file waits in one place, and continues it. -/
  waiting : ∃ l : List Segment, l.Perm s.waiting ∧ Consecutive s.file.length l s.written ∧
    s.file ++ segmentBytes l = s.contents
  batch : ∀ frontier batch, s.round = .writing frontier batch →
    s.file ++ segmentBytes (batch.map Prod.snd) <+: s.contents ∧
      s.file.length < frontier ∧ frontier = (s.file ++ segmentBytes (batch.map Prod.snd)).length
  /-- Between rounds, unless a sync has failed or an append stands between its
  reservation and its push, the segment that continues the file is in front of
  its queue. -/
  front : s.round = .idle → s.staging = none → s.fileWritten = s.durable → s.durable < s.written →
    ∃ (i : Nat) (seg : Segment) (queue : List Segment), s.shards[i]? = some (seg :: queue) ∧
      seg.start = s.durable ∧ s.file ++ seg.data <+: s.contents

theorem Core.inOrder (h : Core s rest) : InOrder s := by
  refine
    { file := h.begins
      durable := h.durable
      waiting := ?_
      batch := ?_
      front := ?_ }
  · refine ⟨s.line rest, ?_, h.covered, h.bytes⟩
    exact (h.queued.perm.symm.append_right _).append_left _
  · intro frontier batch hround
    have hok := h.round
    have hbytes := h.bytes
    rw [RoundOk, hround] at hok
    rw [line, held, hround, segmentBytes_append, ← List.append_assoc] at hbytes
    refine ⟨⟨_, hbytes⟩, ?_, ?_⟩
    · cases batch with
      | nil => exact absurd rfl hok.1
      | cons x batch =>
        obtain ⟨-, hne, hbehind⟩ := hok.2
        have hpos : 0 < x.2.data.length := List.length_pos_iff.2 hne
        have := hbehind.le
        omega
    · rw [List.length_append, hok.2.length]
  · intro hround hstaging hfiled hlt
    have hcovered := h.covered
    have hbytes := h.bytes
    have hline : s.line rest = rest := by simp [line, held, hround, hstaging]
    rw [hline] at hcovered hbytes
    have hdurable : s.durable = s.file.length := hfiled.symm.trans h.filed
    cases rest with
    | nil =>
      have : s.file.length = s.written := hcovered
      omega
    | cons seg rest =>
      obtain ⟨i, queue, hi⟩ := h.queued.exists_front
      refine ⟨i, seg, queue, hi, hcovered.1.trans hdurable.symm, ?_⟩
      rw [segmentBytes, List.flatMap_cons, ← List.append_assoc] at hbytes
      exact ⟨_, hbytes⟩

/-- Whatever appends and rounds of the syncer do, the file is the sequential
log, and everything else waits in order. -/
theorem staging_refines_log {file : Bytes} {shards : Nat}
    (h : ReflTransGen Step (openAt file shards) s) :
    ReflTransGen SeqLog.Step { contents := file, filed := file.length, durable := file.length }
        s.seqLog ∧ InOrder s := by
  have hrun : (∃ rest, Core s rest) ∧ ReflTransGen SeqLog.Step (openAt file shards).seqLog s.seqLog := by
    induction h with
    | refl => exact ⟨⟨[], core_openAt file shards⟩, .refl⟩
    | tail _ hstep ih =>
      obtain ⟨⟨rest, hcore⟩, hlog⟩ := ih
      refine ⟨hcore.step hstep, ?_⟩
      rcases hcore.simulates hstep with hnext | hsame
      · exact hlog.tail hnext
      · rwa [← hsame]
  obtain ⟨⟨rest, hcore⟩, hlog⟩ := hrun
  refine ⟨?_, hcore.inOrder⟩
  simpa [seqLog, openAt, contents] using hlog

/-- Two appends on two shards; the first write fails, and the next round files
both. -/
def failedWrite : List Action :=
  [.reserve 1 [1, 2], .push, .reserve 0 [3], .push, .beginDrain 4096, .probe, .probe, .probe,
   .probe, .write false, .requeue, .requeue, .requeue, .beginDrain 4096, .probe, .probe, .probe,
   .probe, .write true, .sync true]

theorem failedWrite_runs : ∃ s, ReflTransGen Step (openAt [0] 2) s ∧ s.file = [0, 1, 2, 3] ∧
    s.durable = 4 := by
  have hrun : (Transition.exec next (fun _ => true) failedWrite (openAt [0] 2)).map
      (fun s => (s.file, s.durable)) = some ([0, 1, 2, 3], 4) := by decide +kernel
  obtain ⟨s, hs, hend⟩ := Option.map_eq_some_iff.1 hrun
  rw [Prod.mk.injEq] at hend
  exact ⟨s, Transition.exec_runs (fun a _ _ h => ⟨a, h⟩) hs, hend.1, hend.2⟩

theorem staging_refines_log_failedWrite : ∃ s, s.file = [0, 1, 2, 3] ∧ s.durable = 4 ∧
    ReflTransGen SeqLog.Step { contents := [0], filed := 1, durable := 1 } s.seqLog ∧
      InOrder s := by
  obtain ⟨s, hrun, hfile, hdurable⟩ := failedWrite_runs
  exact ⟨s, hfile, hdurable, staging_refines_log hrun⟩

end Staging

end HenchDB.Wal
