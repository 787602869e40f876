import HenchDB.Archive.Segment
import HenchDB.Lib.Transition

/-!
# Archiving the log

A checkpoint archives the log, raises the generation, rewrites `wal.gen` and
truncates the log, under the commit lock.  `ARCHIVE` archives too, in any session
and without the lock.  Archiving takes its steps one by one: it reads the
generation, lists the directory, copies the log from where it stopped up to the
durable offset, and writes the segment.

A crash keeps at least the durable bytes; the generation is then what `wal.gen`
has, and nothing is 0.  `ARCHIVE TO` sets the directory that the checkpoints archive
to as well; a restart sets it back to the one the server is started with.

The archive is complete when it is listed and its segments, with what is not yet
archived, are the truncated logs and the durable log one after the other, each
possibly behind prefixes of it (`Complete`).  Of the writes of a file only
`wal.gen` is taken apart.
-/

namespace HenchDB.Archive

open Wal Relation

/-- The steps of a checkpoint behind its snapshot. -/
inductive Phase where
  | archiving
  | sealed
  /-- `Wal::reset` has raised the generation in memory. -/
  | raised
  /-- `write_generation` has opened `wal.gen` and not written it. -/
  | emptied
  | written
deriving DecidableEq

/-- The steps of `archive_live_prefix`, into a directory. -/
inductive Stage where
  | idle
  | began (into : String) (generation : Nat)
  | scanned (into : String) (generation index resume : Nat)
  | copied (into : String) (segment : Segment)

/-- The log, the archive directories and who is at work. -/
structure State where
  /-- The log behind its header. -/
  body : Bytes
  durable : Nat
  generation : Nat
  /-- `wal.gen`. -/
  sidecar : Option Nat
  /-- The directories, by their paths. -/
  dirs : String → List Segment
  /-- `archive_dir`. -/
  archiveDir : String
  /-- `--wal-archive-dir`. -/
  home : String
  checkpoint : Option Phase
  /-- The checkpoint archives as `none`, a session as `some i`. -/
  archivers : Option Nat → Stage
  /-- Ghost: the logs that were truncated. -/
  past : List Bytes

namespace State

/-- An engine that has just opened a log, and no segments. -/
def start (home : String) (body : Bytes) (sidecar : Option Nat) : State where
  body := body
  durable := body.length
  generation := sidecar.getD 0
  sidecar := sidecar
  dirs := fun _ => []
  archiveDir := home
  home := home
  checkpoint := none
  archivers := fun _ => .idle
  past := []

/-- The segments of the archive directory. -/
def dir (s : State) : List Segment := s.dirs s.archiveDir

def durableBody (s : State) : Bytes := s.body.take s.durable

def durableOffset (s : State) : Nat := headerLen + s.durable

/-! ## Steps -/

/-- `append_records` under the commit lock. -/
def commit (s : State) (rs : List Record) : Option State :=
  if s.checkpoint = none then some { s with body := s.body ++ frames rs } else none

/-- The syncer. -/
def sync (s : State) (upTo : Nat) : Option State :=
  if s.durable ≤ upTo ∧ upTo ≤ s.body.length then some { s with durable := upTo } else none

/-- `checkpoint` has the commit lock and its snapshot. -/
def begin (s : State) : Option State :=
  if s.checkpoint = none then some { s with checkpoint := some .archiving } else none

def setStage (s : State) (who : Option Nat) (stage : Stage) : State :=
  { s with archivers := Function.update s.archivers who stage }

/-- Archiving is over; a checkpoint goes on. -/
def finish (s : State) (who : Option Nat) : State :=
  { s.setStage who .idle with
    checkpoint := if who = none then some .sealed else s.checkpoint }

def fail (s : State) (who : Option Nat) : State :=
  { s.setStage who .idle with checkpoint := if who = none then none else s.checkpoint }

def setArchiveDir (s : State) (dir : String) : State := { s with archiveDir := dir }

/-- `archive_checkpoint_prefix` waits until the log is durable; `archive_now` does
too, but for what was appended before. -/
def startArchive (s : State) (who : Option Nat) : Option State :=
  match s.archivers who with
  | .idle =>
    if who = none → s.checkpoint = some .archiving ∧ s.durable = s.body.length then
      some (s.setStage who (.began s.archiveDir s.generation))
    else none
  | _ => none

/-- `scan_state`. -/
def scan (s : State) (who : Option Nat) : Option State :=
  match s.archivers who with
  | .began into generation =>
    match scanState (s.dirs into) generation with
    | .ok (index, resume) => some (s.setStage who (.scanned into generation index resume))
    | .error _ => some (s.fail who)
  | _ => none

def commitTs : Record → Option Nat
  | .commit _ ts => ts
  | _ => none

/-- `commit_ts_range`, and the time now if no commit has a timestamp. -/
def tsRange (payload : Bytes) (now : Nat) : Except Error (Nat × Nat) := do
  let (rs, _) ← decodeWalRange false payload
  match rs.filterMap commitTs with
  | [] => return (0, now)
  | t :: ts => return (ts.foldl min t, if ts.foldl max t = 0 then now else ts.foldl max t)

/-- The durable prefix is copied and gets its header. -/
def copy (s : State) (who : Option Nat) (now : Nat) : Option State :=
  match s.archivers who with
  | .scanned into generation index resume =>
    if s.durableOffset < resume then some (s.fail who)
    else if resume = s.durableOffset then some (s.finish who)
    else
      let payload := s.durableBody.drop (resume - headerLen)
      match tsRange payload now with
      | .error _ => some (s.fail who)
      | .ok (startTs, endTs) =>
        some (s.setStage who (.copied into
          { header := { walVersion := 4, generation := generation, index := index,
                        startOffset := resume, endOffset := s.durableOffset,
                        startTs := startTs, endTs := endTs }
            payload := payload }))
  | _ => none

/-- `write_segment`. -/
def write (s : State) (who : Option Nat) : Option State :=
  match s.archivers who with
  | .copied into f =>
    match writeSegment (s.dirs into) f with
    | .ok dir => some { s.finish who with dirs := Function.update s.dirs into dir }
    | .error _ => some (s.fail who)
  | _ => none

/-- `Wal::reset` raises the generation. -/
def raise (s : State) : Option State :=
  if s.checkpoint = some .sealed then
    some { s with generation := s.generation + 1, checkpoint := some .raised }
  else none

/-- `write_generation` opens `wal.gen`, which empties it. -/
def emptySidecar (s : State) : Option State :=
  if s.checkpoint = some .raised then
    some { s with sidecar := none, checkpoint := some .emptied }
  else none

/-- `write_generation` writes and syncs the generation. -/
def writeSidecar (s : State) : Option State :=
  if s.checkpoint = some .emptied then
    some { s with sidecar := some s.generation, checkpoint := some .written }
  else none

/-- `Wal::reset` truncates the log; what was staged is durable by then. -/
def truncate (s : State) : Option State :=
  if s.checkpoint = some .written then
    some { s with body := [], durable := 0, checkpoint := none, past := s.past ++ [s.body] }
  else none

/-- A crash, and the next start: the log is durable as it is found. -/
def crash (s : State) (cut : Nat) : Option State :=
  if s.durable ≤ cut ∧ cut ≤ s.body.length then
    some { s with
      body := s.body.take cut
      durable := cut
      generation := s.sidecar.getD 0
      archiveDir := s.home
      checkpoint := none
      archivers := fun _ => .idle }
  else none

end State

inductive Action where
  | commit (rs : List Record)
  | sync (upTo : Nat)
  | begin
  | setArchiveDir (dir : String)
  | startArchive (who : Option Nat)
  | scan (who : Option Nat)
  | copy (who : Option Nat) (now : Nat)
  | write (who : Option Nat)
  | raise
  | emptySidecar
  | writeSidecar
  | truncate
  | crash (cut : Nat)

namespace State

def step (s : State) : Action → Option State
  | .commit rs => s.commit rs
  | .sync upTo => s.sync upTo
  | .begin => s.begin
  | .setArchiveDir dir => some (s.setArchiveDir dir)
  | .startArchive who => s.startArchive who
  | .scan who => s.scan who
  | .copy who now => s.copy who now
  | .write who => s.write who
  | .raise => s.raise
  | .emptySidecar => s.emptySidecar
  | .writeSidecar => s.writeSidecar
  | .truncate => s.truncate
  | .crash cut => s.crash cut

def Steps (s s' : State) : Prop := ∃ a, s.step a = some s'

/-! ## Completeness -/

/-- What an archiver would still copy. -/
def unarchived (s : State) (segs : List Segment) : Bytes :=
  s.durableBody.drop ((resumeState segs s.generation).2 - headerLen)

end State

/-- Growing prefixes of a log, the last of them the log itself. -/
structure Covers (log : Bytes) (parts : List Bytes) : Prop where
  grow : parts.IsChain fun p q => p <+: q
  whole : parts.getLast?.getD [] = log

/-- The archive directory is listed, and its segments with what is not yet
archived have every log in order, repeated only from its start. -/
def Complete (s : State) : Prop :=
  ∃ segs parts, listSegments s.dir = .ok segs ∧
    List.Forall₂ Covers (s.past ++ [s.durableBody]) parts ∧
    segs.flatMap Segment.payload ++ s.unarchived segs = parts.flatten.flatten

/-! ## The condition -/

namespace State

/-- `Wal::reset` is under way. -/
def Resetting (s : State) : Prop :=
  s.checkpoint = some .raised ∨ s.checkpoint = some .emptied ∨ s.checkpoint = some .written

/-- Nobody archives. -/
def Quiet (s : State) : Prop := ∀ who, s.archivers who = .idle

/-- The steps after which the archive stays complete: one archives at a time, and
nobody during `Wal::reset`; the archive directory is replaced only by one with the
same segments, while nobody archives; a segment is within the limits of
`list_segments`; no crash finds `wal.gen` empty, unless the log was of generation 0. -/
def Careful (s : State) : Action → Prop
  | .startArchive _ => s.Quiet ∧ ¬ s.Resetting
  | .setArchiveDir dir => dir = s.archiveDir ∨ s.Quiet ∧ s.dirs dir = s.dir
  | .raise => s.Quiet
  | .write who => ∀ f, s.archivers who = .copied s.archiveDir f →
      f.named = true ∧ f.header.payloadLen ≤ maxPayloadLen ∧ s.dir.length < maxSegments
  | .crash _ => (s.checkpoint = some .emptied → s.generation ≤ 1) ∧ s.dirs s.home = s.dir
  | _ => True

def CarefulStep (s s' : State) : Prop := ∃ a, s.Careful a ∧ s.step a = some s'

end State

/-! ## The invariant -/

/-- The segments of the truncated logs (`done`), of the log under earlier
generations (`earlier`) and of its first `n` bytes under generation `g`. -/
structure Tracked (dir : List Segment) (past : List Bytes) (body : Bytes) (durable g : Nat)
    (done : List (List Bytes)) (earlier : List Bytes) (n : Nat) : Prop where
  durable_le : durable ≤ body.length
  short : dir.length ≤ maxSegments
  sound : Sound dir g (headerLen + n)
  le_durable : n ≤ durable
  past : List.Forall₂ Covers past done
  grow : earlier.IsChain fun p q => p <+: q
  within : ∀ q ∈ earlier, q <+: body.take durable
  behind : n ≠ 0 → ∀ q ∈ earlier, q.length ≤ n
  content : dir.flatMap Segment.payload = done.flatten.flatten ++ earlier.flatten ++ body.take n

/-- What an archiver has found out is still true. -/
inductive Holding (s : State) (earlier : List Bytes) (n : Nat) (who : Option Nat) : Stage → Prop
  | idle : Holding s earlier n who .idle
  | began : Holding s earlier n who (.began s.archiveDir s.generation)
  | scanned : Holding s earlier n who
      (.scanned s.archiveDir s.generation (s.dir.length + 1) (headerLen + n))
  | copied {f m} : f.header.generation = s.generation → f.header.index = s.dir.length + 1 →
      f.header.startOffset = headerLen + n → f.header.endOffset = headerLen + m →
      f.payload = (s.body.take m).drop n → n < m → m ≤ s.durable →
      (who = none → m = s.body.length) → (∀ q ∈ earlier, q.length ≤ m) →
      Holding s earlier n who (.copied s.archiveDir f)

structure Working (s : State) (earlier : List Bytes) (n : Nat) : Prop where
  holding : ∀ who, Holding s earlier n who (s.archivers who)
  alone : ∀ i j, s.archivers i ≠ .idle → s.archivers j ≠ .idle → i = j
  quiet : s.Resetting → s.Quiet
  mine : s.archivers none ≠ .idle → s.checkpoint = some .archiving ∧ s.durable = s.body.length

/-- The generation and its file, by the phase of the checkpoint.  From `sealed` on
the whole log is archived. -/
def Phased (s : State) (earlier : List Bytes) (g n : Nat) : Prop :=
  match s.checkpoint with
  | none | some .archiving => s.generation = g ∧ s.sidecar.getD 0 = g
  | some .sealed => s.generation = g ∧ s.sidecar.getD 0 = g ∧ n = s.body.length
  | some .raised => s.generation = g + 1 ∧ s.sidecar.getD 0 = g ∧ n = s.body.length
  | some .emptied => s.generation = g + 1 ∧ s.sidecar = none ∧ n = s.body.length
  | some .written => s.generation = g ∧ s.sidecar = some g ∧ n = 0 ∧ Covers s.body earlier

/-- The invariant. -/
def Inv (s : State) : Prop := ∃ g done earlier n,
  Tracked s.dir s.past s.body s.durable g done earlier n ∧ Working s earlier n ∧
    Phased s earlier g n

section
variable {dir : List Segment} {past : List Bytes} {body : Bytes} {durable g n : Nat}
  {done : List (List Bytes)} {earlier : List Bytes}

theorem isChain_concat {l : List Bytes} {p : Bytes} (h : l.IsChain fun p q => p <+: q)
    (hp : ∀ q ∈ l, q <+: p) : (l ++ [p]).IsChain fun p q => p <+: q := by
  refine List.isChain_append.mpr ⟨h, List.isChain_singleton _, fun q hq r hr => ?_⟩
  cases hr
  exact hp q (List.mem_of_getLast? hq)

/-- The log is covered once its durable part is put behind. -/
theorem Tracked.covers (h : Tracked dir past body durable g done earlier n) :
    Covers (body.take durable) (earlier ++ [body.take durable]) :=
  ⟨isChain_concat h.grow h.within, by rw [List.getLast?_concat]; rfl⟩

/-- What is archived with the rest of the durable log is every log in order. -/
theorem Tracked.content_rest (h : Tracked dir past body durable g done earlier n) :
    dir.flatMap Segment.payload ++ (body.take durable).drop n =
      (done ++ [earlier ++ [body.take durable]]).flatten.flatten := by
  have htake : body.take n = (body.take durable).take n := by
    rw [List.take_take, Nat.min_eq_left h.le_durable]
  rw [h.content, htake, List.append_assoc, List.take_append_drop]
  simp only [List.flatten_append, List.flatten_cons, List.flatten_nil, List.append_nil,
    List.append_assoc]

variable {m : Nat}

/-- A prefix of the log that is archived is one of the prefixes. -/
theorem Tracked.within_take (h : Tracked dir past body durable g done earlier n) (hm : m ≤ durable)
    (hlen : ∀ q ∈ earlier, q.length ≤ m) : ∀ q ∈ earlier, q <+: body.take m :=
  fun q hq => by
    have hle : q.length ≤ (body.take m).length := by
      rw [List.length_take]
      have := h.durable_le
      have := hlen q hq
      omega
    have hprefix : body.take m <+: body.take durable := by
      rw [← Nat.min_eq_left hm, ← List.take_take]
      exact List.take_prefix ..
    exact List.prefix_of_prefix_length_le (h.within q hq) hprefix hle

/-- Under the next generation the archiver starts over: what it has is one more
prefix. -/
theorem Tracked.raise (h : Tracked dir past body durable g done earlier n) {g' : Nat}
    (hg : g < g') : ∃ earlier', Tracked dir past body durable g' done earlier' 0 ∧
      (n = body.length → Covers body earlier') := by
  by_cases hn : n = 0
  · refine ⟨earlier, ⟨h.durable_le, h.short, h.sound.later hg, Nat.zero_le _, h.past, h.grow,
      h.within, fun h0 => absurd rfl h0, ?_⟩, fun hbody => ⟨h.grow, ?_⟩⟩
    · rw [h.content, hn]
    · have hempty : body = [] := List.eq_nil_of_length_eq_zero (by omega)
      cases hlast : earlier.getLast? with
      | none => exact hempty.symm
      | some q =>
        have := h.within q (List.mem_of_getLast? hlast)
        rw [hempty, List.take_nil, List.prefix_nil] at this
        rw [this, hempty]
        rfl
  · have hwithin := h.within_take h.le_durable (h.behind hn)
    have hprefix : body.take n <+: body.take durable := by
      rw [← Nat.min_eq_left h.le_durable, ← List.take_take]
      exact List.take_prefix ..
    refine ⟨earlier ++ [body.take n], ⟨h.durable_le, h.short, h.sound.later hg, Nat.zero_le _,
      h.past, isChain_concat h.grow hwithin, fun q hq => ?_, fun h0 => absurd rfl h0, ?_⟩,
      fun hbody => ⟨isChain_concat h.grow hwithin, ?_⟩⟩
    · rcases List.mem_append.mp hq with hq | hq
      · exact h.within q hq
      · rw [List.mem_singleton.mp hq]
        exact hprefix
    · rw [h.content]
      simp
    · rw [List.getLast?_concat, hbody, List.take_length]
      rfl

theorem take_prefix_take {l : Bytes} {m' : Nat} (h : m ≤ m') : l.take m <+: l.take m' := by
  rw [← Nat.min_eq_left h, ← List.take_take]
  exact List.take_prefix ..

/-- More of the log, or more of it durable. -/
theorem Tracked.extend (h : Tracked dir past body durable g done earlier n) {body' : Bytes}
    {durable' : Nat} (hbody : body'.take durable = body.take durable) (hle : durable ≤ durable')
    (hle' : durable' ≤ body'.length) : Tracked dir past body' durable' g done earlier n := by
  have htake : body'.take n = body.take n := by
    rw [← Nat.min_eq_left h.le_durable, ← List.take_take, hbody, List.take_take]
  refine ⟨hle', h.short, h.sound, h.le_durable.trans hle, h.past, h.grow, fun q hq => ?_, h.behind,
    by rw [h.content, htake]⟩
  exact (hbody ▸ h.within q hq).trans (take_prefix_take hle)

theorem Tracked.snoc (h : Tracked dir past body durable g done earlier n) {f : Segment}
    (hfits : Fits f) (hgen : f.header.generation = g) (hindex : f.header.index = dir.length + 1)
    (hstart : f.header.startOffset = headerLen + n) (hend : f.header.endOffset = headerLen + m)
    (hpayload : f.payload = (body.take m).drop n) (hlt : n < m) (hm : m ≤ durable)
    (hroom : dir.length < maxSegments) (hbehind : ∀ q ∈ earlier, q.length ≤ m) :
    Tracked (dir ++ [f]) past body durable g done earlier m := by
  have hsound := h.sound.snoc hfits hgen hindex hstart (by omega)
  rw [hend] at hsound
  refine ⟨h.durable_le, ?_, hsound, hm, h.past, h.grow, h.within, fun _ => hbehind, ?_⟩
  · rw [List.length_append, List.length_singleton]
    omega
  · have htake : body.take n = (body.take m).take n := by
      rw [List.take_take, Nat.min_eq_left (Nat.le_of_lt hlt)]
    rw [List.flatMap_append, h.content, List.flatMap_singleton, hpayload, List.append_assoc, htake,
      List.take_append_drop]

/-- The log truncated, once all of it is archived. -/
theorem Tracked.truncate (h : Tracked dir past body durable g done earlier 0)
    (hcovers : Covers body earlier) : Tracked dir (past ++ [body]) [] 0 g (done ++ [earlier]) [] 0 := by
  refine ⟨le_refl _, h.short, h.sound, le_refl _, ?_, List.isChain_nil, by simp, by simp, ?_⟩
  · exact List.rel_append h.past (.cons hcovers .nil)
  · rw [h.content]
    simp

end

/-! ## Steps keep it -/

section
variable {s s' : State} {earlier : List Bytes} {g n : Nat}

theorem working_of_quiet (h : s.Quiet) : Working s earlier n :=
  ⟨fun who => by rw [h who]; exact .idle, fun i _ hi => absurd (h i) hi, fun _ => h,
    fun hmine => absurd (h none) hmine⟩

variable {who : Option Nat} {stage : Stage}

/-- When the one who archives is done, nobody does. -/
theorem Working.quiet_of_idle (h : Working s earlier n) (hwho : s.archivers who ≠ .idle) :
    ∀ i, Function.update s.archivers who .idle i = .idle := by
  intro i
  rw [Function.update_apply]
  split
  · rfl
  · next hi =>
    by_contra hidle
    exact hi (h.alone i who hidle hwho)

theorem Working.not_resetting (h : Working s earlier n) (hwho : s.archivers who ≠ .idle) :
    ¬ s.Resetting := fun hreset => hwho (h.quiet hreset who)

/-- Outside `Wal::reset` the generation is that of the segments. -/
theorem Phased.generation (h : Phased s earlier g n) (hreset : ¬ s.Resetting) :
    s.generation = g ∧ s.sidecar.getD 0 = g ∧ (s.checkpoint = some .sealed → n = s.body.length) := by
  rw [Phased] at h
  unfold State.Resetting at hreset
  cases hc : s.checkpoint with
  | none =>
    rw [hc] at h
    exact ⟨h.1, h.2, fun heq => by cases heq⟩
  | some phase =>
    rw [hc] at h hreset
    cases phase with
    | archiving => exact ⟨h.1, h.2, fun heq => by cases heq⟩
    | sealed => exact ⟨h.1, h.2.1, fun _ => h.2.2⟩
    | raised => exact absurd (.inl rfl) hreset
    | emptied => exact absurd (.inr (.inl rfl)) hreset
    | written => exact absurd (.inr (.inr rfl)) hreset

/-- Outside `Wal::reset` the phase asks no more than that. -/
theorem phased_of (hgen : s.generation = g) (hsidecar : s.sidecar.getD 0 = g)
    (hreset : ¬ s.Resetting) (hsealed : s.checkpoint = some .sealed → n = s.body.length) :
    Phased s earlier g n := by
  rw [Phased]
  unfold State.Resetting at hreset
  cases hc : s.checkpoint with
  | none => exact ⟨hgen, hsidecar⟩
  | some phase =>
    rw [hc] at hsealed hreset
    cases phase with
    | archiving => exact ⟨hgen, hsidecar⟩
    | sealed => exact ⟨hgen, hsidecar, hsealed rfl⟩
    | raised => exact absurd (.inl rfl) hreset
    | emptied => exact absurd (.inr (.inl rfl)) hreset
    | written => exact absurd (.inr (.inr rfl)) hreset

/-- More of the log, or more of it durable. -/
theorem Holding.extend (h : Holding s earlier n who stage) (hgen : s'.generation = s.generation)
    (hinto : s'.archiveDir = s.archiveDir) (hdir : s'.dir = s.dir)
    (hbody : s'.body.take s.durable = s.body.take s.durable)
    (hle : s.durable ≤ s'.durable)
    (hwhole : who = none → stage ≠ .idle → s'.body.length = s.body.length) :
    Holding s' earlier n who stage := by
  cases h with
  | idle => exact .idle
  | began =>
    rw [← hinto, ← hgen]
    exact .began
  | scanned =>
    rw [← hinto, ← hgen, ← hdir]
    exact .scanned
  | @copied f m hgen' hindex hstart hend hpayload hlt hm hmine hbehind =>
    rw [← hinto]
    refine .copied (hgen ▸ hgen') (hdir ▸ hindex) hstart hend ?_ hlt (hm.trans hle)
      (fun hwho => ?_) hbehind
    · rw [hpayload, ← Nat.min_eq_left hm, ← List.take_take, ← List.take_take, hbody]
    · rw [hwhole hwho (by simp)]
      exact hmine hwho

theorem Inv.commit (h : Inv s) {rs : List Record} (hstep : s.commit rs = some s') : Inv s' := by
  obtain ⟨g, done, earlier, n, htracked, hworking, hphased⟩ := h
  rw [State.commit] at hstep
  split at hstep
  · next hc =>
    cases hstep
    have hbody : (s.body ++ frames rs).take s.durable = s.body.take s.durable :=
      List.take_append_of_le_length htracked.durable_le
    have hidle : s.archivers none = .idle := by
      by_contra hidle
      rw [(hworking.mine hidle).1] at hc
      cases hc
    have hreset : ¬ s.Resetting := by
      rintro (hr | hr | hr) <;> rw [hr] at hc <;> cases hc
    obtain ⟨hgen, hsidecar, -⟩ := hphased.generation hreset
    refine ⟨g, done, earlier, n, htracked.extend hbody (le_refl _)
      (htracked.durable_le.trans (List.length_append ▸ Nat.le_add_right ..)),
      ⟨fun who => (hworking.holding who).extend rfl rfl rfl hbody (le_refl _) fun hwho hne => ?_,
        hworking.alone, hworking.quiet, fun hmine => absurd hidle hmine⟩,
      phased_of hgen hsidecar hreset fun hs => ?_⟩
    · subst hwho
      exact absurd hidle hne
    · rw [hc] at hs
      cases hs
  · cases hstep

theorem Inv.sync (h : Inv s) {upTo : Nat} (hstep : s.sync upTo = some s') : Inv s' := by
  obtain ⟨g, done, earlier, n, htracked, hworking, hphased⟩ := h
  rw [State.sync] at hstep
  split at hstep
  · next hle =>
    cases hstep
    refine ⟨g, done, earlier, n, htracked.extend rfl hle.1 hle.2, ⟨fun who =>
      (hworking.holding who).extend rfl rfl rfl rfl hle.1 fun _ _ => rfl, hworking.alone,
      hworking.quiet, fun hmine => ?_⟩, hphased⟩
    obtain ⟨hc, hdurable⟩ := hworking.mine hmine
    exact ⟨hc, Nat.le_antisymm hle.2 (hdurable ▸ hle.1)⟩
  · cases hstep

theorem Inv.begin (h : Inv s) (hstep : s.begin = some s') : Inv s' := by
  obtain ⟨g, done, earlier, n, htracked, hworking, hphased⟩ := h
  rw [State.begin] at hstep
  split at hstep
  · next hc =>
    cases hstep
    rw [Phased, hc] at hphased
    refine ⟨g, done, earlier, n, htracked, ⟨fun who => (hworking.holding who).extend rfl rfl rfl rfl
      (le_refl _) fun _ _ => rfl, hworking.alone, fun hr => ?_, fun hmine => ?_⟩, hphased⟩
    · rcases hr with hr | hr | hr <;> cases hr
    · have := (hworking.mine hmine).1
      rw [hc] at this
      cases this
  · cases hstep

theorem Working.setStage (hothers : ∀ i ≠ who, s.archivers i = .idle)
    (hreset : ¬ s.Resetting) (hholding : Holding s earlier n who stage)
    (hmine : who = none → s.checkpoint = some .archiving ∧ s.durable = s.body.length) :
    Working (s.setStage who stage) earlier n := by
  have hactive : ∀ i, (s.setStage who stage).archivers i ≠ .idle → i = who := fun i hi => by
    by_contra hne
    refine hi ?_
    rw [State.setStage]
    simp only [Function.update_of_ne hne]
    exact hothers i hne
  refine ⟨fun i => ?_, fun i j hi hj => (hactive i hi).trans (hactive j hj).symm,
    fun hr => absurd hr hreset, fun hne => hmine (hactive none hne).symm⟩
  by_cases hi : i = who
  · subst hi
    rw [State.setStage]
    simp only [Function.update_self]
    exact hholding.extend rfl rfl rfl rfl (le_refl _) fun _ _ => rfl
  · have hidle : (s.setStage who stage).archivers i = .idle := by
      rw [State.setStage]
      simp only [Function.update_of_ne hi]
      exact hothers i hi
    rw [hidle]
    exact .idle

theorem Inv.startArchive (h : Inv s) (hquiet : s.Quiet) (hreset : ¬ s.Resetting)
    (hstep : s.startArchive who = some s') : Inv s' := by
  obtain ⟨g, done, earlier, n, htracked, hworking, hphased⟩ := h
  rw [State.startArchive, hquiet who] at hstep
  simp only at hstep
  split at hstep
  · next hguard =>
    cases hstep
    exact ⟨g, done, earlier, n, htracked, Working.setStage (fun i _ => hquiet i) hreset .began
      hguard, hphased⟩
  · cases hstep

/-- The archiver at work: the others are idle, and the segments are those of the
generation. -/
theorem Working.others (h : Working s earlier n) (hstage : s.archivers who = stage)
    (hne : stage ≠ .idle) :
    (∀ i ≠ who, s.archivers i = .idle) ∧ ¬ s.Resetting ∧
      (who = none → s.checkpoint = some .archiving ∧ s.durable = s.body.length) := by
  have hactive : s.archivers who ≠ .idle := hstage ▸ hne
  refine ⟨fun i hi => ?_, h.not_resetting hactive, fun hwho => ?_⟩
  · by_contra hidle
    exact hi (h.alone i who hidle hactive)
  · subst hwho
    exact h.mine hactive

/-- Archiving is over, in one way or the other. -/
theorem Inv.ends {done : List (List Bytes)} (hworking : Working s earlier n)
    (hphased : Phased s earlier g n) (hstage : s.archivers who = stage) (hne : stage ≠ .idle)
    {n' : Nat} {dirs : String → List Segment}
    (htracked : Tracked (dirs s.archiveDir) s.past s.body s.durable g done earlier n') (hle : n ≤ n')
    {phase : Option Phase}
    (hs' : s' = { s.setStage who .idle with
      dirs := dirs
      checkpoint := if who = none then phase else s.checkpoint })
    (hphase : who = none → phase = none ∨ phase = some .sealed ∧ n' = s.body.length) : Inv s' := by
  subst hs'
  obtain ⟨-, hreset, hmine⟩ := hworking.others hstage hne
  obtain ⟨hgen, hsidecar, hsealed⟩ := hphased.generation hreset
  refine ⟨g, done, earlier, n', htracked, working_of_quiet ?_, ?_⟩
  · exact hworking.quiet_of_idle (hstage ▸ hne)
  · by_cases hwho : who = none
    · rcases hphase hwho with rfl | ⟨rfl, hfull⟩
      · simp only [Phased, if_pos hwho]
        exact ⟨hgen, hsidecar⟩
      · simp only [Phased, if_pos hwho]
        exact ⟨hgen, hsidecar, hfull⟩
    · simp only [if_neg hwho]
      refine phased_of hgen hsidecar hreset fun hs => ?_
      have := hsealed hs
      have := htracked.le_durable
      have := htracked.durable_le
      show n' = s.body.length
      omega

theorem Inv.scan (h : Inv s) {who : Option Nat} (hstep : s.scan who = some s') : Inv s' := by
  obtain ⟨g, done, earlier, n, htracked, hworking, hphased⟩ := h
  rw [State.scan] at hstep
  cases hstage : s.archivers who with
  | began into generation =>
    have hholding := hworking.holding who
    rw [hstage] at hholding hstep
    cases hholding
    obtain ⟨hothers, hreset, hmine⟩ := hworking.others hstage (by simp)
    obtain ⟨hgen, -, -⟩ := hphased.generation hreset
    have hscanned : scanState (s.dirs s.archiveDir) g = .ok (s.dir.length + 1, headerLen + n) :=
      htracked.sound.scanState htracked.short
    simp only [hgen, hscanned] at hstep
    cases hstep
    rw [← hgen]
    exact ⟨g, done, earlier, n, htracked, Working.setStage hothers hreset .scanned hmine, hphased⟩
  | _ =>
    rw [hstage] at hstep
    cases hstep

theorem Inv.copy (h : Inv s) {now : Nat} (hstep : s.copy who now = some s') :
    Inv s' := by
  obtain ⟨g, done, earlier, n, htracked, hworking, hphased⟩ := h
  rw [State.copy] at hstep
  cases hstage : s.archivers who with
  | scanned into generation index resume =>
    have hholding := hworking.holding who
    rw [hstage] at hholding hstep
    cases hholding
    have hle := htracked.le_durable
    have hne : Stage.scanned s.archiveDir s.generation (s.dir.length + 1) (headerLen + n) ≠ .idle := by simp
    obtain ⟨hothers, hreset, hmine⟩ := hworking.others hstage hne
    have hnot : ¬ s.durableOffset < headerLen + n := by
      unfold State.durableOffset
      omega
    simp only [if_neg hnot] at hstep
    split at hstep
    · next hall =>
      cases hstep
      refine Inv.ends hworking hphased hstage hne htracked (le_refl _) rfl fun hwho =>
        .inr ⟨rfl, ?_⟩
      have := (hmine hwho).2
      unfold State.durableOffset at hall
      omega
    · next hmore =>
      split at hstep
      · cases hstep
        exact Inv.ends hworking hphased hstage hne htracked (le_refl _) rfl fun _ => .inl rfl
      · next startTs endTs _ =>
        cases hstep
        refine ⟨g, done, earlier, n, htracked, Working.setStage hothers hreset
          (.copied (m := s.durable) rfl rfl rfl rfl ?_ ?_ (le_refl _)
            (fun hwho => (hmine hwho).2) fun q hq => ?_) hmine, hphased⟩
        · rw [Nat.add_sub_cancel_left]
          rfl
        · unfold State.durableOffset at hmore
          omega
        · have := (htracked.within q hq).length_le
          rw [List.length_take] at this
          omega
  | _ =>
    rw [hstage] at hstep
    cases hstep

theorem Inv.write (h : Inv s)
    (hcareful : ∀ f, s.archivers who = .copied s.archiveDir f → f.named = true ∧
      f.header.payloadLen ≤ maxPayloadLen ∧
      s.dir.length < maxSegments)
    (hstep : s.write who = some s') : Inv s' := by
  obtain ⟨g, done, earlier, n, htracked, hworking, hphased⟩ := h
  rw [State.write] at hstep
  cases hstage : s.archivers who with
  | copied into f =>
    have hholding := hworking.holding who
    rw [hstage] at hholding hstep
    cases hholding with
    | @copied _ m hgen hindex hstart hend hpayload hlt hm hwhole hbehind =>
      obtain ⟨hnamed, hshort, hroom⟩ := hcareful f hstage
      have hne : Stage.copied s.archiveDir f ≠ .idle := by simp
      obtain ⟨-, hreset, -⟩ := hworking.others hstage hne
      have hsized : f.payload.length = f.header.payloadLen := by
        have := htracked.durable_le
        rw [hpayload, SegmentMeta.payloadLen, hstart, hend, List.length_drop, List.length_take]
        omega
      have hwritten : writeSegment (s.dirs s.archiveDir) f = .ok (s.dir ++ [f]) :=
        htracked.sound.writeSegment hsized hindex
      simp only [hwritten] at hstep
      cases hstep
      have hsnoc := htracked.snoc ⟨hnamed, hshort, hsized⟩
        (hgen.trans (hphased.generation hreset).1) hindex hstart hend hpayload hlt hm hroom hbehind
      rw [← Function.update_self s.archiveDir (s.dir ++ [f]) s.dirs] at hsnoc
      exact Inv.ends hworking hphased hstage hne hsnoc (Nat.le_of_lt hlt) rfl fun hwho =>
        .inr ⟨rfl, hwhole hwho⟩
  | _ =>
    rw [hstage] at hstep
    cases hstep

theorem Inv.raise (h : Inv s) (hquiet : s.Quiet) (hstep : s.raise = some s') : Inv s' := by
  obtain ⟨g, done, earlier, n, htracked, hworking, hphased⟩ := h
  rw [State.raise] at hstep
  split at hstep
  · next hc =>
    cases hstep
    rw [Phased, hc] at hphased
    exact ⟨g, done, earlier, n, htracked, working_of_quiet hquiet, congrArg (· + 1) hphased.1,
      hphased.2⟩
  · cases hstep

theorem Inv.emptySidecar (h : Inv s) (hstep : s.emptySidecar = some s') : Inv s' := by
  obtain ⟨g, done, earlier, n, htracked, hworking, hphased⟩ := h
  rw [State.emptySidecar] at hstep
  split at hstep
  · next hc =>
    cases hstep
    rw [Phased, hc] at hphased
    exact ⟨g, done, earlier, n, htracked, working_of_quiet (hworking.quiet (.inl hc)), hphased.1,
      rfl, hphased.2.2⟩
  · cases hstep

theorem Inv.writeSidecar (h : Inv s) (hstep : s.writeSidecar = some s') : Inv s' := by
  obtain ⟨g, done, earlier, n, htracked, hworking, hphased⟩ := h
  rw [State.writeSidecar] at hstep
  split at hstep
  · next hc =>
    cases hstep
    rw [Phased, hc] at hphased
    obtain ⟨earlier', htracked', hcovers⟩ := htracked.raise (Nat.lt_succ_self g)
    exact ⟨g + 1, done, earlier', 0, htracked', working_of_quiet (hworking.quiet (.inr (.inl hc))),
      hphased.1, congrArg some hphased.1, rfl, hcovers hphased.2.2⟩
  · cases hstep

theorem Inv.truncate (h : Inv s) (hstep : s.truncate = some s') : Inv s' := by
  obtain ⟨g, done, earlier, n, htracked, hworking, hphased⟩ := h
  rw [State.truncate] at hstep
  split at hstep
  · next hc =>
    cases hstep
    rw [Phased, hc] at hphased
    obtain ⟨hgen, hsidecar, rfl, hcovers⟩ := hphased
    exact ⟨g, done ++ [earlier], [], 0, htracked.truncate hcovers,
      working_of_quiet (hworking.quiet (.inr (.inr hc))), hgen, by rw [hsidecar]; rfl⟩
  · cases hstep

theorem Inv.crash (h : Inv s) {cut : Nat}
    (hcareful : s.checkpoint = some .emptied → s.generation ≤ 1) (hhome : s.dirs s.home = s.dir)
    (hstep : s.crash cut = some s') : Inv s' := by
  obtain ⟨g, done, earlier, n, htracked, -, hphased⟩ := h
  have hsidecar : s.sidecar.getD 0 = g := by
    rw [Phased] at hphased
    split at hphased
    · exact hphased.2
    · exact hphased.2
    · exact hphased.2.1
    · exact hphased.2.1
    · next hc =>
      have := hcareful hc
      rw [hphased.2.1, Option.getD_none]
      omega
    · rw [hphased.2.1, Option.getD_some]
  rw [State.crash] at hstep
  split at hstep
  · next hcut =>
    cases hstep
    rw [← hhome] at htracked
    have hbody : (s.body.take cut).take s.durable = s.body.take s.durable := by
      rw [List.take_take, Nat.min_eq_left hcut.1]
    exact ⟨g, done, earlier, n, htracked.extend hbody hcut.1
      (by rw [List.length_take, Nat.min_eq_left hcut.2]), working_of_quiet fun _ => rfl, hsidecar,
      hsidecar⟩
  · cases hstep

theorem Inv.setArchiveDir (h : Inv s) {dir : String} (hquiet : s.Quiet)
    (hdir : s.dirs dir = s.dir) : Inv (s.setArchiveDir dir) := by
  obtain ⟨g, done, earlier, n, htracked, -, hphased⟩ := h
  rw [← hdir] at htracked
  exact ⟨g, done, earlier, n, htracked, working_of_quiet hquiet, hphased⟩

theorem Inv.step (h : Inv s) {a : Action} (hcareful : s.Careful a) (hstep : s.step a = some s') :
    Inv s' := by
  cases a with
  | commit rs => exact h.commit hstep
  | sync upTo => exact h.sync hstep
  | begin => exact h.begin hstep
  | setArchiveDir dir =>
    cases hstep
    rcases hcareful with rfl | ⟨hquiet, hdir⟩
    · exact h
    · exact h.setArchiveDir hquiet hdir
  | startArchive who => exact h.startArchive hcareful.1 hcareful.2 hstep
  | scan who => exact h.scan hstep
  | copy who now => exact h.copy hstep
  | write who => exact h.write hcareful hstep
  | raise => exact h.raise hcareful hstep
  | emptySidecar => exact h.emptySidecar hstep
  | writeSidecar => exact h.writeSidecar hstep
  | truncate => exact h.truncate hstep
  | crash cut => exact h.crash hcareful.1 hcareful.2 hstep

theorem inv_start (home : String) (body : Bytes) (sidecar : Option Nat) :
    Inv (.start home body sidecar) :=
  ⟨sidecar.getD 0, [], [], 0, ⟨le_refl _, Nat.zero_le _, .empty _, Nat.zero_le _, .nil,
    List.isChain_nil, by simp, by simp, rfl⟩, working_of_quiet fun _ => rfl, rfl, rfl⟩

/-- The segments, at the generation the engine has. -/
theorem Inv.tracked (h : Inv s) : ∃ done earlier n,
    Tracked s.dir s.past s.body s.durable s.generation done earlier n := by
  obtain ⟨g, done, earlier, n, htracked, -, hphased⟩ := h
  have hcases : s.generation = g ∨ s.generation = g + 1 := by
    rw [Phased] at hphased
    split at hphased
    · exact .inl hphased.1
    · exact .inl hphased.1
    · exact .inl hphased.1
    · exact .inr hphased.1
    · exact .inr hphased.1
    · exact .inl hphased.1
  rcases hcases with hgen | hgen
  · exact ⟨done, earlier, n, hgen ▸ htracked⟩
  · obtain ⟨earlier', htracked', -⟩ := htracked.raise (Nat.lt_succ_self g)
    exact ⟨done, earlier', 0, hgen ▸ htracked'⟩

theorem Inv.complete (h : Inv s) : Complete s := by
  obtain ⟨done, earlier, n, htracked⟩ := h.tracked
  refine ⟨s.dir, done ++ [earlier ++ [s.durableBody]], htracked.sound.listSegments htracked.short,
    List.rel_append htracked.past (.cons htracked.covers .nil), ?_⟩
  rw [State.unarchived, htracked.sound.resumeState, Nat.add_sub_cancel_left]
  exact htracked.content_rest

end

theorem careful_archive_complete {home : String} {body : Bytes} {sidecar : Option Nat} {s : State}
    (h : ReflTransGen State.CarefulStep (.start home body sidecar) s) : Complete s := by
  refine Inv.complete (Transition.invariant (inv_start home body sidecar) (fun a b ha hab => ?_) h)
  obtain ⟨act, hcareful, hstep⟩ := hab
  exact ha.step hcareful hstep

def oneCommit : Bytes := frames [.commit 1 (some 5)]

def oneSegment : Segment where
  header := { walVersion := 4, generation := 0, index := 1, startOffset := 8, endOffset := 33,
              startTs := 5, endTs := 5 }
  payload := oneCommit

/-- `ARCHIVE TO` of a log that was found, before anything is archived. -/
theorem careful_archive_complete_one :
    ∃ s, ReflTransGen State.CarefulStep (.start "a" oneCommit none) s ∧ s.archiveDir = "b" ∧
      s.dir = [oneSegment] ∧ Complete s := by
  have hlen : oneCommit.length = 25 := by decide +kernel
  have hts : State.tsRange oneCommit 0 = .ok (5, 5) := by decide +kernel
  set s0 : State := .start "a" oneCommit none with hs0
  have hdurable : s0.durable = 25 := hlen
  set s1 := s0.setArchiveDir "b" with hs1
  set s2 := s1.setStage (some 0) (.began "b" 0) with hs2
  set s3 := s2.setStage (some 0) (.scanned "b" 0 1 8) with hs3
  set s4 := s3.setStage (some 0) (.copied "b" oneSegment) with hs4
  have hset : State.CarefulStep s0 s1 := ⟨.setArchiveDir "b", .inr ⟨fun _ => rfl, rfl⟩, rfl⟩
  have hstart : State.CarefulStep s1 s2 :=
    ⟨.startArchive (some 0), ⟨fun _ => rfl, by rintro (h | h | h) <;> cases h⟩, rfl⟩
  have hscan : State.CarefulStep s2 s3 := ⟨.scan (some 0), trivial, rfl⟩
  have hcopy : State.CarefulStep s3 s4 := by
    refine ⟨.copy (some 0) 0, trivial, ?_⟩
    show s3.copy (some 0) 0 = some s4
    have hbody : s3.durableBody.drop (8 - headerLen) = oneCommit := by
      show (oneCommit.take oneCommit.length).drop 0 = _
      rw [List.drop_zero, List.take_length]
    have hoffset : s3.durableOffset = 33 := by
      show headerLen + s0.durable = 33
      rw [hdurable]
      rfl
    have hstage : s3.archivers (some 0) = .scanned "b" 0 1 8 := rfl
    rw [State.copy, hstage]
    simp only [hbody, hts, hoffset]
    rfl
  have hwrite : State.CarefulStep s4
      { s4.finish (some 0) with dirs := Function.update s4.dirs "b" [oneSegment] } := by
    refine ⟨.write (some 0), fun f hf => ?_, ?_⟩
    · cases (show Stage.copied "b" oneSegment = .copied "b" f from hf)
      exact ⟨by decide, by decide, by decide⟩
    · have hwritten : writeSegment (s4.dirs "b") oneSegment = .ok [oneSegment] := by
        have hsized : oneSegment.payload.length = oneSegment.header.payloadLen := hlen
        rw [writeSegment, if_neg (not_not_intro hsized)]
        rfl
      have hstage : s4.archivers (some 0) = .copied "b" oneSegment := rfl
      show s4.write (some 0) = _
      rw [State.write, hstage]
      simp only [hwritten]
  have hrun := ((((ReflTransGen.single hset).tail hstart).tail hscan).tail hcopy).tail hwrite
  have hdir : Function.update s4.dirs "b" [oneSegment] "b" = [oneSegment] := Function.update_self ..
  exact ⟨_, hrun, rfl, hdir, careful_archive_complete hrun⟩

def archiveSteps : List Action :=
  [.begin, .startArchive none, .scan none, .copy none 0, .write none]

def commitSteps (before : Nat) : List Action :=
  [.commit [.commit 1 (some 5)], .sync (before + 25)]

/-- Two checkpoints, a crash of the second one on an empty `wal.gen`, and the
archive of the next. -/
def tornGeneration : List Action :=
  commitSteps 0 ++ archiveSteps ++ [.raise, .emptySidecar, .writeSidecar, .truncate] ++
    commitSteps 0 ++ archiveSteps ++ [.raise, .emptySidecar, .crash 25] ++
    commitSteps 25 ++ archiveSteps

theorem torn_generation_breaks_archive :
    ∃ s, ReflTransGen State.Steps (.start "a" [] none) s ∧ ¬ Complete s := by
  have hrun : (Transition.exec (fun a s => State.step s a) (fun _ => true) tornGeneration
      (.start "a" [] none)).map (fun s => (listSegments s.dir).isOk) = some false := by
    decide +kernel
  obtain ⟨s, hs, hlist⟩ := Option.map_eq_some_iff.mp hrun
  refine ⟨s, Transition.exec_runs (fun a _ _ h => ⟨a, h⟩) hs, ?_⟩
  rintro ⟨segs, parts, hok, -⟩
  rw [hok] at hlist
  cases hlist

end HenchDB.Archive
