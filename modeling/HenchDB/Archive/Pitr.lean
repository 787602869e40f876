import HenchDB.Archive.Segment
import HenchDB.Wal.Recovery
import Mathlib.Data.List.DropRight

/-!
# Point-in-time recovery

`restore_pitr` reads the archived segments in their order, frame by frame, and buffers
the frames of each transaction.  At a commit that the target includes it takes the
buffered frames and the commit over into a new log; at the first commit beyond the target
it stops.  `Database::open` then redoes the new log over the base backup.

The new log so has the transactions in the order of their commits, each in one piece,
where the archive has them interleaved.  Redo does not see the difference: it reaches the
state that the archived records reach up to the last commit that is included
(`restore_is_exact`).  Nothing in this depends on where a segment ends.
-/

namespace HenchDB.Archive

open Codec Outcome Wal
open Std (ExtTreeMap)

/-! ## Frames -/

/-- `split_frames`.  Every frame takes bytes, so the length of the payload is fuel enough. -/
def splitFrames : Nat → Bytes → Except Error (List Bytes)
  | 0, _ => .ok []
  | fuel + 1, data =>
    if data = [] then .ok []
    else if data.length < 8 then .error (.corrupted "archive: torn record header")
    else if 2 ^ 30 < leValue (data.take 4) then .error (.corrupted "archive: record too large")
    else if (data.drop 8).length < leValue (data.take 4) then
      .error (.corrupted "archive: torn record payload")
    else if (crc32 ((data.drop 8).take (leValue (data.take 4)))).toNat ≠
        leValue ((data.drop 4).take 4) then
      .error (.corrupted "archive: record CRC mismatch")
    else
      (splitFrames fuel (data.drop (8 + leValue (data.take 4)))).map
        (data.take (8 + leValue (data.take 4)) :: ·)

/-- The texts name a file without its directory. -/
def readSegmentPayload (f : Segment) : Except Error Bytes :=
  if f.payload.length ≠ f.header.payloadLen then
    .error (.corrupted ("archive: size mismatch for " ++ f.name))
  else .ok f.payload

/-! ## The selection -/

structure PitrTarget where
  /-- Inclusive, in seconds. -/
  time : Option Nat
  /-- Exclusive. -/
  txn : Option Nat

structure PitrStats where
  segmentsScanned : Nat
  segmentsReplayed : Nat
  txnsReplayed : Nat
  bytesReplayed : Nat
  stoppedAtTime : Option Nat
  stoppedAtTxn : Option Nat
deriving DecidableEq

/-- What `restore_pitr` keeps while it selects. -/
structure Selection where
  included : Bytes
  pending : ExtTreeMap Nat (List Bytes)
  stats : PitrStats
  halted : Bool
  maxGen : Nat

/-- The time of a commit, if it exceeds the target; a commit without a time does not. -/
def PitrTarget.late (target : PitrTarget) (ts : Option Nat) : Option Nat :=
  match target.time, ts with
  | some limit, some ts => if limit < ts then some ts else none
  | _, _ => none

namespace Selection

def start (segments : Nat) : Selection where
  included := []
  pending := ∅
  stats :=
    { segmentsScanned := segments
      segmentsReplayed := 0
      txnsReplayed := 0
      bytesReplayed := 0
      stoppedAtTime := none
      stoppedAtTxn := none }
  halted := false
  maxGen := 0

variable (target : PitrTarget)

def record (s : Selection) (frame : Bytes) : Record → Selection
  | .commit txn ts =>
    if target.txn = some txn then
      { s with
        pending := s.pending.erase txn
        stats := { s.stats with stoppedAtTxn := some txn }
        halted := true }
    else
      match target.late ts with
      | some ts =>
        { s with
          pending := s.pending.erase txn
          stats := { s.stats with stoppedAtTime := some ts }
          halted := true }
      | none =>
        let buf := (s.pending[txn]?.getD []).flatten
        { s with
          pending := s.pending.erase txn
          included := s.included ++ (buf ++ frame)
          stats :=
            { s.stats with
              bytesReplayed := s.stats.bytesReplayed + buf.length + frame.length
              txnsReplayed := s.stats.txnsReplayed + 1 } }
  | r => { s with pending := s.pending.insert r.txnOf (s.pending[r.txnOf]?.getD [] ++ [frame]) }

def frame (s : Selection) (f : Bytes) : Except Error Selection := do
  let r ← decodeWalRange false f
  match r.1 with
  | [rec] => return s.record target f rec
  | _ => throw (.corrupted "pitr: frame holds != 1 record")

def frames (s : Selection) : List Bytes → Except Error Selection
  | [] => .ok s
  | f :: fs => do
    let s ← s.frame target f
    if s.halted then return s else frames s fs

def endSegment (s : Selection) : Selection :=
  if s.halted then s
  else { s with stats := { s.stats with segmentsReplayed := s.stats.segmentsReplayed + 1 } }

def segments (s : Selection) : List Segment → Except Error Selection
  | [] => .ok s
  | seg :: segs =>
    if s.halted then .ok s
    else do
      let payload ← readSegmentPayload seg
      let fs ← splitFrames payload.length payload
      let s ← frames target { s with maxGen := max s.maxGen seg.header.generation } fs
      segments s.endSegment segs

end Selection

/-- The log formats that are supported. -/
def checkVersion (f : Segment) : Except Error Unit :=
  if f.header.walVersion < 3 ∨ 4 < f.header.walVersion then
    .error (.corrupted ("pitr: unsupported WAL version " ++ toString f.header.walVersion ++ " in " ++
      f.name))
  else .ok ()

/-- What `restore_pitr` leaves behind the base backup. -/
structure Restored where
  log : Bytes
  /-- `wal.gen`. -/
  sidecar : Option Nat
  stats : PitrStats

/-- `restore_pitr`, behind the restore of the base backup. -/
def restorePitr (dir : List Segment) (target : PitrTarget) : Except Error Restored := do
  let segs ← listSegments dir
  let _ ← segs.mapM checkVersion
  let s ← (Selection.start segs.length).segments target segs
  return {
    log := header ++ s.included
    sidecar := if segs.isEmpty then none else some (s.maxGen + 1)
    stats := s.stats }

/-- Redo of records over a base, and what `Database::open` does behind it. -/
def reopen (base : Catalog) (rs : List Record) : Except Fault Catalog := do
  let c ← base.applyRecords (redo rs).applied.flatten
  let c ← c.mapTables Table.refreshAutoInc
  c.mapTables Table.fkEnsureAutoIndexes

/-- `Database::open` over a base. -/
def openOver (base : Catalog) (log : Bytes) : Except Fault Catalog := do
  reopen base (← (readAll log).mapError Fault.err)

/-! ## What a target includes -/

def PitrTarget.halts (target : PitrTarget) : Record → Bool
  | .commit txn ts => target.txn = some txn || (target.late ts).isSome
  | _ => false

/-- The records up to the last commit before the first one beyond the target. -/
def PitrTarget.truncated (target : PitrTarget) (rs : List Record) : List Record :=
  (rs.takeWhile fun r => !target.halts r).rdropWhile fun r => !r.isCommit

def stream (segs : List Segment) : Bytes := segs.flatMap Segment.payload

/-- The records of a stream, up to bytes that are none. -/
def readable : Nat → Bytes → List Record
  | 0, _ => []
  | fuel + 1, data =>
    match scanFrames false 1 data with
    | .ok ([r], rest) => r :: readable fuel rest
    | _ => []

def archived (segs : List Segment) : List Record := readable (stream segs).length (stream segs)

/-! ## Frames are read as records -/

structure IsFrame (f : Bytes) : Prop where
  length : f.length = 8 + leValue (f.take 4)
  size : leValue (f.take 4) ≤ 2 ^ 30
  crc : (crc32 (f.drop 8)).toNat = leValue ((f.drop 4).take 4)

variable {f rest data : Bytes} {fuel : Nat} {r : Record}

theorem IsFrame.scan (h : IsFrame f) : scanFrames false (fuel + 1) (f ++ rest) =
    (decodeRecord false).run (f.drop 8) >>= fun x =>
      (scanFrames false fuel rest).map fun (rs, left) => (x.1 :: rs, left) := by
  have hlen := h.length
  have hlen' : (f ++ rest).length = f.length + rest.length := List.length_append
  have htake : (f ++ rest).take 4 = f.take 4 := List.take_append_of_le_length (by omega)
  have hdrop : (f ++ rest).drop 8 = f.drop 8 ++ rest := List.drop_append_of_le_length (by omega)
  have hfour : ((f ++ rest).drop 4).take 4 = (f.drop 4).take 4 := by
    rw [List.drop_append_of_le_length (by omega), List.take_append_of_le_length]
    rw [List.length_drop]
    omega
  have hbody : (f.drop 8).length = leValue (f.take 4) := by
    rw [List.length_drop]
    omega
  rw [scanFrames, htake, hdrop, hfour, ← hbody, List.take_left' rfl, List.drop_left' rfl,
    if_neg (by omega), if_neg (by rw [hbody]; exact Nat.not_lt.2 h.size),
    if_neg (by rw [List.length_append]; omega), if_neg (not_not.2 h.crc)]
  rcases (decodeRecord false).run (f.drop 8) with e | ⟨x, left⟩
  · rfl
  · rfl

structure Scans (f : Bytes) (r : Record) : Prop where
  isFrame : IsFrame f
  payload : ∃ left, (decodeRecord false).run (f.drop 8) = .ok (r, left)

theorem Scans.scan (h : Scans f r) : scanFrames false (fuel + 1) (f ++ rest) =
    (scanFrames false fuel rest).map fun (rs, left) => (r :: rs, left) := by
  obtain ⟨left, hrun⟩ := h.payload
  rw [h.isFrame.scan, hrun]
  rfl

theorem Scans.ne_nil (h : Scans f r) : f ≠ [] := by
  rintro rfl
  have := h.isFrame.length
  rw [List.length_nil] at this
  omega

/-- Frames one after the other are read as their records. -/
theorem scan_flatten : ∀ {fuel : Nat} {fs : List Bytes} {rs : List Record},
    List.Forall₂ Scans fs rs → fs.length ≤ fuel → scanFrames false fuel fs.flatten = .ok (rs, [])
  | 0, fs, rs, h, hfuel => by
    obtain rfl := List.length_eq_zero_iff.1 (Nat.le_zero.1 hfuel)
    cases h
    rfl
  | fuel + 1, [], _, .nil, _ => rfl
  | fuel + 1, f :: fs, r :: rs, .cons hf hfs, hfuel => by
    rw [List.flatten_cons, hf.scan, scan_flatten hfs (Nat.le_of_succ_le_succ hfuel)]
    rfl

variable {fs : List Bytes} {segs : List Segment}

theorem length_le_flatten {rs : List Record} (h : List.Forall₂ Scans fs rs) :
    fs.length ≤ fs.flatten.length := by
  induction h with
  | nil => exact Nat.le_refl _
  | cons hf _ ih =>
    have := List.length_pos_iff.mpr hf.ne_nil
    rw [List.length_cons, List.flatten_cons, List.length_append]
    omega

theorem readAll_frames {rs : List Record} (h : List.Forall₂ Scans fs rs) :
    readAll (header ++ fs.flatten) = .ok rs := by
  have hscan := scan_flatten h (length_le_flatten h)
  have hlen : (header ++ fs.flatten).length = 8 + fs.flatten.length := by
    rw [List.length_append, length_header]
  have htake : (header ++ fs.flatten).take 4 = utf8 "HDBW" := by
    rw [List.take_append_of_le_length (by rw [length_header]; omega)]
    decide +kernel
  have hversion : ((header ++ fs.flatten).drop 4).take 4 = putU32 4 := by
    rw [List.drop_append_of_le_length (by rw [length_header]; omega),
      List.take_append_of_le_length (by rw [List.length_drop, length_header])]
    decide +kernel
  have hvalue : leValue (putU32 4) = 4 := by decide
  have hdrop : (header ++ fs.flatten).drop 8 = fs.flatten := List.drop_left' length_header
  rw [readAll, if_neg (by omega), if_neg (not_not.2 htake),
    if_neg (by rw [List.length_drop]; omega), hversion, hvalue, hdrop]
  simp only [decodeWalRange]
  rw [if_neg (by omega), show (decide (4 < 3)) = false from rfl, hscan]
  rfl

theorem isFrame_take {n : Nat} (hn : leValue (data.take 4) = n) (hsize : n ≤ 2 ^ 30)
    (hwhole : 8 + n ≤ data.length)
    (hcrc : (crc32 ((data.drop 8).take n)).toNat = leValue ((data.drop 4).take 4)) :
    IsFrame (data.take (8 + n)) := by
  have htake : (data.take (8 + n)).take 4 = data.take 4 := by
    rw [List.take_take, Nat.min_eq_left (by omega)]
  have hfour : ((data.take (8 + n)).drop 4).take 4 = (data.drop 4).take 4 := by
    rw [List.drop_take, List.take_take, Nat.min_eq_left (by omega)]
  have hbody : (data.take (8 + n)).drop 8 = (data.drop 8).take n := by
    rw [List.drop_take, Nat.add_sub_cancel_left]
  constructor
  · rw [htake, hn, List.length_take]
    omega
  · rw [htake, hn]
    exact hsize
  · rw [hbody, hfour]
    exact hcrc

/-- What one round of `split_frames` has taken. -/
theorem splitFrames_cases (h : splitFrames (fuel + 1) data = .ok fs) :
    (data = [] ∧ fs = []) ∨ ∃ n fs', 8 + n ≤ data.length ∧ IsFrame (data.take (8 + n)) ∧
      splitFrames fuel (data.drop (8 + n)) = .ok fs' ∧ fs = data.take (8 + n) :: fs' := by
  rw [splitFrames] at h
  split at h
  · next hnil =>
    cases h
    exact .inl ⟨hnil, rfl⟩
  split at h
  · cases h
  next hhead =>
  split at h
  · cases h
  next hsize =>
  split at h
  · cases h
  next hwhole =>
  split at h
  · cases h
  next hcrc =>
  rw [List.length_drop] at hwhole
  cases hrest : splitFrames fuel (data.drop (8 + leValue (data.take 4))) with
  | error e =>
    rw [hrest] at h
    cases h
  | ok fs' =>
    rw [hrest] at h
    cases h
    exact .inr ⟨_, fs', by omega,
      isFrame_take rfl (by omega) (by omega) (not_not.1 hcrc), hrest, rfl⟩

/-- A payload is split into frames, and they are the payload. -/
theorem splitFrames_ok : ∀ {fuel : Nat} {data : Bytes} {fs : List Bytes}, data.length ≤ fuel →
    splitFrames fuel data = .ok fs → (∀ f ∈ fs, IsFrame f) ∧ fs.flatten = data
  | 0, data, fs, hfuel, h => by
    obtain rfl := List.length_eq_zero_iff.1 (Nat.le_zero.1 hfuel)
    cases h
    exact ⟨by simp, rfl⟩
  | fuel + 1, data, fs, hfuel, h => by
    rcases splitFrames_cases h with ⟨rfl, rfl⟩ | ⟨n, fs', hn, hframe, hrest, rfl⟩
    · exact ⟨by simp, rfl⟩
    · obtain ⟨hframes, hflat⟩ := splitFrames_ok (by rw [List.length_drop]; omega) hrest
      refine ⟨List.forall_mem_cons.2 ⟨hframe, hframes⟩, ?_⟩
      rw [List.flatten_cons, hflat, List.take_append_drop]

theorem decodeWalRange_frame (h : IsFrame f) :
    decodeWalRange false f = ((decodeRecord false).run (f.drop 8)).map fun x => ([x.1], []) := by
  obtain ⟨n, hn⟩ : ∃ n, f.length = n + 1 := ⟨7 + leValue (f.take 4), by rw [h.length]; omega⟩
  have hscan := @IsFrame.scan f [] n h
  have hnil : scanFrames false n [] = .ok ([], []) := by cases n <;> rfl
  rw [List.append_nil, hnil] at hscan
  rw [decodeWalRange, hn, hscan]
  cases (decodeRecord false).run (f.drop 8) <;> rfl

/-! ## What is selected -/

/-- The bytes that were taken over are frames whose redo applies what the redo of the records
applies. -/
def Chosen (included : Bytes) (rs : List Record) : Prop :=
  ∃ fs rs', List.Forall₂ Scans fs rs' ∧ included = fs.flatten ∧ (redo rs').pending = ∅ ∧
    (redo rs').applied = (redo rs).applied

/-- For each transaction the frames of the records that redo buffers are buffered. -/
def Buffers (pending : ExtTreeMap Nat (List Bytes)) (rs : List Record) : Prop :=
  ∀ txn : Nat, List.Forall₂ Scans (pending[txn]?.getD []) ((redo rs).pending[txn]?.getD [])

variable {target : PitrTarget} {s s' : Selection} {rs rs' : List Record} {txn : Nat}
  {ts : Option Nat} {pending : ExtTreeMap Nat (List Bytes)} {included : Bytes}

theorem redo_snoc (rs : List Record) (r : Record) : redo (rs ++ [r]) = (redo rs).step r :=
  redo_append rs [r]

theorem eq_commit (h : r.isCommit = true) : ∃ txn ts, r = .commit txn ts := by
  cases r with
  | commit txn ts => exact ⟨txn, ts, rfl⟩
  | _ => cases h

theorem step_record (x : Redo) (h : r.isCommit = false) : x.step r =
    { x with pending := x.pending.insert r.txnOf (x.pending[r.txnOf]?.getD [] ++ [r]) } := by
  cases r <;> first | rfl | cases h

theorem record_buffered (h : r.isCommit = false) : s.record target f r =
    { s with pending := s.pending.insert r.txnOf (s.pending[r.txnOf]?.getD [] ++ [f]) } := by
  cases r <;> first | rfl | cases h

/-- What redo buffers are records of the transaction, and at least one. -/
theorem redo_pending (rs : List Record) (txn : Nat) :
    ∀ batch, (redo rs).pending[txn]? = some batch →
      batch ≠ [] ∧ ∀ r ∈ batch, r.txnOf = txn ∧ r.isCommit = false := by
  induction rs using List.reverseRecOn with
  | nil =>
    intro batch h
    rw [redo, Redo.run, List.foldl_nil, Redo.start, ExtTreeMap.getElem?_empty] at h
    cases h
  | append_singleton rs r ih =>
    intro batch h
    rw [redo_snoc] at h
    cases hr : r.isCommit with
    | true =>
      obtain ⟨t, ts, rfl⟩ := eq_commit hr
      rw [Redo.step] at h
      split at h
      · rw [ExtTreeMap.getElem?_erase] at h
        split at h
        · cases h
        · exact ih batch h
      · exact ih batch h
    | false =>
      rw [step_record _ hr, ExtTreeMap.getElem?_insert] at h
      split at h
      · next heq =>
        obtain rfl := Std.compare_eq_iff_eq.1 heq
        cases h
        refine ⟨List.append_ne_nil_of_right_ne_nil _ (List.cons_ne_nil _ _), ?_⟩
        intro x hx
        rcases List.mem_append.1 hx with hx | hx
        · cases hbuf : (redo rs).pending[r.txnOf]? with
          | none =>
            rw [hbuf] at hx
            cases hx
          | some old =>
            rw [hbuf] at hx
            exact (ih old hbuf).2 x hx
        · rw [List.mem_singleton.1 hx]
          exact ⟨rfl, hr⟩
      · exact ih batch h

/-- Records that are not commits are buffered on both sides. -/
theorem Buffers.record (h : Buffers s.pending rs) (hf : Scans f r) (hr : r.isCommit = false) :
    Buffers (s.record target f r).pending (rs ++ [r]) := by
  intro txn
  rw [redo_snoc, step_record _ hr, record_buffered hr]
  show List.Forall₂ Scans
    ((s.pending.insert r.txnOf (s.pending[r.txnOf]?.getD [] ++ [f]))[txn]?.getD [])
    (((redo rs).pending.insert r.txnOf ((redo rs).pending[r.txnOf]?.getD [] ++ [r]))[txn]?.getD [])
  rw [ExtTreeMap.getElem?_insert, ExtTreeMap.getElem?_insert]
  split
  · exact List.rel_append (h r.txnOf) (.cons hf .nil)
  · exact h txn

/-- At a commit the transaction is taken from both buffers. -/
theorem Buffers.commit (h : Buffers pending rs) :
    Buffers (pending.erase txn) (rs ++ [.commit txn ts]) := by
  intro txn'
  have hstep : (redo (rs ++ [.commit txn ts])).pending[txn']?.getD [] =
      ((redo rs).pending.erase txn)[txn']?.getD [] := by
    rw [redo_snoc, Redo.step, ExtTreeMap.getElem?_erase]
    cases hbatch : (redo rs).pending[txn]? with
    | some batch => rw [ExtTreeMap.getElem?_erase]
    | none =>
      show (redo rs).pending[txn']?.getD [] = _
      split
      · next heq => rw [← Std.compare_eq_iff_eq.1 heq, hbatch]
      · rfl
  rw [hstep, ExtTreeMap.getElem?_erase, ExtTreeMap.getElem?_erase]
  split
  · exact .nil
  · exact h txn'

/-- A record that is not a commit changes nothing of what is applied. -/
theorem Chosen.record (h : Chosen included rs) (hr : r.isCommit = false) :
    Chosen included (rs ++ [r]) := by
  obtain ⟨fs, rs', hscans, hincluded, hpending, happlied⟩ := h
  refine ⟨fs, rs', hscans, hincluded, hpending, ?_⟩
  rw [redo_snoc, step_record _ hr, happlied]

/-- The buffered frames and the commit are redone as the batch that redo applies there. -/
theorem Chosen.commit (h : Chosen included rs) (hbuf : Buffers pending rs)
    (hf : Scans f (.commit txn ts)) :
    Chosen (included ++ ((pending[txn]?.getD []).flatten ++ f)) (rs ++ [.commit txn ts]) := by
  obtain ⟨fs, rs', hscans, rfl, hpending, happlied⟩ := h
  have hnone : (redo rs').pending[txn]? = none := by
    rw [hpending, ExtTreeMap.getElem?_empty]
  refine ⟨fs ++ (pending[txn]?.getD [] ++ [f]),
    rs' ++ ((redo rs).pending[txn]?.getD [] ++ [.commit txn ts]), ?_, ?_, ?_⟩
  · exact List.rel_append hscans (List.rel_append (hbuf txn) (.cons hf .nil))
  · rw [List.flatten_append, List.flatten_append, List.flatten_singleton]
  · rw [redo_append, redo_snoc]
    cases hbatch : (redo rs).pending[txn]? with
    | none =>
      have hsame : (redo rs').run [.commit txn ts] = redo rs' := by
        show (redo rs').step (.commit txn ts) = redo rs'
        rw [Redo.step, hnone]
      have hstep : (redo rs).step (.commit txn ts) = redo rs := by
        rw [Redo.step, hbatch]
      rw [Option.getD_none, List.nil_append, hsame, hstep]
      exact ⟨hpending, happlied⟩
    | some batch =>
      obtain ⟨hne, hbatch'⟩ := redo_pending rs txn batch hbatch
      have hstep : ((redo rs).step (.commit txn ts)).applied = (redo rs).applied ++ [batch] := by
        rw [Redo.step, hbatch]
      rw [Option.getD_some, Redo.run_txn hnone hne hbatch', hstep, happlied,
        Redo.pending_run_txn hnone hne hbatch']
      exact ⟨hpending, rfl⟩

/-! ## The loops -/

/-- The selection after the records `rs`, whose frames are `data`. -/
structure Progress (target : PitrTarget) (data : Bytes) (rs : List Record) (s : Selection) :
    Prop where
  frames : ∃ fs, List.Forall₂ Scans fs rs ∧ fs.flatten = data
  chosen : Chosen s.included (rs.takeWhile fun r => !target.halts r)
  live : s.halted = false → (∀ r ∈ rs, target.halts r = false) ∧ Buffers s.pending rs
  halt : s.halted = true → ∃ rs' r, rs = rs' ++ [r] ∧ target.halts r = true ∧
    ∀ r ∈ rs', target.halts r = false

theorem halts_record (h : r.isCommit = false) : target.halts r = false := by
  cases r <;> first | rfl | cases h

theorem takeWhile_all {p : Record → Bool} (h : ∀ r ∈ rs, p r = true) : rs.takeWhile p = rs :=
  List.takeWhile_eq_self_iff.2 h

/-- A commit beyond the target halts the selection, and nothing is taken over. -/
theorem record_halts (h : target.halts (.commit txn ts) = true) :
    (s.record target f (.commit txn ts)).included = s.included ∧
      (s.record target f (.commit txn ts)).halted = true := by
  rw [Selection.record]
  split
  · exact ⟨rfl, rfl⟩
  · next htxn =>
    cases hlate : target.late ts with
    | some t => exact ⟨rfl, rfl⟩
    | none =>
      rw [PitrTarget.halts, hlate] at h
      simp [htxn] at h

/-- Any other commit takes its transaction over. -/
theorem record_commits (h : target.halts (.commit txn ts) = false) :
    (s.record target f (.commit txn ts)).included =
        s.included ++ ((s.pending[txn]?.getD []).flatten ++ f) ∧
      (s.record target f (.commit txn ts)).pending = s.pending.erase txn ∧
      (s.record target f (.commit txn ts)).halted = s.halted := by
  rw [PitrTarget.halts, Bool.or_eq_false_iff, decide_eq_false_iff_not] at h
  obtain ⟨htxn, hlate⟩ := h
  rw [Option.isSome_eq_false_iff, Option.isNone_iff_eq_none] at hlate
  rw [Selection.record, if_neg htxn, hlate]
  exact ⟨rfl, rfl, rfl⟩

/-- One record of a selection that goes on. -/
theorem Progress.record (h : Progress target data rs s) (hlive : s.halted = false)
    (hf : Scans f r) : Progress target (data ++ f) (rs ++ [r]) (s.record target f r) := by
  obtain ⟨fs, hscans, hdata⟩ := h.frames
  obtain ⟨hnone, hbuf⟩ := h.live hlive
  have hchosen := h.chosen
  rw [takeWhile_all fun r hr => by rw [hnone r hr]; rfl] at hchosen
  have hframes : ∃ fs, List.Forall₂ Scans fs (rs ++ [r]) ∧ fs.flatten = data ++ f :=
    ⟨fs ++ [f], List.rel_append hscans (.cons hf .nil), by
      rw [List.flatten_append, hdata, List.flatten_singleton]⟩
  cases hhalts : target.halts r with
  | true =>
    have htake : (rs ++ [r]).takeWhile (fun r => !target.halts r) = rs := by
      rw [List.takeWhile_append_of_pos fun r hr => by rw [hnone r hr]; rfl]
      simp [hhalts]
    have hcommit : r.isCommit = true := by
      cases hr : r.isCommit with
      | true => rfl
      | false =>
        rw [halts_record hr] at hhalts
        cases hhalts
    obtain ⟨txn, ts, rfl⟩ := eq_commit hcommit
    obtain ⟨hincluded, hhalted⟩ := record_halts (s := s) (f := f) hhalts
    refine ⟨hframes, ?_, fun hno => ?_, fun _ => ⟨rs, _, rfl, hhalts, hnone⟩⟩
    · rw [htake, hincluded]
      exact hchosen
    · rw [hhalted] at hno
      cases hno
  | false =>
    have hall : ∀ x ∈ rs ++ [r], target.halts x = false := by
      intro x hx
      rcases List.mem_append.1 hx with hx | hx
      · exact hnone x hx
      · rw [List.mem_singleton.1 hx, hhalts]
    have htake := takeWhile_all (p := fun r => !target.halts r)
      fun x hx => by rw [hall x hx]; rfl
    cases hr : r.isCommit with
    | false =>
      have hhalted : (s.record target f r).halted = false := by
        rw [record_buffered hr]
        exact hlive
      refine ⟨hframes, ?_, fun _ => ⟨hall, hbuf.record hf hr⟩, fun hyes => ?_⟩
      · rw [htake, record_buffered hr]
        exact hchosen.record hr
      · rw [hhalted] at hyes
        cases hyes
    | true =>
      obtain ⟨txn, ts, rfl⟩ := eq_commit hr
      obtain ⟨hincluded, hpending, hhalted⟩ := record_commits (s := s) (f := f) hhalts
      refine ⟨hframes, ?_, fun _ => ⟨hall, ?_⟩, fun hyes => ?_⟩
      · rw [htake, hincluded]
        exact hchosen.commit hbuf hf
      · rw [hpending]
        exact hbuf.commit
      · rw [hhalted, hlive] at hyes
        cases hyes

theorem frame_ok (hf : IsFrame f) (h : s.frame target f = .ok s') :
    ∃ r, Scans f r ∧ s' = s.record target f r := by
  rw [Selection.frame, decodeWalRange_frame hf] at h
  cases hrun : (decodeRecord false).run (f.drop 8) with
  | error e =>
    rw [hrun] at h
    cases h
  | ok x =>
    rw [hrun] at h
    cases h
    exact ⟨x.1, ⟨hf, x.2, hrun⟩, rfl⟩

/-- What the loops look at besides. -/
theorem Progress.congr (h : Progress target data rs s) (hincluded : s'.included = s.included)
    (hpending : s'.pending = s.pending) (hhalted : s'.halted = s.halted) :
    Progress target data rs s' where
  frames := h.frames
  chosen := by
    rw [hincluded]
    exact h.chosen
  live := by
    rw [hpending, hhalted]
    exact h.live
  halt := by
    rw [hhalted]
    exact h.halt

/-- What was read is a beginning of what is there, and all of it unless the selection has
halted. -/
def Through (target : PitrTarget) (all : Bytes) (s : Selection) : Prop :=
  ∃ data rs, Progress target data rs s ∧ data <+: all ∧ (s.halted = false → data = all)

theorem Progress.frames_run : ∀ {fs : List Bytes} {s : Selection} {data : Bytes} {rs : List Record},
    Progress target data rs s → s.halted = false → (∀ f ∈ fs, IsFrame f) →
    s.frames target fs = .ok s' → Through target (data ++ fs.flatten) s'
  | [], s, data, rs, h, _, _, hrun => by
    cases hrun
    rw [List.flatten_nil, List.append_nil]
    exact ⟨data, rs, h, List.prefix_refl _, fun _ => rfl⟩
  | f :: fs, s, data, rs, h, hlive, hframes, hrun => by
    obtain ⟨hf, hfs⟩ := List.forall_mem_cons.1 hframes
    rw [Selection.frames] at hrun
    obtain ⟨s₁, hs₁, hrun⟩ := bind_ok hrun
    obtain ⟨r, hscans, rfl⟩ := frame_ok hf hs₁
    have hstep := h.record hlive hscans
    rw [List.flatten_cons, ← List.append_assoc]
    cases hhalted : (s.record target f r).halted with
    | true =>
      rw [if_pos hhalted] at hrun
      cases hrun
      refine ⟨_, _, hstep, List.prefix_append _ _, fun hno => ?_⟩
      rw [hhalted] at hno
      cases hno
    | false =>
      rw [if_neg (by rw [hhalted]; exact Bool.false_ne_true)] at hrun
      exact hstep.frames_run hhalted hfs hrun

theorem Through.congr {all : Bytes} (h : Through target all s)
    (hincluded : s'.included = s.included) (hpending : s'.pending = s.pending)
    (hhalted : s'.halted = s.halted) :
    Through target all s' := by
  obtain ⟨data, rs, hprogress, hprefix, hall⟩ := h
  refine ⟨data, rs, hprogress.congr hincluded hpending hhalted, hprefix, ?_⟩
  rw [hhalted]
  exact hall

theorem Through.endSegment {all : Bytes} (h : Through target all s) :
    Through target all s.endSegment := by
  rw [Selection.endSegment]
  split
  · exact h
  · exact h.congr rfl rfl rfl

theorem readSegmentPayload_ok {seg : Segment} {payload : Bytes}
    (h : readSegmentPayload seg = .ok payload) : payload = seg.payload := by
  rw [readSegmentPayload] at h
  split at h
  · cases h
  · exact (Except.ok.inj h).symm

theorem Through.segments : ∀ {segs : List Segment} {s : Selection} {all : Bytes},
    Through target all s → s.segments target segs = .ok s' →
      Through target (all ++ stream segs) s'
  | [], s, all, h, hrun => by
    cases hrun
    rw [stream, List.flatMap_nil, List.append_nil]
    exact h
  | seg :: segs, s, all, h, hrun => by
    rw [Selection.segments] at hrun
    obtain ⟨data, rs, hprogress, hprefix, hall⟩ := h
    cases hhalted : s.halted with
    | true =>
      rw [if_pos hhalted] at hrun
      cases hrun
      refine ⟨data, rs, hprogress, hprefix.trans (List.prefix_append _ _), fun hno => ?_⟩
      rw [hhalted] at hno
      cases hno
    | false =>
      rw [if_neg (by rw [hhalted]; exact Bool.false_ne_true)] at hrun
      obtain ⟨payload, hpayload, hread⟩ := bind_ok hrun
      obtain rfl := readSegmentPayload_ok hpayload
      obtain ⟨fs, hfs, hsplit⟩ := bind_ok hread
      obtain ⟨s₁, hs₁, hloop⟩ := bind_ok hsplit
      obtain ⟨hframes, hflat⟩ := splitFrames_ok (Nat.le_refl _) hfs
      let s₀ := { s with maxGen := max s.maxGen seg.header.generation }
      have hstart : Progress target data rs s₀ := hprogress.congr rfl rfl rfl
      have hthrough := hstart.frames_run hhalted hframes hs₁
      rw [hall hhalted, hflat] at hthrough
      have hrest := hthrough.endSegment.segments hloop
      rwa [List.append_assoc] at hrest

/-- Before the first segment. -/
theorem through_start (target : PitrTarget) (n : Nat) : Through target [] (Selection.start n) := by
  refine ⟨[], [], ⟨⟨[], .nil, rfl⟩, ⟨[], [], .nil, rfl, rfl, rfl⟩, fun _ => ⟨by simp, ?_⟩, ?_⟩,
    List.prefix_refl _, fun _ => rfl⟩
  · intro txn
    have hnone : (Selection.start n).pending[txn]? = none := ExtTreeMap.getElem?_empty
    have hnone' : (redo []).pending[txn]? = none := ExtTreeMap.getElem?_empty
    rw [hnone, hnone']
    exact .nil
  · intro h
    cases h

/-! ## The archived records -/

theorem Scans.readable (h : Scans f r) :
    Archive.readable (fuel + 1) (f ++ rest) = r :: Archive.readable fuel rest := by
  have hscan : scanFrames false 1 (f ++ rest) = .ok ([r], rest) := h.scan
  rw [Archive.readable, hscan]

theorem readable_flatten : ∀ {fs : List Bytes} {rs : List Record} {fuel : Nat},
    List.Forall₂ Scans fs rs → fs.length ≤ fuel →
      readable fuel (fs.flatten ++ rest) = rs ++ readable (fuel - fs.length) rest
  | [], _, fuel, .nil, _ => rfl
  | f :: fs, r :: rs, fuel + 1, .cons hf hfs, hfuel => by
    have hle := Nat.le_of_succ_le_succ hfuel
    rw [List.flatten_cons, List.append_assoc, hf.readable, readable_flatten hfs hle,
      List.length_cons, Nat.add_sub_add_right]
    rfl

theorem readable_nil (fuel : Nat) : readable fuel [] = [] := by
  cases fuel <;> rfl

/-- The records before the first commit beyond the target are the same in what was read and
in all that is archived. -/
theorem Through.takeWhile (h : Through target (stream segs) s) :
    Chosen s.included ((archived segs).takeWhile fun r => !target.halts r) := by
  obtain ⟨data, rs, hprogress, ⟨more, hmore⟩, hall⟩ := h
  obtain ⟨fs, hscans, rfl⟩ := hprogress.frames
  have hlen := length_le_flatten hscans
  have harchived : archived segs = rs ++ readable ((stream segs).length - fs.length) more := by
    have hfuel : fs.length ≤ (stream segs).length := by
      rw [← hmore, List.length_append]
      omega
    have hread := @readable_flatten more _ _ _ hscans hfuel
    rwa [hmore] at hread
  have hsame : (archived segs).takeWhile (fun r => !target.halts r) =
      rs.takeWhile fun r => !target.halts r := by
    cases hhalted : s.halted with
    | false =>
      have hnil : more = [] := by
        rw [hall hhalted] at hmore
        exact List.append_right_eq_self.1 hmore
      rw [harchived, hnil, readable_nil, List.append_nil]
    | true =>
      obtain ⟨rs', r, rfl, hr, hrs'⟩ := hprogress.halt hhalted
      have hpos : ∀ x ∈ rs', (!target.halts x) = true := fun x hx => by rw [hrs' x hx]; rfl
      rw [harchived, List.append_assoc, List.takeWhile_append_of_pos hpos,
        List.takeWhile_append_of_pos hpos]
      simp [hr]
  rw [hsame]
  exact hprogress.chosen

/-- What is behind the last commit is not applied. -/
theorem applied_rdropWhile (rs : List Record) :
    (redo (rs.rdropWhile fun r => !r.isCommit)).applied = (redo rs).applied := by
  induction rs using List.reverseRecOn with
  | nil => rfl
  | append_singleton rs r ih =>
    rw [List.rdropWhile_concat]
    cases hr : r.isCommit with
    | true => rfl
    | false => rw [if_pos (show (!false) = true from rfl), ih, redo_snoc, step_record _ hr]

/-! ## Readable segments -/

/-- A segment that is listed has the size that its header says. -/
theorem collect_check : ∀ {n : Nat} {dir segs : List Segment}, collect n dir = .ok segs →
    ∀ f ∈ segs, f.check = .ok ()
  | _, [], segs, h => by
    cases h
    simp
  | n, f :: dir, segs, h => by
    rw [collect] at h
    split at h
    · obtain ⟨_, hcheck, hcount⟩ := bind_ok h
      split at hcount
      · cases hcount
      · obtain ⟨rest, hrest, hcons⟩ := bind_ok hcount
        cases hcons
        exact List.forall_mem_cons.2 ⟨hcheck, collect_check hrest⟩
    · exact collect_check h

theorem check_size {f : Segment} (h : f.check = .ok ()) :
    f.payload.length = f.header.payloadLen := by
  rw [Segment.check] at h
  split at h
  · cases h
  split at h
  · cases h
  split at h
  · cases h
  split at h
  · cases h
  next hsize => exact not_not.1 hsize

theorem listSegments_size {dir : List Segment} (h : listSegments dir = .ok segs) :
    ∀ f ∈ segs, f.payload.length = f.header.payloadLen := by
  rw [listSegments] at h
  obtain ⟨out, hout, hrest⟩ := bind_ok h
  obtain ⟨_, _, hsegs⟩ := bind_ok hrest
  cases hsegs
  intro f hf
  exact check_size (collect_check hout f ((List.mem_insertionSort _).1 hf))

/-- What a scan reads to its end is split into the frames of its records. -/
theorem splitFrames_scan : ∀ {fuel : Nat} {data : Bytes} {rs : List Record},
    data.length ≤ fuel → scanFrames false fuel data = .ok (rs, []) →
    ∃ fs, splitFrames fuel data = .ok fs ∧ List.Forall₂ Scans fs rs
  | 0, data, rs, _, h => by
    cases h
    exact ⟨[], rfl, .nil⟩
  | fuel + 1, data, rs, hfuel, h => by
    rw [scanFrames] at h
    split at h
    · next hshort =>
      cases h
      exact ⟨[], by rw [splitFrames, if_pos rfl], .nil⟩
    next hhead =>
    split at h
    · cases h
    next hsize =>
    split at h
    · next hwhole =>
      cases h
      simp at hhead
    next hwhole =>
    split at h
    · cases h
    next hcrc =>
    have hne : data ≠ [] := by
      rintro rfl
      simp at hhead
    have hlen : (data.drop 8).length = data.length - 8 := List.length_drop
    have hframe := isFrame_take rfl (Nat.le_of_not_lt hsize) (by omega)
      (not_not.1 hcrc)
    have hbody : (data.take (8 + leValue (data.take 4))).drop 8 =
        (data.drop 8).take (leValue (data.take 4)) := by
      rw [List.drop_take, Nat.add_sub_cancel_left]
    cases hrun : (decodeRecord false).run ((data.drop 8).take (leValue (data.take 4))) with
    | error e =>
      rw [hrun] at h
      cases h
    | ok x =>
      rw [hrun] at h
      cases hrest : scanFrames false fuel ((data.drop 8).drop (leValue (data.take 4))) with
      | error e =>
        simp only [hrest] at h
        cases h
      | ok y =>
        obtain ⟨rs', left⟩ := y
        simp only [hrest] at h
        cases h
        rw [List.drop_drop] at hrest
        obtain ⟨fs, hfs, hscans⟩ := splitFrames_scan
          (by rw [List.length_drop]; omega) hrest
        refine ⟨_, ?_, .cons ⟨hframe, x.2, by rw [hbody]; exact hrun⟩ hscans⟩
        rw [splitFrames, if_neg hne, if_neg hhead, if_neg hsize, if_neg hwhole, if_neg hcrc,
          hfs]
        rfl

theorem frame_scans (h : Scans f r) : s.frame target f = .ok (s.record target f r) := by
  obtain ⟨left, hrun⟩ := h.payload
  rw [Selection.frame, decodeWalRange_frame h.isFrame, hrun]
  rfl

theorem frames_scans : ∀ {fs : List Bytes} {rs : List Record} (s : Selection),
    List.Forall₂ Scans fs rs → ∃ s', s.frames target fs = .ok s'
  | [], _, s, _ => ⟨s, rfl⟩
  | f :: fs, r :: rs, s, .cons hf hfs => by
    rw [Selection.frames, frame_scans hf]
    show ∃ s', (if (s.record target f r).halted then _ else _) = _
    split
    · exact ⟨_, rfl⟩
    · exact frames_scans _ hfs

/-- The planner fails on no segment that is records to its end. -/
theorem segments_scan : ∀ {segs : List Segment} (s : Selection),
    (∀ f ∈ segs, f.payload.length = f.header.payloadLen ∧
      ∃ rs, decodeWalRange false f.payload = .ok (rs, [])) →
    ∃ s', s.segments target segs = .ok s'
  | [], s, _ => ⟨s, rfl⟩
  | seg :: segs, s, h => by
    obtain ⟨⟨hsize, rs, hrs⟩, hsegs⟩ := List.forall_mem_cons.1 h
    obtain ⟨fs, hfs, hscans⟩ := splitFrames_scan (Nat.le_refl _) hrs
    obtain ⟨s₁, hs₁⟩ := frames_scans
      { s with maxGen := max s.maxGen seg.header.generation } hscans
    rw [Selection.segments, readSegmentPayload, if_neg (not_not.2 hsize)]
    split
    · exact ⟨s, rfl⟩
    · obtain ⟨s₂, hs₂⟩ := segments_scan s₁.endSegment hsegs
      refine ⟨s₂, ?_⟩
      rw [← hs₂]
      show (splitFrames seg.payload.length seg.payload >>= fun fs => _) = _
      rw [hfs]
      show (Selection.frames target _ fs >>= fun s => _) = _
      rw [hs₁]
      rfl

theorem mapM_check : ∀ {segs : List Segment}, (∀ f ∈ segs, checkVersion f = .ok ()) →
    ∃ us, segs.mapM checkVersion = .ok us
  | [], _ => ⟨[], rfl⟩
  | f :: segs, h => by
    obtain ⟨hf, hsegs⟩ := List.forall_mem_cons.1 h
    obtain ⟨us, hus⟩ := mapM_check hsegs
    refine ⟨() :: us, ?_⟩
    rw [List.mapM_cons, hf, hus]
    rfl

/-! ## Recovery is exact -/

/-- Redo of what was taken over reaches the state of the archived records up to the last
commit that the target includes. -/
theorem openOver_sealed (base : Catalog)
    (h : Chosen included ((archived segs).takeWhile fun r => !target.halts r)) :
    openOver base (header ++ included) = reopen base (target.truncated (archived segs)) := by
  obtain ⟨fs, rs, hscans, rfl, -, happlied⟩ := h
  rw [openOver, readAll_frames hscans]
  show reopen base rs = _
  rw [reopen, reopen, PitrTarget.truncated, applied_rdropWhile, happlied]

/-- Of a directory that is listed, whose segments are records to their ends in a format that
is supported, a recovery is made.  Whenever one is made, its log reaches, over any base,
the state of the archived records up to the last commit that the target includes. -/
theorem restore_is_exact {dir segs : List Segment} (hlist : listSegments dir = .ok segs)
    (target : PitrTarget) :
    ((∀ f ∈ segs, checkVersion f = .ok () ∧ ∃ rs, decodeWalRange false f.payload = .ok (rs, [])) →
      ∃ restored, restorePitr dir target = .ok restored) ∧
    ∀ restored, restorePitr dir target = .ok restored → ∀ base,
      openOver base restored.log = reopen base (target.truncated (archived segs)) := by
  rw [restorePitr, hlist]
  constructor
  · intro hreadable
    obtain ⟨us, hus⟩ := mapM_check fun f hf => (hreadable f hf).1
    obtain ⟨s, hs⟩ := segments_scan (Selection.start segs.length) fun f hf =>
      ⟨listSegments_size hlist f hf, (hreadable f hf).2⟩
    refine ⟨{
      log := header ++ s.included
      sidecar := if segs.isEmpty then none else some (s.maxGen + 1)
      stats := s.stats }, ?_⟩
    show (segs.mapM checkVersion >>= fun _ => _) = _
    rw [hus]
    show ((Selection.start segs.length).segments target segs >>= fun s => _) = _
    rw [hs]
    rfl
  · intro restored hrestored base
    obtain ⟨segs', hsegs', hrest⟩ := bind_ok hrestored
    cases hsegs'
    obtain ⟨us, hus, hselect⟩ := bind_ok hrest
    obtain ⟨s, hs, hrestored'⟩ := bind_ok hselect
    cases hrestored'
    have hthrough := (through_start target segs.length).segments hs
    rw [List.nil_append] at hthrough
    exact openOver_sealed base hthrough.takeWhile

theorem scans_frame (h : Reread r) : Scans (frame r) r := by
  have hfour : ∀ n, (putU32 n).length = 4 := length_leBytes 4
  have hsize : (encodePayload r).length < 2 ^ 32 := by
    have := h.size
    omega
  have hlen : leValue ((frame r).take 4) = (encodePayload r).length := by
    have hfield := leValue_take_frame (r := r) [] hsize (n := (frame r).length)
      (by rw [length_frame]; omega)
    rwa [List.append_nil, List.take_length] at hfield
  have hcrc : ((frame r).drop 4).take 4 = putU32 (crc32 (encodePayload r)).toNat := by
    rw [frame, List.drop_left' (hfour _), List.take_left' (hfour _)]
  have hbody : (frame r).drop 8 = encodePayload r := by
    rw [frame, ← List.append_assoc]
    exact List.drop_left' (by rw [List.length_append, hfour, hfour])
  refine ⟨⟨by rw [length_frame, hlen], by rw [hlen]; exact h.size, ?_⟩, [],
    by rw [hbody]; exact h.payload⟩
  rw [hbody, hcrc]
  exact (leValue_leBytes (UInt32.toNat_lt _)).symm

theorem scans_frames {rs : List Record} (h : ∀ r ∈ rs, Reread r) :
    List.Forall₂ Scans (rs.map frame) rs := by
  rw [List.forall₂_map_left_iff, List.forall₂_same]
  exact fun r hr => scans_frame (h r hr)

theorem decode_frames {rs : List Record} (h : ∀ r ∈ rs, Reread r) :
    decodeWalRange false (Wal.frames rs) = .ok (rs, []) := by
  have hscans := scans_frames h
  have hflat : (rs.map frame).flatten = Wal.frames rs := List.flatMap_def.symm
  have hscan := scan_flatten hscans (length_le_flatten hscans)
  rwa [hflat] at hscan

/-- Payloads of frames are read as the records of the frames. -/
theorem archived_frames {rs : List Record} (h : ∀ r ∈ rs, Reread r)
    (hstream : stream segs = Wal.frames rs) : archived segs = rs := by
  have hscans := scans_frames h
  have hflat : (rs.map frame).flatten = Wal.frames rs := List.flatMap_def.symm
  have hread := @readable_flatten [] _ _ _ hscans (length_le_flatten hscans)
  rwa [List.append_nil, hflat, readable_nil, List.append_nil, ← hstream] at hread

/-- The records of two transactions, of which one commits at second 5 and the other at
second 9. -/
def twoCommits : List Record :=
  [.createDatabase 1 "a", .commit 1 (some 5), .createDatabase 2 "b", .commit 2 (some 9)]

theorem twoCommits_reread : ∀ r ∈ twoCommits, Reread r := by
  have hkept : ∀ r ∈ twoCommits, recordKept r = true := by decide +kernel
  exact fun r hr => (kept_of_recordKept (hkept r hr)).reread

def firstSegment : Segment where
  header :=
    { walVersion := 4
      generation := 0
      index := 1
      startOffset := headerLen
      endOffset := 77
      startTs := 5
      endTs := 5 }
  payload := Wal.frames (twoCommits.take 3)

/-- The next generation has the last commit. -/
def secondSegment : Segment where
  header :=
    { walVersion := 4
      generation := 1
      index := 2
      startOffset := headerLen
      endOffset := 33
      startTs := 9
      endTs := 9 }
  payload := Wal.frames (twoCommits.drop 3)

theorem segments_listed :
    listSegments [firstSegment, secondSegment] = .ok [firstSegment, secondSegment] := by
  have hfirst : Fits firstSegment :=
    { named := by decide
      short := by decide
      sized := by decide +kernel }
  have hsecond : Fits secondSegment :=
    { named := by decide
      short := by decide
      sized := by decide +kernel }
  have hsound : Sound [firstSegment] 0 77 :=
    (Sound.empty 0).snoc (f := firstSegment) hfirst rfl rfl rfl (by decide)
  have hboth : Sound [firstSegment, secondSegment] 1 33 :=
    (hsound.later (by decide)).snoc (f := secondSegment) hsecond rfl rfl rfl (by decide)
  exact hboth.listSegments (by decide)

/-- Recovery to second 5 is made, and leaves the second transaction out. -/
theorem restore_to_second_five :
    ∃ restored, restorePitr [firstSegment, secondSegment] ⟨some 5, none⟩ = .ok restored ∧
      ∀ base, openOver base restored.log =
        reopen base [.createDatabase 1 "a", .commit 1 (some 5)] := by
  obtain ⟨hmade, hexact⟩ := restore_is_exact segments_listed ⟨some 5, none⟩
  have harchived : archived [firstSegment, secondSegment] = twoCommits :=
    archived_frames twoCommits_reread rfl
  obtain ⟨restored, hrestored⟩ := hmade fun f hf => by
    rcases List.mem_pair.1 hf with rfl | rfl
    · exact ⟨by decide, _, decode_frames fun r hr => twoCommits_reread r (List.mem_of_mem_take hr)⟩
    · exact ⟨by decide, _, decode_frames fun r hr => twoCommits_reread r (List.mem_of_mem_drop hr)⟩
  refine ⟨restored, hrestored, fun base => ?_⟩
  rw [hexact restored hrestored base, harchived]
  rfl

end HenchDB.Archive
