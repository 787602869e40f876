import HenchDB.Replication.Protocol

/-!
# The transfer of a snapshot

`send_snapshot` announces the length of an image, sends it in chunks, and ends it.  The
replica puts the chunks together and hands the image on, with the offset and the
generation that were announced, if its length is the announced one and its generation
not older than the one before.

A chunk is far below the limit of a frame, so every image can be sent
(`writeFrames_snapshot`).  The replica however holds the announced length itself
against that limit: an image arrives just if it is no longer than one frame may be
(`snapshot_arrives_iff`).
-/

namespace HenchDB.Protocol

open Codec Arrival

/-! ## The primary -/

def snapChunkBytes : Nat := 256 * 1024

/-- `slice::chunks` of `SNAP_CHUNK_BYTES`. -/
def snapChunks (image : Bytes) : List Bytes :=
  if image = [] then [] else image.take snapChunkBytes :: snapChunks (image.drop snapChunkBytes)
termination_by image.length
decreasing_by
  rename_i h
  have hpos := List.length_pos_iff.mpr h
  rw [List.length_drop, snapChunkBytes]
  omega

/-- The frames of `send_snapshot`. -/
def snapshotFrames (image : Bytes) (endOffset generation : UInt64) : List Frame :=
  .snapshotBegin (UInt64.ofNat image.length) endOffset generation ::
    ((snapChunks image).map Frame.snapshotChunk ++ [.snapshotEnd])

/-! ## The replica -/

structure SnapshotAsm where
  buf : Bytes
  totalBytes : UInt64
  endOffset : UInt64
  generation : UInt64

def noGeneration : UInt64 := 0xFFFFFFFFFFFFFFFF

/-- A connection of the replica. -/
structure Link (δ : Type) where
  /-- The database, as `apply_snapshot` changes it. -/
  db : δ
  snap : Option SnapshotAsm
  generation : UInt64
  applied : UInt64
  resumeHost : Option String
  promoted : Bool
  /-- Ghost: the calls of `apply_snapshot`. -/
  calls : List (Bytes × UInt64 × UInt64)

variable {δ : Type}

namespace Link

def Older (r : Link δ) (primary : String) (generation : UInt64) : Prop :=
  r.resumeHost = some primary ∧ r.generation ≠ noGeneration ∧ generation < r.generation

instance (r : Link δ) (primary : String) (generation : UInt64) :
    Decidable (r.Older primary generation) :=
  inferInstanceAs (Decidable (_ ∧ _))

section
variable (apply : δ → Bytes → UInt64 → UInt64 → Except CodecError δ)
variable (log : Link δ → UInt64 → Bytes → Link δ × Option CodecError) (primary : String)

/-- The call of `apply_snapshot`, and what follows it. -/
def applySnapshot (r : Link δ) (s : SnapshotAsm) : Link δ × Option CodecError :=
  let called := { r with snap := none, calls := r.calls ++ [(s.buf, s.endOffset, s.generation)] }
  match apply r.db s.buf s.endOffset s.generation with
  | .error e => (called, some e)
  | .ok db =>
    ({ called with
        db := db
        resumeHost := some primary
        promoted := false
        generation := s.generation
        applied := s.endOffset }, none)

/-- The arms of `stream_once`.  A chunk of the log drops a snapshot that is not complete,
and `log` does the rest; what goes back to the primary is left out. -/
def arm (r : Link δ) : Frame → Link δ × Option CodecError
  | .walChunk offset data => log { r with snap := none } offset data
  | .heartbeat _ | .snapshotRequired => (r, none)
  | .snapshotBegin totalBytes endOffset generation =>
    if maxFrame < totalBytes.toNat then (r, some ⟨"snapshot too large"⟩)
    else ({ r with snap := some { buf := [], totalBytes, endOffset, generation } }, none)
  | .snapshotChunk data =>
    match r.snap with
    | none => (r, some ⟨"chunk outside snapshot"⟩)
    | some s =>
      if s.totalBytes.toNat < s.buf.length + data.length then
        (r, some ⟨"snapshot overrun"⟩)
      else ({ r with snap := some { s with buf := s.buf ++ data } }, none)
  | .snapshotEnd =>
    match r.snap with
    | none => (r, some ⟨"snapshot end outside snapshot"⟩)
    | some s =>
      let r := { r with snap := none }
      if s.buf.length ≠ s.totalBytes.toNat then (r, some ⟨"snapshot short read"⟩)
      else if r.Older primary s.generation then
        (r, some ⟨"refusing snapshot from older generation " ++ toString s.generation.toNat ++
          " (local " ++ toString r.generation.toNat ++ ")"⟩)
      else r.applySnapshot apply primary s
  | .startReplication _ _ | .handshake _ _ _ | .handshakeAck _ _ _ _ | .heartbeatAck =>
    (r, some ⟨"unexpected upstream frame"⟩)

/-- Frames one after the other, up to the first error. -/
def run (r : Link δ) : List Frame → Link δ × Option CodecError
  | [] => (r, none)
  | f :: fs =>
    match r.arm apply log primary f with
    | (r, some e) => (r, some e)
    | (r, none) => run r fs

/-- `n` rounds of the loop of `stream_once`, with no shutdown and no promotion between. -/
def streamOnce : Nat → Socket UInt8 → Link δ → Link δ × Option CodecError
  | 0, _, r => (r, none)
  | n + 1, s, r =>
    match readFrame s with
    | (.error e, _) => (r, some e)
    | (.ok none, s) => streamOnce n s r
    | (.ok (some f), s) =>
      match r.arm apply log primary f with
      | (r, some e) => (r, some e)
      | (r, none) => streamOnce n s r

end

end Link

/-! ## Chunks -/

theorem flatten_snapChunks (image : Bytes) : (snapChunks image).flatten = image := by
  fun_induction snapChunks image with
  | case1 => rfl
  | case2 image hne ih => rw [List.flatten_cons, ih, List.take_append_drop]

theorem length_snapChunk_le (image : Bytes) :
    ∀ c ∈ snapChunks image, c.length ≤ snapChunkBytes := by
  fun_induction snapChunks image with
  | case1 => simp
  | case2 image hne ih =>
    rw [List.forall_mem_cons]
    exact ⟨List.length_take_le .., ih⟩

theorem writeFrame_of_length {f : Frame} (h : (encodeBody f).length < maxFrame) :
    ∃ bs, writeFrame f = .ok bs := by
  rw [writeFrame]
  exact ⟨_, if_neg (by rw [List.length_cons]; omega)⟩

theorem writeFrames_of_length : ∀ {fs : List Frame},
    (∀ f ∈ fs, (encodeBody f).length < maxFrame) → ∃ units, writeFrames fs = .ok units
  | [], _ => ⟨[], rfl⟩
  | f :: fs, h => by
    obtain ⟨u, hu⟩ := writeFrame_of_length (h f (List.mem_cons_self ..))
    obtain ⟨us, hus⟩ := writeFrames_of_length fun g hg => h g (List.mem_cons_of_mem _ hg)
    refine ⟨u :: us, ?_⟩
    rw [writeFrames, hu, hus]
    rfl

theorem writeFrames_snapshot (image : Bytes) (endOffset generation : UInt64) :
    ∃ units, writeFrames (snapshotFrames image endOffset generation) = .ok units := by
  refine writeFrames_of_length fun f hf => ?_
  rcases List.mem_cons.mp hf with rfl | hf
  · simp [encodeBody, putU64Le, length_leBytes, maxFrame]
  · rcases List.mem_append.mp hf with hf | hf
    · obtain ⟨c, hc, rfl⟩ := List.mem_map.mp hf
      have hle := length_snapChunk_le image c hc
      rw [snapChunkBytes] at hle
      simp only [encodeBody, putBytes, List.length_cons, List.length_append, length_leBytes,
        maxFrame]
      omega
    · cases List.mem_singleton.mp hf
      decide

/-! ## Assembly -/

namespace Link

section
variable (apply : δ → Bytes → UInt64 → UInt64 → Except CodecError δ)
variable (log : Link δ → UInt64 → Bytes → Link δ × Option CodecError) (primary : String)

def holding (r : Link δ) (buf : Bytes) (totalBytes endOffset generation : UInt64) : Link δ :=
  { r with snap := some { buf, totalBytes, endOffset, generation } }

theorem run_cons {r r' : Link δ} {f : Frame} {fs : List Frame}
    (h : r.arm apply log primary f = (r', none)) :
    r.run apply log primary (f :: fs) = r'.run apply log primary fs := by
  rw [run, h]

variable (r : Link δ) (totalBytes endOffset generation : UInt64)

/-- A chunk that fits goes behind those before it. -/
theorem arm_chunk {buf c : Bytes} (h : buf.length + c.length ≤ totalBytes.toNat) :
    (r.holding buf totalBytes endOffset generation).arm apply log primary (.snapshotChunk c) =
      (r.holding (buf ++ c) totalBytes endOffset generation, none) :=
  if_neg (Nat.not_lt.2 h)

theorem arm_chunk_overrun {buf c : Bytes} (h : totalBytes.toNat < buf.length + c.length) :
    (r.holding buf totalBytes endOffset generation).arm apply log primary (.snapshotChunk c) =
      (r.holding buf totalBytes endOffset generation, some ⟨"snapshot overrun"⟩) :=
  if_pos h

/-- Chunks that fit are put together. -/
theorem run_chunks (fs : List Frame) : ∀ (cs : List Bytes) (buf : Bytes),
    buf.length + cs.flatten.length ≤ totalBytes.toNat →
      (r.holding buf totalBytes endOffset generation).run apply log primary
          (cs.map Frame.snapshotChunk ++ fs) =
        (r.holding (buf ++ cs.flatten) totalBytes endOffset generation).run apply log primary fs
  | [], buf, _ => by rw [List.flatten_nil, List.append_nil]; rfl
  | c :: cs, buf, h => by
    rw [List.flatten_cons, List.length_append] at h
    have ih := run_chunks fs cs (buf ++ c) (by rw [List.length_append]; omega)
    rw [List.append_assoc] at ih
    have hchunk := arm_chunk apply log primary r totalBytes endOffset generation
      (show buf.length + c.length ≤ totalBytes.toNat by omega)
    rw [List.map_cons, List.cons_append, run_cons apply log primary hchunk]
    exact ih

/-- Chunks that are more than was announced end the connection; nothing is handed on. -/
theorem calls_run_overrun (fs : List Frame) : ∀ (cs : List Bytes) (buf : Bytes),
    buf.length ≤ totalBytes.toNat → totalBytes.toNat < buf.length + cs.flatten.length →
      ((r.holding buf totalBytes endOffset generation).run apply log primary
        (cs.map Frame.snapshotChunk ++ fs)).1.calls = r.calls
  | [], buf, hle, hlt => by
    rw [List.flatten_nil, List.length_nil] at hlt
    omega
  | c :: cs, buf, hle, hlt => by
    rw [List.flatten_cons, List.length_append] at hlt
    rw [List.map_cons, List.cons_append]
    rcases Nat.lt_or_ge totalBytes.toNat (buf.length + c.length) with hover | hfits
    · rw [run, arm_chunk_overrun apply log primary r totalBytes endOffset generation hover]
      rfl
    · have hchunk := arm_chunk apply log primary r totalBytes endOffset generation hfits
      rw [run_cons apply log primary hchunk]
      apply calls_run_overrun fs cs (buf ++ c)
      · rw [List.length_append]
        exact hfits
      · rw [List.length_append]
        omega

theorem calls_applySnapshot (s : SnapshotAsm) :
    (r.applySnapshot apply primary s).1.calls =
      r.calls ++ [(s.buf, s.endOffset, s.generation)] := by
  rw [applySnapshot]
  cases apply r.db s.buf s.endOffset s.generation <;> rfl

theorem calls_run_end {buf : Bytes} (hlen : buf.length = totalBytes.toNat)
    (hnew : ¬ r.Older primary generation) :
    ((r.holding buf totalBytes endOffset generation).run apply log primary
      [.snapshotEnd]).1.calls = r.calls ++ [(buf, endOffset, generation)] := by
  let s : SnapshotAsm := { buf, totalBytes, endOffset, generation }
  have harm : (r.holding buf totalBytes endOffset generation).arm apply log primary .snapshotEnd =
      applySnapshot apply primary { r with snap := none } s :=
    (if_neg (not_not.2 hlen)).trans (if_neg hnew)
  have hcalls := calls_applySnapshot apply primary { r with snap := none } s
  rw [run, harm]
  cases happly : applySnapshot apply primary { r with snap := none } s with
  | mk r' e =>
    rw [happly] at hcalls
    cases e <;> exact hcalls

theorem arm_begin (h : totalBytes.toNat ≤ maxFrame) :
    r.arm apply log primary (.snapshotBegin totalBytes endOffset generation) =
      (r.holding [] totalBytes endOffset generation, none) :=
  if_neg (Nat.not_lt.2 h)

theorem arm_begin_large (h : maxFrame < totalBytes.toNat) :
    r.arm apply log primary (.snapshotBegin totalBytes endOffset generation) =
      (r, some ⟨"snapshot too large"⟩) :=
  if_pos h

/-- An image that fits is put together and handed on. -/
theorem calls_run_snapshot {image : Bytes} (h : image.length ≤ maxFrame)
    (hnew : ¬ r.Older primary generation) :
    (r.run apply log primary (snapshotFrames image endOffset generation)).1.calls =
      r.calls ++ [(image, endOffset, generation)] := by
  have hlen : (UInt64.ofNat image.length).toNat = image.length :=
    UInt64.toNat_ofNat_of_lt' (h.trans_lt (by decide))
  have hchunks := run_chunks apply log primary r (UInt64.ofNat image.length) endOffset generation
    [.snapshotEnd] (snapChunks image) []
    (by rw [flatten_snapChunks, hlen, List.length_nil]; omega)
  rw [List.nil_append, flatten_snapChunks] at hchunks
  have hbegin := arm_begin apply log primary r (UInt64.ofNat image.length) endOffset generation
    (by omega)
  rw [snapshotFrames, run_cons apply log primary hbegin, hchunks]
  exact calls_run_end apply log primary r _ _ _ hlen.symm hnew

/-- A larger one is refused at its announcement, or has more bytes than its announcement
says: nothing is handed on. -/
theorem calls_run_large {image : Bytes} (h : maxFrame < image.length) :
    (r.run apply log primary (snapshotFrames image endOffset generation)).1.calls = r.calls := by
  rcases Nat.lt_or_ge maxFrame (UInt64.ofNat image.length).toNat with hlarge | hfits
  · rw [snapshotFrames, run, arm_begin_large apply log primary r _ _ _ hlarge]
  · rw [snapshotFrames, run_cons apply log primary (arm_begin apply log primary r _ _ _ hfits)]
    refine calls_run_overrun apply log primary r _ _ _ _ _ _ (Nat.zero_le _) ?_
    rw [flatten_snapChunks, List.length_nil]
    omega

end

end Link

/-! ## The connection -/

/-- Nothing has been written where nothing arrives. -/
theorem writeFrames_flatten_nil : ∀ {fs : List Frame} {units : List Bytes},
    writeFrames fs = .ok units → units.flatten = [] → fs = []
  | [], _, _, _ => rfl
  | _ :: _, _, h, hnil => by
    obtain ⟨u, us, rfl, hf, -⟩ := writeFrames_cons h
    exact absurd (List.append_eq_nil_iff.1 hnil).1 (writeFrame_ne_nil hf)

/-- A stream that has arrived whole. -/
theorem stopsBetween_smooth : ∀ units : List Bytes, StopsBetween units ⟨smooth units.flatten, true⟩
  | [] => stopsBetween_closed []
  | u :: units => by
    rw [List.flatten_cons, smooth_append]
    exact (stopsBetween_smooth units).unit u

namespace Link

section
variable (apply : δ → Bytes → UInt64 → UInt64 → Except CodecError δ)
variable (log : Link δ → UInt64 → Bytes → Link δ × Option CodecError) (primary : String)

theorem streamOnce_arrived (n : Nat) (r : Link δ) {f : Frame} {bs : Bytes}
    (h : writeFrame f = .ok bs) (s : List (Event UInt8)) (closed : Bool) :
    r.streamOnce apply log primary (n + 1) ⟨smooth bs ++ s, closed⟩ =
      match r.arm apply log primary f with
      | (r, some e) => (r, some e)
      | (r, none) => r.streamOnce apply log primary n ⟨s, closed⟩ := by
  rw [streamOnce, readFrame_arrived h]

/-- Where all that was written arrives, with timeouts between the frames only, the loop
takes the frames one after the other. -/
theorem streamOnce_run : ∀ (n : Nat) {fs : List Frame} {units : List Bytes} {s : Socket UInt8}
    (r : Link δ), writeFrames fs = .ok units → items s.incoming = units.flatten →
      StopsBetween units s → s.incoming.length ≤ n →
        (r.streamOnce apply log primary n s).1 = (r.run apply log primary fs).1
  | 0, fs, _, ⟨incoming, closed⟩, r, hfs, hitems, _, hn => by
    obtain rfl := List.length_eq_zero_iff.1 (Nat.le_zero.1 hn)
    obtain rfl := writeFrames_flatten_nil hfs hitems.symm
    rfl
  | n + 1, fs, units, ⟨incoming, closed⟩, r, hfs, hitems, hstops, hn => by
    match incoming with
    | [] =>
      have hnil := writeFrames_flatten_nil hfs hitems.symm
      cases closed with
      | true =>
        rw [hnil]
        rfl
      | false => exact streamOnce_run n r hfs hitems hstops (Nat.zero_le n)
    | .timeout :: s =>
      exact streamOnce_run n r hfs hitems hstops.after_timeout (Nat.le_of_succ_le_succ hn)
    | .item b :: s =>
      cases fs with
      | nil =>
        cases hfs
        cases hitems
      | cons f fs =>
        obtain ⟨u, us, rfl, hf, hrest⟩ := writeFrames_cons hfs
        rcases hstops.next (by rw [← hitems]) with ⟨s', heq, -⟩ | ⟨rfl, v, hv, hne, heq⟩
        · rw [heq] at hstops hitems hn
          have hpos := List.length_pos_iff.mpr (writeFrame_ne_nil hf)
          have hitems' : items s' = us.flatten := by
            rw [items_append, items_smooth] at hitems
            exact List.append_cancel_left hitems
          have hn' : s'.length ≤ n := by
            rw [List.length_append, smooth, List.length_map] at hn
            omega
          rw [heq, streamOnce_arrived apply log primary n r hf, run]
          cases harm : r.arm apply log primary f with
          | mk r' e =>
            cases e with
            | some e => rfl
            | none =>
              exact streamOnce_run n r' hrest hitems'
                (hstops.after_unit (writeFrame_ne_nil hf)) hn'
        · -- The whole of `u` has arrived, so the stream does not end inside it.
          rw [heq, items_smooth] at hitems
          have hlen := congrArg List.length hitems
          rw [List.flatten_cons, List.length_append] at hlen
          exact absurd (hv.eq_of_length_le (by omega)) hne

end

end Link

/-- The frames of an image can always be sent.  It reaches `apply_snapshot`, as it was and
with its offset and generation, just if it is no longer than one frame may be. -/
theorem snapshot_arrives_iff (apply : δ → Bytes → UInt64 → UInt64 → Except CodecError δ)
    (log : Link δ → UInt64 → Bytes → Link δ × Option CodecError) (primary : String)
    (image : Bytes) (endOffset generation : UInt64) (r : Link δ)
    (hnew : ¬ r.Older primary generation) :
    ∃ units, writeFrames (snapshotFrames image endOffset generation) = .ok units ∧
      ∀ s n, items s.incoming = units.flatten → StopsBetween units s → s.incoming.length ≤ n →
        ((r.streamOnce apply log primary n s).1.calls =
          r.calls ++ [(image, endOffset, generation)] ↔ image.length ≤ maxFrame) := by
  obtain ⟨units, hunits⟩ := writeFrames_snapshot image endOffset generation
  refine ⟨units, hunits, fun s n hitems hstops hn => ?_⟩
  rw [Link.streamOnce_run apply log primary n r hunits hitems hstops hn]
  constructor
  · intro hcalls
    by_contra hlarge
    rw [Link.calls_run_large apply log primary r _ _ (Nat.not_le.1 hlarge)] at hcalls
    exact absurd (List.self_eq_append_right.1 hcalls) (List.cons_ne_nil _ _)
  · exact fun h => Link.calls_run_snapshot apply log primary r endOffset generation h hnew

/-- A replica that has nothing yet. -/
def freshLink : Link Bytes :=
  { db := []
    snap := none
    generation := noGeneration
    applied := 0
    resumeHost := none
    promoted := false
    calls := [] }

/-- What `apply_snapshot` does with an image in the cases below. -/
def keepImage (_ image : Bytes) (_ _ : UInt64) : Except CodecError Bytes := .ok image

/-- No chunk of the log comes in the cases below. -/
def noLog (r : Link Bytes) (_ : UInt64) (_ : Bytes) : Link Bytes × Option CodecError := (r, none)

theorem freshLink_not_older (generation : UInt64) : ¬ freshLink.Older "p" generation :=
  fun h => absurd h.1 (by decide)

theorem three_bytes_arrive : ∃ units,
    writeFrames (snapshotFrames [1, 2, 3] 16 7) = .ok units ∧
      ∀ s n, items s.incoming = units.flatten → StopsBetween units s → s.incoming.length ≤ n →
        ((freshLink.streamOnce keepImage noLog "p" n s).1.calls =
          freshLink.calls ++ [([1, 2, 3], 16, 7)] ↔ [1, 2, 3].length ≤ maxFrame) :=
  snapshot_arrives_iff keepImage noLog "p" [1, 2, 3] 16 7 freshLink (freshLink_not_older 7)

def largeImage : Bytes := List.replicate (maxFrame + 1) 0

/-- It can be sent, and arrives at no replica. -/
theorem largeImage_is_refused : ¬ ∀ (image : Bytes) (endOffset generation : UInt64),
    ∃ units, writeFrames (snapshotFrames image endOffset generation) = .ok units ∧
      ∀ s n, items s.incoming = units.flatten → StopsBetween units s → s.incoming.length ≤ n →
        (freshLink.streamOnce keepImage noLog "p" n s).1.calls =
          freshLink.calls ++ [(image, endOffset, generation)] := by
  intro h
  obtain ⟨units, hunits, hcalls⟩ := h largeImage 16 7
  have hlarge : maxFrame < largeImage.length := by
    rw [largeImage, List.length_replicate]
    exact Nat.lt_succ_self _
  have hnone := Link.calls_run_large keepImage noLog "p" freshLink 16 7 hlarge
  have hall := hcalls ⟨smooth units.flatten, true⟩ _ (items_smooth _) (stopsBetween_smooth units)
    le_rfl
  rw [Link.streamOnce_run keepImage noLog "p" _ freshLink hunits (items_smooth _)
    (stopsBetween_smooth units) le_rfl, hnone] at hall
  cases hall

end HenchDB.Protocol
