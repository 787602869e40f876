import HenchDB.Lib.Arrival
import HenchDB.Types

/-!
# The replication protocol on the wire

A frame is a length, a magic byte, a type and a payload.  `writeFrame` makes the
bytes of a frame and `readFrame` takes one off a socket; its caller calls again when
there was none.

`readFrame` keeps nothing between two calls.  A timeout inside a frame therefore
loses the bytes before it: in the length they are dropped without an error, in the
body the call fails.  Where timeouts fall between frames, the frames come out as
they were written (`frames_survive_timeouts`).
-/

namespace HenchDB.Protocol

open Codec Arrival

/-! ## Frames -/

def maxFrame : Nat := 64 * 1024 * 1024

def replMagic : UInt8 := 0x52

/-- What primary and replica send each other. -/
inductive Frame where
  | handshake (version : UInt32) (user password : String)
  | handshakeAck (ok : Bool) (message : String) (walVersion : UInt32) (durableOffset : UInt64)
  | startReplication (generation fromOffset : UInt64)
  | walChunk (offset : UInt64) (data : Bytes)
  | heartbeat (durableOffset : UInt64)
  | heartbeatAck
  | snapshotRequired
  | snapshotBegin (totalBytes endOffset generation : UInt64)
  | snapshotChunk (data : Bytes)
  | snapshotEnd
deriving DecidableEq, Repr

structure CodecError where
  message : String
deriving DecidableEq, Repr

def putU32Le (v : UInt32) : Bytes := leBytes 4 v.toNat

def putU64Le (v : UInt64) : Bytes := leBytes 8 v.toNat

/-- `put_bytes`; the length is cut to 32 bits. -/
def putBytes (b : Bytes) : Bytes := leBytes 4 b.length ++ b

def putStr (s : String) : Bytes := putBytes (utf8 s)

def encodeBody : Frame → Bytes
  | .handshake version user password => 1 :: (putU32Le version ++ (putStr user ++ putStr password))
  | .handshakeAck ok message walVersion durableOffset =>
    2 :: (if ok then 1 else 0) ::
      (putStr message ++ (putU32Le walVersion ++ putU64Le durableOffset))
  | .startReplication generation fromOffset => 3 :: (putU64Le generation ++ putU64Le fromOffset)
  | .walChunk offset data => 4 :: (putU64Le offset ++ putBytes data)
  | .heartbeat durableOffset => 5 :: putU64Le durableOffset
  | .heartbeatAck => [6]
  | .snapshotRequired => [7]
  | .snapshotBegin totalBytes endOffset generation =>
    8 :: (putU64Le totalBytes ++ (putU64Le endOffset ++ putU64Le generation))
  | .snapshotChunk data => 9 :: putBytes data
  | .snapshotEnd => [10]

/-- The error of `Cursor::take`. -/
def truncated : CodecError := ⟨"truncated frame"⟩

def u32Le : Decoder CodecError UInt32 := do
  return UInt32.ofNat (← takeLe 4 truncated)

def u64Le : Decoder CodecError UInt64 := do
  return UInt64.ofNat (← takeLe 8 truncated)

def strT : Decoder CodecError String := do
  let n ← u32Le
  if maxFrame < n.toNat then throw ⟨"string too large"⟩
  else
    let bs ← takeN n.toNat truncated
    match fromUtf8 bs with
    | some s => return s
    | none => throw ⟨"utf8"⟩

def bytesT : Decoder CodecError Bytes := do
  let n ← u32Le
  if maxFrame < n.toNat then throw ⟨"blob too large"⟩
  else takeN n.toNat truncated

/-- The payload of a frame of type `t`. -/
def payload (t : UInt8) : Decoder CodecError Frame :=
  if t = 1 then do
    let version ← u32Le
    let user ← strT
    let password ← strT
    return .handshake version user password
  else if t = 2 then do
    let ok ← takeByte truncated
    let message ← strT
    let walVersion ← u32Le
    let durableOffset ← u64Le
    return .handshakeAck (ok ≠ 0) message walVersion durableOffset
  else if t = 3 then do
    let generation ← u64Le
    let fromOffset ← u64Le
    return .startReplication generation fromOffset
  else if t = 4 then do
    let offset ← u64Le
    let data ← bytesT
    return .walChunk offset data
  else if t = 5 then do
    let durableOffset ← u64Le
    return .heartbeat durableOffset
  else if t = 6 then pure .heartbeatAck
  else if t = 7 then pure .snapshotRequired
  else if t = 8 then do
    let totalBytes ← u64Le
    let endOffset ← u64Le
    let generation ← u64Le
    return .snapshotBegin totalBytes endOffset generation
  else if t = 9 then do
    let data ← bytesT
    return .snapshotChunk data
  else if t = 10 then pure .snapshotEnd
  else throw ⟨"unknown frame type " ++ toString t.toNat⟩

/-- `decode_body`; what is behind the payload is not looked at. -/
def decodeBody (buf : Bytes) : Except CodecError Frame :=
  (StateT.run (takeByte truncated >>= payload) buf).map Prod.fst

/-- `write_frame`: the bytes that go to the socket. -/
def writeFrame (f : Frame) : Except CodecError Bytes :=
  let body := replMagic :: encodeBody f
  if maxFrame < body.length then .error ⟨"frame too large"⟩
  else .ok ((leBytes 4 body.length).reverse ++ body)

/-- The bytes of frames written one after the other, a unit for each. -/
def writeFrames : List Frame → Except CodecError (List Bytes)
  | [] => .ok []
  | f :: fs => do return (← writeFrame f) :: (← writeFrames fs)

/-- The text of an error of `read_exact`. -/
def readErrorText : ReadError → String
  | .timedOut => "Resource temporarily unavailable (os error 11)"
  | .eof => "failed to fill whole buffer"

def readFrame (s : Socket UInt8) : Except CodecError (Option Frame) × Socket UInt8 :=
  match readExact 4 s with
  | (.error .timedOut, s) => (.ok none, s)
  | (.error e, s) => (.error ⟨readErrorText e⟩, s)
  | (.ok hdr, s) =>
    let len := beValue hdr
    if len < 2 ∨ maxFrame < len then (.error ⟨"bad frame length " ++ toString len⟩, s)
    else
      match readExact len s with
      | (.error e, s) => (.error ⟨readErrorText e⟩, s)
      | (.ok body, s) =>
        if body.head? ≠ some replMagic then (.error ⟨"bad replication magic"⟩, s)
        else ((decodeBody body.tail).map some, s)

/-- The frames of `n` calls of `read_frame`, and the error that ends them early. -/
def poll : Nat → Socket UInt8 → List Frame × Option CodecError
  | 0, _ => ([], none)
  | n + 1, s =>
    match readFrame s with
    | (.error e, _) => ([], some e)
    | (.ok none, s) => poll n s
    | (.ok (some f), s) => (f :: (poll n s).1, (poll n s).2)

/-! ## Bodies -/

theorem reads_u32Le (v : UInt32) : Reads u32Le (putU32Le v) v := by
  have h : Reads (takeLe 4 truncated) (leBytes 4 v.toNat) v.toNat :=
    reads_takeLe truncated v.toNat_lt
  refine h.bind_pure ?_
  rw [UInt32.ofNat_toNat]
  exact .pure

theorem reads_u64Le (v : UInt64) : Reads u64Le (putU64Le v) v := by
  have h : Reads (takeLe 8 truncated) (leBytes 8 v.toNat) v.toNat :=
    reads_takeLe truncated v.toNat_lt
  refine h.bind_pure ?_
  rw [UInt64.ofNat_toNat]
  exact .pure

theorem reads_length {n : Nat} (h : n ≤ maxFrame) :
    Reads u32Le (leBytes 4 n) (UInt32.ofNat n) ∧ (UInt32.ofNat n).toNat = n := by
  have hlt : n < 2 ^ 32 := h.trans_lt (by decide)
  exact ⟨(reads_takeLe truncated hlt).bind_pure .pure, UInt32.toNat_ofNat_of_lt' hlt⟩

theorem reads_bytesT {b : Bytes} (h : b.length ≤ maxFrame) : Reads bytesT (putBytes b) b := by
  obtain ⟨hread, hlen⟩ := reads_length h
  refine hread.bind ?_
  rw [hlen, if_neg (Nat.not_lt.2 h)]
  exact reads_takeN truncated rfl

theorem reads_strT {s : String} (h : (utf8 s).length ≤ maxFrame) : Reads strT (putStr s) s := by
  obtain ⟨hread, hlen⟩ := reads_length h
  refine hread.bind ?_
  rw [hlen, if_neg (Nat.not_lt.2 h)]
  refine (reads_takeN truncated rfl).bind_pure ?_
  rw [fromUtf8_utf8]
  exact .pure

variable {bs : Bytes} {f : Frame}

theorem reads_body {t : UInt8} (h : Reads (payload t) bs f) :
    Reads (takeByte truncated >>= payload) (t :: bs) f :=
  (reads_takeByte t truncated).bind h

/-- The body of a frame within the limit is read back. -/
theorem reads_frame (f : Frame) (h : (encodeBody f).length ≤ maxFrame) :
    Reads (takeByte truncated >>= payload) (encodeBody f) f := by
  cases f with
  | handshake version user password =>
    simp only [encodeBody, putStr, putBytes, List.length_cons, List.length_append] at h
    exact reads_body ((reads_u32Le version).bind ((reads_strT (by omega)).bind
      ((reads_strT (by omega)).bind_pure .pure)))
  | handshakeAck ok message walVersion durableOffset =>
    simp only [encodeBody, putStr, putBytes, List.length_cons, List.length_append] at h
    have hok : (decide ((if ok then 1 else 0 : UInt8) ≠ 0)) = ok := by cases ok <;> rfl
    refine reads_body ((reads_takeByte _ truncated).bind ((reads_strT (by omega)).bind
      ((reads_u32Le walVersion).bind ((reads_u64Le durableOffset).bind_pure ?_))))
    rw [hok]
    exact .pure
  | startReplication generation fromOffset =>
    exact reads_body ((reads_u64Le generation).bind ((reads_u64Le fromOffset).bind_pure .pure))
  | walChunk offset data =>
    simp only [encodeBody, putBytes, List.length_cons, List.length_append] at h
    exact reads_body ((reads_u64Le offset).bind ((reads_bytesT (by omega)).bind_pure .pure))
  | heartbeat durableOffset => exact reads_body ((reads_u64Le durableOffset).bind_pure .pure)
  | heartbeatAck => exact reads_body .pure
  | snapshotRequired => exact reads_body .pure
  | snapshotBegin totalBytes endOffset generation =>
    exact reads_body ((reads_u64Le totalBytes).bind ((reads_u64Le endOffset).bind
      ((reads_u64Le generation).bind_pure .pure)))
  | snapshotChunk data =>
    simp only [encodeBody, putBytes, List.length_cons, List.length_append] at h
    exact reads_body ((reads_bytesT (by omega)).bind_pure .pure)
  | snapshotEnd => exact reads_body .pure

theorem decodeBody_encodeBody (f : Frame) (h : (encodeBody f).length ≤ maxFrame) :
    decodeBody (encodeBody f) = .ok f := by
  have hrun := reads_frame f h []
  rw [List.append_nil] at hrun
  rw [decodeBody, hrun]
  rfl

/-! ## One frame -/

/-- What `write_frame` puts on the socket. -/
theorem writeFrame_ok (h : writeFrame f = .ok bs) :
    (encodeBody f).length < maxFrame ∧
      bs = (leBytes 4 ((encodeBody f).length + 1)).reverse ++ (replMagic :: encodeBody f) := by
  rw [writeFrame] at h
  split at h
  · cases h
  · rename_i hlen
    cases h
    rw [List.length_cons] at hlen
    exact ⟨by omega, rfl⟩

theorem encodeBody_ne_nil (f : Frame) : 0 < (encodeBody f).length := by
  cases f <;> exact Nat.succ_pos _

theorem header_value (h : (encodeBody f).length < maxFrame) :
    beValue (leBytes 4 ((encodeBody f).length + 1)).reverse = (encodeBody f).length + 1 := by
  rw [beValue, List.reverse_reverse]
  refine leValue_leBytes ?_
  rw [maxFrame] at h
  omega

theorem readFrame_arrived (h : writeFrame f = .ok bs) (s : List (Event UInt8)) (closed : Bool) :
    readFrame ⟨smooth bs ++ s, closed⟩ = (.ok (some f), ⟨s, closed⟩) := by
  obtain ⟨hlen, rfl⟩ := writeFrame_ok h
  have hpos := encodeBody_ne_nil f
  have hhead := readExact_smooth closed (smooth (replMagic :: encodeBody f) ++ s)
    (leBytes 4 ((encodeBody f).length + 1)).reverse
  rw [List.length_reverse, length_leBytes] at hhead
  have hbody := readExact_smooth closed s (replMagic :: encodeBody f)
  rw [List.length_cons] at hbody
  rw [readFrame, smooth_append, List.append_assoc, hhead]
  simp only [header_value hlen]
  rw [if_neg (by omega), hbody]
  simp [decodeBody_encodeBody f hlen.le]
  rfl

/-- The writer has closed the stream inside a frame. -/
theorem readFrame_cut {v : Bytes} (h : writeFrame f = .ok bs) (hv : v <+: bs) (hne : v ≠ bs) :
    ∃ e s, readFrame ⟨smooth v, true⟩ = (.error e, s) := by
  obtain ⟨hlen, rfl⟩ := writeFrame_ok h
  have hpos := encodeBody_ne_nil f
  have hhdr : (leBytes 4 ((encodeBody f).length + 1)).reverse.length = 4 := by
    rw [List.length_reverse, length_leBytes]
  by_cases hshort : v.length < 4
  · rw [readFrame, readExact_short hshort]
    exact ⟨_, _, rfl⟩
  · obtain ⟨w, rfl⟩ := List.prefix_of_prefix_length_le (List.prefix_append _ _) hv
      (by rw [hhdr]; omega)
    have hw : w.length < (encodeBody f).length + 1 := by
      have hpre := (List.prefix_append_right_inj _).1 hv
      refine Nat.lt_of_le_of_ne hpre.length_le fun heq => hne ?_
      rw [hpre.eq_of_length heq]
    have hhead := readExact_smooth true (smooth w) (leBytes 4 ((encodeBody f).length + 1)).reverse
    rw [hhdr] at hhead
    rw [readFrame, smooth_append, hhead]
    simp only [header_value hlen]
    rw [if_neg (by omega), readExact_short hw]
    exact ⟨_, _, rfl⟩

theorem readFrame_timeout (s : List (Event UInt8)) (closed : Bool) :
    readFrame ⟨.timeout :: s, closed⟩ = (.ok none, ⟨s, closed⟩) := rfl

theorem readFrame_silent : readFrame ⟨[], false⟩ = (.ok none, ⟨[], false⟩) := rfl

theorem readFrame_closed :
    readFrame ⟨[], true⟩ = (.error ⟨readErrorText .eof⟩, ⟨[], true⟩) := rfl

/-! ## Runs -/

theorem writeFrames_cons {fs : List Frame} {units : List Bytes}
    (h : writeFrames (f :: fs) = .ok units) : ∃ u us, units = u :: us ∧
      writeFrame f = .ok u ∧ writeFrames fs = .ok us := by
  rw [writeFrames] at h
  cases hf : writeFrame f with
  | error e =>
    rw [hf] at h
    cases h
  | ok u =>
    rw [hf] at h
    cases hfs : writeFrames fs with
    | error e =>
      rw [hfs] at h
      cases h
    | ok us =>
      rw [hfs] at h
      cases h
      exact ⟨u, us, rfl, rfl, rfl⟩

theorem writeFrame_ne_nil (h : writeFrame f = .ok bs) : bs ≠ [] := by
  obtain ⟨-, rfl⟩ := writeFrame_ok h
  exact List.append_ne_nil_of_right_ne_nil _ (List.cons_ne_nil _ _)

/-- The calls return what was written, in order, and fail only once the peer has closed. -/
theorem poll_spec : ∀ (n : Nat) {fs : List Frame} {units : List Bytes} {s : Socket UInt8},
    writeFrames fs = .ok units → items s.incoming <+: units.flatten → StopsBetween units s →
      (poll n s).1 <+: fs ∧ ((poll n s).2 ≠ none → s.closed = true)
  | 0, fs, _, _, _, _, _ => ⟨List.nil_prefix, fun h => absurd rfl h⟩
  | n + 1, fs, units, ⟨incoming, closed⟩, hfs, hitems, hstops => by
    match incoming, closed with
    | [], true =>
      rw [poll, readFrame_closed]
      exact ⟨List.nil_prefix, fun _ => rfl⟩
    | [], false =>
      rw [poll, readFrame_silent]
      exact poll_spec n hfs hitems hstops
    | .timeout :: s, closed =>
      rw [poll, readFrame_timeout]
      exact poll_spec n hfs hitems hstops.after_timeout
    | .item b :: s, closed =>
      cases fs with
      | nil =>
        cases hfs
        exact absurd (List.prefix_nil.1 hitems) (List.cons_ne_nil _ _)
      | cons f fs =>
        obtain ⟨u, us, rfl, hf, hrest⟩ := writeFrames_cons hfs
        rcases hstops.next hitems with ⟨s', heq, hitems'⟩ | ⟨rfl, v, hv, hne, heq⟩
        · rw [heq] at hstops
          obtain ⟨hpre, herr⟩ := poll_spec n hrest hitems'
            (hstops.after_unit (writeFrame_ne_nil hf))
          rw [heq, poll, readFrame_arrived hf]
          exact ⟨List.cons_prefix_cons.2 ⟨rfl, hpre⟩, herr⟩
        · obtain ⟨e, t, hcut⟩ := readFrame_cut hf hv hne
          rw [heq, poll, hcut]
          exact ⟨List.nil_prefix, fun _ => rfl⟩

/-- A frame that can be written has a body that can be read, and frames come out of the
socket as they went in where no timeout falls inside a frame. -/
theorem frames_survive_timeouts (fs : List Frame) (units : List Bytes) (s : Socket UInt8) (n : Nat) :
    (∀ f bs, writeFrame f = .ok bs → decodeBody (encodeBody f) = .ok f) ∧
    (writeFrames fs = .ok units → items s.incoming <+: units.flatten → StopsBetween units s →
      (poll n s).1 <+: fs ∧ ((poll n s).2 ≠ none → s.closed = true)) :=
  ⟨fun f _ h => decodeBody_encodeBody f (writeFrame_ok h).1.le, poll_spec n⟩

def ackBytes : Bytes := [0, 0, 0, 2, 0x52, 6]

/-- One acknowledgement with timeouts around it, and a silent peer. -/
theorem frames_survive_timeouts_ack :
    writeFrame .heartbeatAck = .ok ackBytes ∧
    decodeBody (encodeBody .heartbeatAck) = .ok .heartbeatAck ∧
    (poll 3 ⟨.timeout :: (smooth ackBytes ++ [.timeout]), false⟩).1 <+: [.heartbeatAck] ∧
    ((poll 3 ⟨.timeout :: (smooth ackBytes ++ [.timeout]), false⟩).2 ≠ none → false = true) := by
  have hwrite : writeFrame .heartbeatAck = .ok ackBytes := rfl
  have hstops : StopsBetween [ackBytes] ⟨.timeout :: (smooth ackBytes ++ [.timeout]), false⟩ :=
    ((stopsBetween_silent []).timeout.unit ackBytes).timeout
  refine ⟨hwrite, (frames_survive_timeouts [] [] ⟨[], true⟩ 0).1 _ _ hwrite, ?_⟩
  exact (frames_survive_timeouts [.heartbeatAck] [ackBytes] _ 3).2 rfl (List.prefix_refl _) hstops

/-- The same acknowledgement with a timeout behind its first byte. -/
def slowHeader : Socket UInt8 := ⟨.item 0 :: .timeout :: smooth [0, 0, 2, 0x52, 6], false⟩

/-- The first byte is lost, the next call reads a wrong length, and fails with an open peer. -/
theorem slowHeader_fails : ¬ ∀ (fs : List Frame) (units : List Bytes) (s : Socket UInt8) (n : Nat),
    writeFrames fs = .ok units → items s.incoming <+: units.flatten →
      (poll n s).1 <+: fs ∧ ((poll n s).2 ≠ none → s.closed = true) := by
  intro h
  have hrun : poll 2 slowHeader = ([], some ⟨readErrorText .timedOut⟩) := rfl
  have hafter := (h [.heartbeatAck] [ackBytes] slowHeader 2 rfl (List.prefix_refl _)).2
  rw [hrun] at hafter
  exact absurd (hafter (by simp)) (by decide)

end HenchDB.Protocol
