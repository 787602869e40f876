import HenchDB.Lib.Codec

/-!
# Packets of the MySQL protocol

A payload travels in fragments of at most `maxPacket` bytes, each behind a header of
its length and a sequence number of one byte.  A fragment of exactly `maxPacket` bytes
says that another one follows, so a payload of a multiple of that length ends with an
empty fragment.

Reading takes back what writing cut up (`readPackets_writePackets`).  The limit that
`readPacket` gets is compared with each fragment and never with their sum, so it bounds
a command only where it is smaller than a full fragment or where the peer keeps to it
(`capped_iff`).
-/

namespace HenchDB.Wire

open Codec

/-- `MAX_PACKET`, the length of a full fragment. -/
def maxPacket : Nat := 0xFFFFFF

/-! ## Writing -/

def packetHeader (len : Nat) (seq : UInt8) : List UInt8 :=
  leBytes 3 len ++ [seq]

/-- The loop of `write_packet` over what is left of the payload; also the sequence number
behind it. -/
def writeFragments (payload : List UInt8) (seq : UInt8) : List UInt8 × UInt8 :=
  if payload = [] then ([], seq)
  else
    let chunk := min payload.length maxPacket
    let written := packetHeader chunk seq ++ payload.take chunk
    if chunk = maxPacket ∧ payload.length ≤ chunk then
      (written ++ packetHeader 0 (seq + 1), seq + 1 + 1)
    else
      let more := writeFragments (payload.drop chunk) (seq + 1)
      (written ++ more.1, more.2)
termination_by payload.length
decreasing_by
  have hpos : 0 < payload.length := List.length_pos_iff.mpr ‹_›
  simp only [List.length_drop, maxPacket]
  omega

def writePacket (payload : List UInt8) (seq : UInt8) : List UInt8 × UInt8 :=
  if payload = [] then (packetHeader 0 seq, seq + 1) else writeFragments payload seq

/-- Successive calls of `write_packet`. -/
def writePackets : List (List UInt8) → UInt8 → List UInt8 × UInt8
  | [], seq => ([], seq)
  | payload :: payloads, seq =>
    let first := writePacket payload seq
    let more := writePackets payloads first.2
    (first.1 ++ more.1, more.2)

/-! ## Reading -/

inductive ReadError
  | unexpectedEof
  | packetTooLarge
  deriving DecidableEq, Repr

/-- What `read_packet` has between two fragments. -/
structure Assembly where
  firstSeq : Option UInt8 := none
  out : List UInt8 := []

/-- The loop of `read_packet`; also what is left of the stream. -/
def readFragments (max : Nat) : List UInt8 → Assembly →
    Except ReadError ((UInt8 × List UInt8) × List UInt8)
  | b0 :: b1 :: b2 :: seq :: rest, a =>
    let len := leValue [b0, b1, b2]
    let firstSeq := a.firstSeq.getD seq
    if max < len then .error .packetTooLarge
    else if rest.length < len then .error .unexpectedEof
    else
      let out := a.out ++ rest.take len
      if len < maxPacket then .ok ((firstSeq, out), rest.drop len)
      else readFragments max (rest.drop len) ⟨some firstSeq, out⟩
  | _, _ => .error .unexpectedEof
termination_by stream => stream.length
decreasing_by
  simp only [List.length_drop, List.length_cons]
  omega

def readPacket (max : Nat) (stream : List UInt8) :
    Except ReadError ((UInt8 × List UInt8) × List UInt8) :=
  readFragments max stream {}

/-- `n` successive calls of `read_packet`. -/
def readPackets (max : Nat) : Nat → List UInt8 →
    Except ReadError (List (UInt8 × List UInt8) × List UInt8)
  | 0, stream => .ok ([], stream)
  | n + 1, stream => do
    let (packet, rest) ← readPacket max stream
    let (packets, rest) ← readPackets max n rest
    return (packet :: packets, rest)

/-! ## Reading what was written -/

variable {max : Nat} {payload tail : List UInt8} {seq : UInt8} {a : Assembly}

theorem readFragments_header {len : Nat} {body : List UInt8} (hbody : body.length = len)
    (hlen : len ≤ maxPacket) (hmax : len ≤ max) :
    readFragments max (packetHeader len seq ++ body ++ tail) a =
      if len < maxPacket then .ok ((a.firstSeq.getD seq, a.out ++ body), tail)
      else readFragments max tail ⟨some (a.firstSeq.getD seq), a.out ++ body⟩ := by
  have hvalue : leValue (leBytes 3 len) = len := by
    rw [leValue_leBytes_mod, Nat.mod_eq_of_lt (Nat.lt_of_le_of_lt hlen (by decide))]
  have htake : (body ++ tail).take len = body := List.take_left' hbody
  have hdrop : (body ++ tail).drop len = tail := List.drop_left' hbody
  have hshort : ¬ (body ++ tail).length < len := by
    rw [List.length_append]
    omega
  change readFragments max (UInt8.ofNat len :: UInt8.ofNat (len / 256) ::
    UInt8.ofNat (len / 256 / 256) :: seq :: (body ++ tail)) a = _
  rw [readFragments]
  change leValue [UInt8.ofNat len, UInt8.ofNat (len / 256), UInt8.ofNat (len / 256 / 256)] = len
    at hvalue
  simp only [hvalue]
  rw [ if_neg (Nat.not_lt.mpr hmax), if_neg hshort, htake, hdrop]

theorem readFragments_terminator :
    readFragments max (packetHeader 0 seq ++ tail) a = .ok ((a.firstSeq.getD seq, a.out), tail) := by
  have h := @readFragments_header max tail seq a _ [] rfl (Nat.zero_le _) (Nat.zero_le _)
  rwa [if_pos (by decide), List.append_nil, List.append_nil] at h

theorem readFragments_writeFragments (hmax : maxPacket ≤ max) (hne : payload ≠ []) :
    ∀ a : Assembly, readFragments max ((writeFragments payload seq).1 ++ tail) a =
      .ok ((a.firstSeq.getD seq, a.out ++ payload), tail) := by
  induction payload, seq using writeFragments.induct with
  | case1 seq => exact absurd rfl hne
  | case2 payload seq _ chunk hlast =>
    intro a
    obtain ⟨hfull, hle⟩ := hlast
    have hall : payload.take chunk = payload := List.take_of_length_le hle
    have hlen : payload.length = chunk := by
      simp only [chunk] at hfull hle ⊢
      omega
    rw [writeFragments, if_neg hne, if_pos ⟨hfull, hle⟩]
    change readFragments max (packetHeader chunk seq ++ payload.take chunk ++
      packetHeader 0 (seq + 1) ++ tail) a = _
    rw [hall, List.append_assoc, readFragments_header hlen hfull.le (hfull.le.trans hmax),
      if_neg (by omega), readFragments_terminator]
    rfl
  | case3 payload seq _ chunk hmore ih =>
    intro a
    have hle : chunk ≤ maxPacket := min_le_right _ _
    have htake : (payload.take chunk).length = chunk := List.length_take_of_le (min_le_left _ _)
    rw [writeFragments, if_neg hne, if_neg hmore]
    change readFragments max (packetHeader chunk seq ++ payload.take chunk ++
      (writeFragments (payload.drop chunk) (seq + 1)).1 ++ tail) a = _
    rw [List.append_assoc, readFragments_header htake hle (hle.trans hmax)]
    by_cases hshort : chunk < maxPacket
    · -- The last fragment: the loop ends behind it.
      have hlen : payload.length ≤ chunk := by
        simp only [chunk] at hshort ⊢
        omega
      rw [if_pos hshort, List.take_of_length_le hlen, List.drop_eq_nil_of_le hlen, writeFragments,
        if_pos rfl]
      rfl
    · have hrest : payload.drop chunk ≠ [] := by
        have hlt : chunk < payload.length := by
          simp only [chunk] at hshort hmore ⊢
          omega
        rw [← List.length_pos_iff, List.length_drop]
        omega
      rw [if_neg hshort, ih hrest, List.append_assoc, List.take_append_drop]
      rfl

theorem readPacket_writePacket (hmax : maxPacket ≤ max) (payload : List UInt8) (seq : UInt8)
    (tail : List UInt8) :
    readPacket max ((writePacket payload seq).1 ++ tail) = .ok ((seq, payload), tail) := by
  rw [readPacket, writePacket]
  by_cases hempty : payload = []
  · rw [if_pos hempty, hempty]
    exact readFragments_terminator
  · rw [if_neg hempty]
    exact readFragments_writeFragments hmax hempty {}

/-- The payloads, each with the sequence number of its first fragment. -/
def numbered : List (List UInt8) → UInt8 → List (UInt8 × List UInt8)
  | [], _ => []
  | payload :: payloads, seq => (seq, payload) :: numbered payloads (writePacket payload seq).2

/-- Whatever the payloads, as many reads take back what the writes produced, and nothing
behind it. -/
theorem readPackets_writePackets (hmax : maxPacket ≤ max) (payloads : List (List UInt8))
    (seq : UInt8) (tail : List UInt8) :
    readPackets max payloads.length ((writePackets payloads seq).1 ++ tail) =
      .ok (numbered payloads seq, tail) := by
  induction payloads generalizing seq with
  | nil => rfl
  | cons payload payloads ih =>
    change readPackets max (payloads.length + 1) (((writePacket payload seq).1 ++
      (writePackets payloads (writePacket payload seq).2).1) ++ tail) = _
    rw [List.append_assoc, readPackets, readPacket_writePacket hmax]
    change (readPackets max payloads.length _ >>= _) = _
    rw [ih]
    rfl

/-- A payload of two fragments, then an empty one and a short one; the numbers wrap. -/
theorem readPackets_writePackets_split :
    maxPacket < (List.replicate (2 ^ 24) (1 : UInt8)).length ∧
      readPackets (16 * 1024 * 1024) [List.replicate (2 ^ 24) 1, [], [2, 3]].length
          ((writePackets [List.replicate (2 ^ 24) 1, [], [2, 3]] 254).1 ++ [7]) =
        .ok (numbered [List.replicate (2 ^ 24) 1, [], [2, 3]] 254, [7]) := by
  refine ⟨?_, readPackets_writePackets (by decide) [List.replicate (2 ^ 24) 1, [], [2, 3]] 254 [7]⟩
  rw [List.length_replicate]
  decide

/-! ## The limit -/

/-- While it reads a packet from the stream, `read_packet` holds `n` bytes of payload at
some time. -/
inductive Holds (max : Nat) : List UInt8 → Assembly → Nat → Prop
  | between {stream : List UInt8} {a : Assembly} : Holds max stream a a.out.length
  | arriving {b0 b1 b2 seq : UInt8} {rest : List UInt8} {a : Assembly} {k : Nat} :
      leValue [b0, b1, b2] ≤ max → k ≤ leValue [b0, b1, b2] → k ≤ rest.length →
      Holds max (b0 :: b1 :: b2 :: seq :: rest) a (a.out.length + k)
  | next {b0 b1 b2 seq : UInt8} {rest : List UInt8} {a : Assembly} {n : Nat} :
      leValue [b0, b1, b2] ≤ max → leValue [b0, b1, b2] ≤ rest.length →
      maxPacket ≤ leValue [b0, b1, b2] →
      Holds max (rest.drop (leValue [b0, b1, b2]))
        ⟨some (a.firstSeq.getD seq), a.out ++ rest.take (leValue [b0, b1, b2])⟩ n →
      Holds max (b0 :: b1 :: b2 :: seq :: rest) a n

/-- The limit bounds the packet at the front of the stream, and what is held of it
meanwhile. -/
def Capped (max : Nat) (stream : List UInt8) : Prop :=
  (∀ seq payload rest, readPacket max stream = .ok ((seq, payload), rest) → payload.length ≤ max) ∧
    ∀ n, Holds max stream {} n → n ≤ max

/-- The payload bytes of the packet at the front of the stream, as far as they are there. -/
def promised : List UInt8 → Nat
  | b0 :: b1 :: b2 :: _ :: rest =>
    let len := leValue [b0, b1, b2]
    if rest.length < len then rest.length
    else if len < maxPacket then len
    else len + promised (rest.drop len)
  | _ => 0
termination_by stream => stream.length
decreasing_by
  simp only [List.length_drop, List.length_cons]
  omega

/-- Three bytes hold no more than a full fragment. -/
theorem leValue_le_maxPacket (b0 b1 b2 : UInt8) : leValue [b0, b1, b2] ≤ maxPacket := by
  have h0 := b0.toNat_lt
  have h1 := b1.toNat_lt
  have h2 := b2.toNat_lt
  simp only [leValue, maxPacket]
  omega

/-- With a limit below a full fragment there is only one. -/
theorem Holds.le_of_lt {stream : List UInt8} {n : Nat} (h : Holds max stream a n)
    (hmax : max < maxPacket) : n ≤ a.out.length + max := by
  cases h with
  | between => exact Nat.le_add_right _ _
  | arriving hle hk _ => exact Nat.add_le_add_left (hk.trans hle) _
  | next hle _ hfull _ => omega

/-- Nothing is held but what the stream promises. -/
theorem Holds.le_promised {stream : List UInt8} {n : Nat} (h : Holds max stream a n) :
    n ≤ a.out.length + promised stream := by
  induction h with
  | between => exact Nat.le_add_right _ _
  | arriving hle hk hthere =>
    rw [promised]
    split_ifs <;> omega
  | next hle hthere hfull _ ih =>
    rw [promised, if_neg (by omega), if_neg (by omega)]
    rw [List.length_append, List.length_take_of_le hthere] at ih
    omega

/-- With a limit of a full fragment all of it is. -/
theorem holds_promised (hmax : maxPacket ≤ max) : ∀ (stream : List UInt8) (a : Assembly),
    Holds max stream a (a.out.length + promised stream) := by
  intro stream
  induction stream using promised.induct with
  | case1 b0 b1 b2 seq rest len hshort =>
    intro a
    rw [promised, if_pos hshort]
    exact .arriving ((leValue_le_maxPacket b0 b1 b2).trans hmax) hshort.le le_rfl
  | case2 b0 b1 b2 seq rest len hthere hlast =>
    intro a
    rw [promised, if_neg hthere, if_pos hlast]
    exact .arriving ((leValue_le_maxPacket b0 b1 b2).trans hmax) le_rfl (Nat.not_lt.mp hthere)
  | case3 b0 b1 b2 seq rest len hthere hfull ih =>
    intro a
    have hle : len ≤ rest.length := Nat.not_lt.mp hthere
    have hrest := ih ⟨some (a.firstSeq.getD seq), a.out ++ rest.take len⟩
    rw [List.length_append, List.length_take_of_le hle, Nat.add_assoc] at hrest
    rw [promised, if_neg hthere, if_neg hfull]
    exact .next ((leValue_le_maxPacket b0 b1 b2).trans hmax) hle (Nat.not_lt.mp hfull) hrest
  | case4 stream hnone =>
    intro a
    rw [promised]
    · exact .between
    · exact hnone

/-- What is returned was held. -/
theorem holds_payload (stream : List UInt8) (a : Assembly) : ∀ packet rest,
    readFragments max stream a = .ok (packet, rest) → Holds max stream a packet.2.length := by
  induction stream, a using readFragments.induct max with
  | case1 b0 b1 b2 seq rest a len hlarge =>
    intro _ _ h
    rw [readFragments, if_pos hlarge] at h
    cases h
  | case2 b0 b1 b2 seq rest a len hmax hshort =>
    intro _ _ h
    rw [readFragments, if_neg hmax, if_pos hshort] at h
    cases h
  | case3 b0 b1 b2 seq rest a len hmax hthere hlast =>
    intro _ _ h
    rw [readFragments, if_neg hmax, if_neg hthere, if_pos hlast] at h
    cases h
    rw [List.length_append, List.length_take_of_le (Nat.not_lt.mp hthere)]
    exact .arriving (Nat.not_lt.mp hmax) le_rfl (Nat.not_lt.mp hthere)
  | case4 b0 b1 b2 seq rest a len firstSeq hmax hthere out hfull ih =>
    intro _ _ h
    rw [readFragments, if_neg hmax, if_neg hthere, if_neg hfull] at h
    exact .next (Nat.not_lt.mp hmax) (Nat.not_lt.mp hthere) (Nat.not_lt.mp hfull) (ih _ _ h)
  | case5 stream a hnone =>
    intro _ _ h
    rw [readFragments] at h
    · cases h
    · exact hnone

/-- The limit bounds the command exactly where it is below a full fragment or where the
fragments of the packet keep to it together. -/
theorem capped_iff (max : Nat) (stream : List UInt8) :
    Capped max stream ↔ max < maxPacket ∨ promised stream ≤ max := by
  constructor
  · intro h
    rcases Nat.lt_or_ge max maxPacket with hlt | hge
    · exact .inl hlt
    · have hheld := h.2 _ (holds_promised hge stream {})
      rw [List.length_nil, Nat.zero_add] at hheld
      exact .inr hheld
  · intro h
    have hheld : ∀ n, Holds max stream {} n → n ≤ max := by
      intro n hn
      rcases h with hlt | hle
      · exact (hn.le_of_lt hlt).trans (Nat.zero_add max).le
      · exact hn.le_promised.trans ((Nat.zero_add _).le.trans hle)
    exact ⟨fun seq payload rest hread => hheld _ (holds_payload stream {} _ rest hread), hheld⟩

/-- A payload above the limit that is sent in fragments is read. -/
theorem not_capped_writePacket (hmax : maxPacket ≤ max) (hlong : max < payload.length)
    (seq : UInt8) : ¬ Capped max (writePacket payload seq).1 := by
  intro h
  have hread := readPacket_writePacket hmax payload seq []
  rw [List.append_nil] at hread
  exact absurd (h.1 _ _ _ hread) (Nat.not_le.mpr hlong)

/-- One byte more than the limit that the server gives. -/
theorem not_capped_server :
    ¬ Capped (16 * 1024 * 1024) (writePacket (List.replicate (16 * 1024 * 1024 + 1) 0) 0).1 :=
  not_capped_writePacket (by decide) (by rw [List.length_replicate]; decide) 0

end HenchDB.Wire
