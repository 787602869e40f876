import HenchDB.Lib.Outcome
import HenchDB.Wal.Record

/-!
# The log file

A log is a header and frames: length, checksum and payload of a record.  A
scan stops where the bytes run out inside a frame, and fails on a length out of
range, a checksum that does not match or a payload that does not decode.

`scan_take` is the one fact everything else uses: of a log of readable records cut
at any byte the scan returns exactly the records whose frames are whole.
-/

namespace HenchDB.Wal

open Codec

/-! ## Checksums -/

/-- One entry of the table of `crc32`. -/
def crcEntry (i : UInt32) : UInt32 :=
  (List.range 8).foldl
    (fun (c : UInt32) _ => if c &&& 1 ≠ 0 then (0xEDB88320 : UInt32) ^^^ (c >>> 1) else c >>> 1) i

def crc32 (data : Bytes) : UInt32 :=
  data.foldl (fun (crc : UInt32) b => crcEntry ((crc ^^^ b.toUInt32) &&& 0xFF) ^^^ (crc >>> 8))
    0xFFFFFFFF ^^^ 0xFFFFFFFF

/-! ## Frames -/

/-- `encode_record`: length, checksum, payload. -/
def frame (r : Record) : Bytes :=
  putU32 (encodePayload r).length ++ (putU32 (crc32 (encodePayload r)).toNat ++ encodePayload r)

/-- The frames of records one after the other. -/
def frames (rs : List Record) : Bytes := rs.flatMap frame

/-- The loop of `read_all` and `decode_wal_range`: the records, and the bytes
left where the scan stopped.  Every frame takes bytes, so the length of the
input is fuel enough. -/
def scanFrames (legacyCols : Bool) : Nat → Bytes → Except Error (List Record × Bytes)
  | 0, data => .ok ([], data)
  | fuel + 1, data =>
    if data.length < 8 then .ok ([], data)
    else if leValue (data.take 4) > 2 ^ 30 then .error (.corrupted "WAL record too large")
    else if (data.drop 8).length < leValue (data.take 4) then .ok ([], data)
    else if (crc32 ((data.drop 8).take (leValue (data.take 4)))).toNat ≠
        leValue ((data.drop 4).take 4) then
      .error (.corrupted "WAL crc mismatch")
    else
      match (decodeRecord legacyCols).run ((data.drop 8).take (leValue (data.take 4))) with
      | .error e => .error e
      | .ok (r, _) =>
        (scanFrames legacyCols fuel ((data.drop 8).drop (leValue (data.take 4)))).map
          fun (rs, rest) => (r :: rs, rest)

/-- `Wal::decode_wal_range`, with the bytes it does not consume. -/
def decodeWalRange (legacyCols : Bool) (data : Bytes) : Except Error (List Record × Bytes) :=
  scanFrames legacyCols data.length data

/-- `WAL_MAGIC` and `WAL_FORMAT_VERSION`. -/
def header : Bytes := utf8 "HDBW" ++ putU32 4

def readAll (file : Bytes) : Except Error (List Record) :=
  if file.length < 4 then .error (.io "failed to fill whole buffer")
  else if file.take 4 ≠ utf8 "HDBW" then .error (.corrupted "bad WAL magic")
  else if (file.drop 4).length < 4 then .error (.io "failed to fill whole buffer")
  else
    let version := leValue ((file.drop 4).take 4)
    if version < 1 ∨ version > 4 then .error (.corrupted s!"WAL version {version}")
    else (decodeWalRange (version < 3) (file.drop 8)).map Prod.fst

/-! ## Scanning kept records -/

variable {r : Record} {rs rs' : List Record} {fuel n : Nat} {rest : Bytes}

theorem length_frame : (frame r).length = 8 + (encodePayload r).length := by
  simp [frame, putU32]
  omega

/-- A scan takes the frame of a record that is not too large to its payload,
whatever follows. -/
theorem scanFrames_payload (hsize : (encodePayload r).length ≤ 2 ^ 30) :
    scanFrames false (fuel + 1) (frame r ++ rest) =
      (decodeRecord false).run (encodePayload r) >>= fun x =>
        (scanFrames false fuel rest).map fun (rs, left) => (x.1 :: rs, left) := by
  have hlen : leValue (putU32 (encodePayload r).length) = (encodePayload r).length :=
    leValue_leBytes (by show _ < 256 ^ 4; omega)
  have hcrc : leValue (putU32 (crc32 (encodePayload r)).toNat) = (crc32 (encodePayload r)).toNat :=
    leValue_leBytes (UInt32.toNat_lt _)
  have hfour : ∀ n, (putU32 n).length = 4 := length_leBytes 4
  have hshape : frame r ++ rest = putU32 (encodePayload r).length ++
      (putU32 (crc32 (encodePayload r)).toNat ++ (encodePayload r ++ rest)) := by
    simp [frame]
  have htake : (frame r ++ rest).take 4 = putU32 (encodePayload r).length := by
    rw [hshape, List.take_left' (hfour _)]
  have hdrop : (frame r ++ rest).drop 4 =
      putU32 (crc32 (encodePayload r)).toNat ++ (encodePayload r ++ rest) := by
    rw [hshape, List.drop_left' (hfour _)]
  have hbody : (frame r ++ rest).drop 8 = encodePayload r ++ rest := by
    rw [show 8 = 4 + 4 from rfl, ← List.drop_drop, hdrop, List.drop_left' (hfour _)]
  rw [scanFrames, htake, hdrop, hbody, hlen, List.take_left' rfl, List.drop_left' rfl,
    List.take_left' (hfour _), hcrc, if_neg (by rw [List.length_append, length_frame]; omega),
    if_neg (by omega), if_neg (by simp), if_neg (by simp)]
  rcases (decodeRecord false).run (encodePayload r) with e | ⟨x, left⟩
  · rfl
  · rfl

/-- A record that the scan reads back from its frame. -/
structure Reread (r : Record) : Prop where
  size : (encodePayload r).length ≤ 2 ^ 30
  payload : (decodeRecord false).run (encodePayload r) = .ok (r, [])

theorem RecordKept.reread (h : RecordKept r) : Reread r where
  size := h.size
  payload := by simpa using reads_record h []

/-- The frame of such a record is read, whatever follows. -/
theorem scanFrames_frame (h : Reread r) :
    scanFrames false (fuel + 1) (frame r ++ rest) =
      (scanFrames false fuel rest).map fun (rs, left) => (r :: rs, left) := by
  rw [scanFrames_payload h.size, h.payload]
  rfl

/-- The length field of a frame that was cut behind it. -/
theorem leValue_take_frame (rest : Bytes) (hsize : (encodePayload r).length < 2 ^ 32) (hn : 4 ≤ n) :
    leValue (((frame r ++ rest).take n).take 4) = (encodePayload r).length := by
  have htake : (frame r ++ rest).take 4 = putU32 (encodePayload r).length := by
    rw [frame, List.append_assoc]
    exact List.take_left' (length_leBytes 4 _)
  rw [List.take_take, Nat.min_eq_left hn, htake]
  exact leValue_leBytes (by show _ < 256 ^ 4; omega)

theorem scanFrames_torn (hsize : (encodePayload r).length ≤ 2 ^ 30) (hn : n < (frame r).length) :
    scanFrames false fuel ((frame r).take n) = .ok ([], (frame r).take n) := by
  have hframe : (frame r).length = 8 + (encodePayload r).length := length_frame
  cases fuel with
  | zero => rfl
  | succ fuel =>
    rw [scanFrames]
    have hlength : ((frame r).take n).length = n := by
      rw [List.length_take]
      omega
    by_cases h8 : n < 8
    · rw [if_pos (by omega)]
    · have hlen := leValue_take_frame (r := r) (n := n) [] (by omega) (by omega)
      rw [List.append_nil] at hlen
      rw [hlen, if_neg (by omega), if_neg (by omega), if_pos]
      rw [List.length_drop, hlength]
      omega

/-- A frame that is too large stops the scan as soon as its header is there. -/
theorem scanFrames_oversize (fuel : Nat) (rest : Bytes) (hlarge : 2 ^ 30 < (encodePayload r).length)
    (hsize : (encodePayload r).length < 2 ^ 32) (hn : 8 ≤ n) :
    scanFrames false (fuel + 1) ((frame r ++ rest).take n) =
      .error (.corrupted "WAL record too large") := by
  have hlength : ¬ ((frame r ++ rest).take n).length < 8 := by
    rw [List.length_take, List.length_append, length_frame]
    omega
  rw [scanFrames, if_neg hlength, leValue_take_frame rest hsize (by omega), if_pos (by omega)]

/-- The records whose frames are whole in the first `n` bytes. -/
def wholeRecords : List Record → Nat → List Record
  | [], _ => []
  | r :: rs, n => if (frame r).length ≤ n then r :: wholeRecords rs (n - (frame r).length) else []

/-- The bytes behind the last whole frame in the first `n` bytes. -/
def tornBytes (rs : List Record) (n : Nat) : Bytes :=
  ((frames rs).take n).drop (frames (wholeRecords rs n)).length

theorem wholeRecords_prefix : ∀ (rs : List Record) (n : Nat), wholeRecords rs n <+: rs
  | [], _ => List.prefix_rfl
  | r :: rs, n => by
    unfold wholeRecords
    split
    · exact List.prefix_cons_iff.mpr (Or.inr ⟨_, rfl, wholeRecords_prefix rs _⟩)
    · exact List.nil_prefix

theorem frames_cons : frames (r :: rs) = frame r ++ frames rs := rfl

theorem frames_append : frames (rs ++ rs') = frames rs ++ frames rs' := List.flatMap_append

theorem take_frames (rs : List Record) (n : Nat) :
    (frames rs).take n = frames (wholeRecords rs n) ++ tornBytes rs n := by
  have hprefix : frames (wholeRecords rs n) <+: (frames rs).take n := by
    induction rs generalizing n with
    | nil => exact List.nil_prefix
    | cons r rs ih =>
      unfold wholeRecords
      split
      · next hle =>
        rw [frames_cons, frames_cons, List.take_append, List.take_of_length_le hle]
        exact List.prefix_append_right_inj _ |>.mpr (ih _)
      · exact List.nil_prefix
  obtain ⟨t, ht⟩ := hprefix
  rw [tornBytes, ← ht, List.drop_left' rfl]

/-- Cut at any byte, a log of such records yields its whole frames. -/
theorem scan_take (hread : ∀ r ∈ rs, Reread r) (n : Nat)
    (hfuel : (wholeRecords rs n).length ≤ fuel) :
    scanFrames false fuel ((frames rs).take n) = .ok (wholeRecords rs n, tornBytes rs n) := by
  induction rs generalizing fuel n with
  | nil =>
    cases fuel <;> simp [frames, scanFrames, wholeRecords, tornBytes]
  | cons r rs ih =>
    have hr := hread r (by simp)
    by_cases hle : (frame r).length ≤ n
    · have htake : (frames (r :: rs)).take n =
          frame r ++ (frames rs).take (n - (frame r).length) := by
        rw [frames_cons, List.take_append, List.take_of_length_le hle]
      have hwhole : wholeRecords (r :: rs) n =
          r :: wholeRecords rs (n - (frame r).length) := by
        rw [wholeRecords, if_pos hle]
      have htorn : tornBytes (r :: rs) n = tornBytes rs (n - (frame r).length) := by
        rw [tornBytes, hwhole, htake, frames_cons, List.length_append, ← List.drop_drop,
          List.drop_left' rfl]
        rfl
      rw [hwhole, List.length_cons] at hfuel
      obtain ⟨fuel, rfl⟩ : ∃ m, fuel = m + 1 := ⟨fuel - 1, by omega⟩
      rw [htake, scanFrames_frame hr, hwhole, htorn,
        ih (fun r hr => hread r (by simp [hr])) _ (by omega)]
      rfl
    · have htake : (frames (r :: rs)).take n = (frame r).take n := by
        rw [frames_cons, List.take_append, Nat.sub_eq_zero_of_le (by omega), List.take_zero,
          List.append_nil]
      have hwhole : wholeRecords (r :: rs) n = [] := by rw [wholeRecords, if_neg hle]
      have htorn : tornBytes (r :: rs) n = (frame r).take n := by
        rw [tornBytes, hwhole, htake]
        rfl
      rw [htake, scanFrames_torn hr.size (by omega), hwhole, htorn]

theorem length_frames_whole (rs : List Record) (n : Nat) :
    (frames (wholeRecords rs n)).length ≤ n := by
  have h := congrArg List.length (take_frames rs n)
  rw [List.length_append, List.length_take] at h
  omega

/-- Behind a prefix of the records nothing changes within the prefix. -/
theorem wholeRecords_append_of_le : ∀ {rs : List Record} (rs' : List Record) {n : Nat},
    n ≤ (frames rs).length → wholeRecords (rs ++ rs') n = wholeRecords rs n
  | [], rs', n, h => by
    obtain rfl : n = 0 := by simpa [frames] using h
    cases rs' with
    | nil => rfl
    | cons r rs' =>
      show (if (frame r).length ≤ 0 then _ else []) = _
      rw [if_neg (by rw [length_frame]; omega)]
      rfl
  | r :: rs, rs', n, h => by
    rw [frames_cons, List.length_append] at h
    rw [List.cons_append, wholeRecords, wholeRecords]
    split
    · rw [wholeRecords_append_of_le rs' (by omega)]
    · rfl

theorem wholeRecords_append_of_ge : ∀ {rs : List Record} (rs' : List Record) {n : Nat},
    (frames rs).length ≤ n →
      wholeRecords (rs ++ rs') n = rs ++ wholeRecords rs' (n - (frames rs).length)
  | [], rs', n, _ => rfl
  | r :: rs, rs', n, h => by
    rw [frames_cons, List.length_append] at h
    rw [List.cons_append, wholeRecords, if_pos (by omega),
      wholeRecords_append_of_ge rs' (by omega), frames_cons, List.length_append, Nat.sub_add_eq]
    rfl

theorem wholeRecords_of_le (h : (frames rs).length ≤ n) : wholeRecords rs n = rs := by
  have := wholeRecords_append_of_ge [] h
  rwa [List.append_nil, wholeRecords, List.append_nil] at this

/-- Every frame takes at least one byte. -/
theorem length_le_frames : ∀ rs : List Record, rs.length ≤ (frames rs).length
  | [] => le_rfl
  | r :: rs => by
    have := length_le_frames rs
    rw [frames_cons, List.length_append, List.length_cons, length_frame]
    omega

theorem length_wholeRecords_le (rs : List Record) (n : Nat) :
    (wholeRecords rs n).length ≤ ((frames rs).take n).length := by
  rw [take_frames, List.length_append]
  have := length_le_frames (wholeRecords rs n)
  omega

theorem decodeWalRange_take (hread : ∀ r ∈ rs, Reread r) (n : Nat) :
    decodeWalRange false ((frames rs).take n) = .ok (wholeRecords rs n, tornBytes rs n) :=
  scan_take hread n (length_wholeRecords_le rs n)

theorem length_header : header.length = 8 := by decide +kernel

/-- What stands behind the header is scanned. -/
theorem readAll_header (body : Bytes) :
    readAll (header ++ body) = (decodeWalRange false body).map Prod.fst := by
  have hmagic : (header ++ body).take 4 = utf8 "HDBW" := by
    rw [List.take_append_of_le_length (by decide +kernel)]
    decide +kernel
  have hversion : leValue (((header ++ body).drop 4).take 4) = 4 := by
    rw [List.drop_append_of_le_length (by decide +kernel),
      List.take_append_of_le_length (by decide +kernel)]
    decide +kernel
  have hlong : 8 ≤ (header ++ body).length := by
    rw [List.length_append, length_header]
    omega
  rw [readAll, if_neg (by omega), if_neg (by simp [hmagic]),
    if_neg (by rw [List.length_drop]; omega), hversion, List.drop_left' length_header]
  simp

/-- Reading a log of kept records that was cut behind its header. -/
theorem readAll_take (hkept : ∀ r ∈ rs, RecordKept r) (hn : header.length ≤ n) :
    readAll ((header ++ frames rs).take n) = .ok (wholeRecords rs (n - header.length)) := by
  rw [List.take_append, List.take_of_length_le hn, readAll_header,
    decodeWalRange_take fun r hr => (hkept r hr).reread]
  rfl

/-! ## Scanning any records -/

/-- The record as it is read from its payload: `BOOL`, `DATETIME` and `TIMESTAMP`
columns come back as other types. -/
def readBack (r : Record) : Record :=
  match (decodeRecord false).run (encodePayload r) with
  | .ok (r', _) => r'
  | .error _ => r

theorem readBack_of_kept (h : RecordKept r) : readBack r = r := by
  rw [readBack, h.reread.payload]

/-- The first bytes of a payload are the kind and the transaction. -/
theorem decodeRecord_head {k : UInt8} {txn : Nat} {body : Bytes} (htxn : txn < 2 ^ 64)
    (h : (decodeRecord false).run (k :: (putU64 txn ++ body)) = .ok (r, rest)) :
    r.txnOf = txn ∧ (r.isCommit = true ↔ k = 3) := by
  rw [← List.singleton_append, decodeRecord, (reads_takeByte k _).run_bind,
    (reads_txn htxn).run_bind] at h
  have hP : ∀ d : Decoder Error Record, d.run body = .ok (r, rest) →
      Yields d (fun r => r.txnOf = txn ∧ (r.isCommit = true ↔ k = 3)) →
        r.txnOf = txn ∧ (r.isCommit = true ↔ k = 3) := fun d hd hyields => hyields _ _ _ hd
  refine hP _ h ?_
  split
  · exact Yields.trivial.bind fun _ _ => Yields.trivial.bind fun _ _ => Yields.trivial.bind fun _ _ =>
      .pure ⟨rfl, by simp [Record.isCommit]⟩
  · exact Yields.trivial.bind fun _ _ => Yields.trivial.bind fun _ _ =>
      .pure ⟨rfl, by simp [Record.isCommit]⟩
  · exact Yields.trivial.bind fun _ _ => .pure ⟨rfl, by simp [Record.isCommit]⟩
  · exact Yields.trivial.bind fun _ _ => .pure ⟨rfl, by simp [Record.isCommit]⟩
  · exact Yields.trivial.bind fun _ _ => .pure ⟨rfl, by simp [Record.isCommit]⟩
  · exact Yields.trivial.bind fun _ _ => Yields.trivial.bind fun _ _ => Yields.trivial.bind fun _ _ =>
      .pure ⟨rfl, by simp [Record.isCommit]⟩
  · exact Yields.trivial.bind fun _ _ => Yields.trivial.bind fun _ _ =>
      .pure ⟨rfl, by simp [Record.isCommit]⟩
  · exact Yields.trivial.bind fun _ _ => .pure ⟨rfl, by simp [Record.isCommit]⟩
  · exact Yields.trivial.bind fun _ _ => .pure ⟨rfl, by simp [Record.isCommit]⟩
  · exact .throw

/-- A record comes back under its transaction, and a `Commit` as a `Commit`. -/
theorem readBack_head (htxn : r.txnOf < 2 ^ 64) :
    (readBack r).txnOf = r.txnOf ∧ (readBack r).isCommit = r.isCommit := by
  unfold readBack
  split
  · next r' rest hrun =>
    rw [Bool.eq_iff_iff]
    cases r with
    | commit txn ts => simpa [Record.isCommit] using decodeRecord_head htxn hrun
    | _ => simpa [Record.isCommit] using decodeRecord_head htxn hrun
  · exact ⟨rfl, rfl⟩

/-- What a scan of any records that were cut returns, if it returns. -/
theorem scan_take_ok {left : Bytes} {out : List Record}
    (hsmall : ∀ r ∈ rs, (encodePayload r).length < 2 ^ 32) (n : Nat)
    (hfuel : (wholeRecords rs n).length ≤ fuel)
    (h : scanFrames false fuel ((frames rs).take n) = .ok (out, left)) :
    out = (wholeRecords rs n).map readBack := by
  induction rs generalizing fuel n out left with
  | nil =>
    cases fuel <;> simp_all [frames, scanFrames, wholeRecords]
  | cons r rs ih =>
    have hr := hsmall r (by simp)
    by_cases hle : (frame r).length ≤ n
    · have htake : (frames (r :: rs)).take n =
          frame r ++ (frames rs).take (n - (frame r).length) := by
        rw [frames_cons, List.take_append, List.take_of_length_le hle]
      rw [wholeRecords, if_pos hle] at hfuel ⊢
      rw [List.length_cons] at hfuel
      obtain ⟨fuel, rfl⟩ : ∃ m, fuel = m + 1 := ⟨fuel - 1, by omega⟩
      by_cases hlarge : 2 ^ 30 < (encodePayload r).length
      · rw [frames_cons, scanFrames_oversize fuel _ hlarge hr
          (by rw [length_frame] at hle; omega)] at h
        cases h
      · rw [htake, scanFrames_payload (by omega)] at h
        obtain ⟨x, hx, h⟩ := Outcome.bind_ok h
        rw [List.map_cons, readBack, hx]
        cases hrest : scanFrames false fuel ((frames rs).take (n - (frame r).length)) with
        | error e =>
          rw [hrest] at h
          cases h
        | ok y =>
          rw [hrest] at h
          cases h
          refine congrArg _ (ih (fun r hr => hsmall r (by simp [hr])) _ ?_ hrest)
          omega
    · have htake : (frames (r :: rs)).take n = (frame r).take n := by
        rw [frames_cons, List.take_append, Nat.sub_eq_zero_of_le (by omega), List.take_zero,
          List.append_nil]
      rw [wholeRecords, if_neg hle]
      cases fuel with
      | zero => exact (Prod.mk.inj (Except.ok.inj h)).1.symm
      | succ fuel =>
        by_cases hlarge : 2 ^ 30 < (encodePayload r).length
        · by_cases hn : 8 ≤ n
          · rw [frames_cons, scanFrames_oversize fuel _ hlarge hr hn] at h
            cases h
          · rw [htake, scanFrames, if_pos (by rw [List.length_take]; omega)] at h
            exact (Prod.mk.inj (Except.ok.inj h)).1.symm
        · rw [htake, scanFrames_torn (by omega) (by omega)] at h
          exact (Prod.mk.inj (Except.ok.inj h)).1.symm

theorem scanFrames_long (legacyCols : Bool) (fuel : Nat) {data : Bytes} (h : ¬ data.length < 8) :
    scanFrames legacyCols (fuel + 1) data =
      if leValue (data.take 4) > 2 ^ 30 then .error (.corrupted "WAL record too large")
      else if (data.drop 8).length < leValue (data.take 4) then .ok ([], data)
      else if (crc32 ((data.drop 8).take (leValue (data.take 4)))).toNat ≠
          leValue ((data.drop 4).take 4) then
        .error (.corrupted "WAL crc mismatch")
      else
        match (decodeRecord legacyCols).run ((data.drop 8).take (leValue (data.take 4))) with
        | .error e => .error e
        | .ok (r, _) =>
          (scanFrames legacyCols fuel ((data.drop 8).drop (leValue (data.take 4)))).map
            fun (rs, rest) => (r :: rs, rest) := by
  rw [scanFrames, if_neg h]

/-- A scan goes on with what it has left and the bytes behind it, and one that
fails fails. -/
theorem scanFrames_resume {legacyCols : Bool} (tail : Bytes) :
    ∀ {fuel fuel' : Nat} {data : Bytes}, data.length ≤ fuel → data.length + tail.length ≤ fuel' →
      (∀ e, scanFrames legacyCols fuel data = .error e →
        scanFrames legacyCols fuel' (data ++ tail) = .error e) ∧
      ∀ rs left, scanFrames legacyCols fuel data = .ok (rs, left) →
        ∃ fuel'', (left ++ tail).length ≤ fuel'' ∧
          scanFrames legacyCols fuel' (data ++ tail) =
            (scanFrames legacyCols fuel'' (left ++ tail)).map fun x => (rs ++ x.1, x.2) := by
  -- A scan that stops at once has everything left.
  have hstop : ∀ {fuel' : Nat} {data : Bytes} (rs left), (.ok ([], data) : Except Error _) =
      .ok (rs, left) → data.length + tail.length ≤ fuel' → ∃ fuel'', (left ++ tail).length ≤ fuel'' ∧
        scanFrames legacyCols fuel' (data ++ tail) =
          (scanFrames legacyCols fuel'' (left ++ tail)).map fun x => (rs ++ x.1, x.2) := by
    intro fuel' data rs left hrs hfuel'
    cases hrs
    refine ⟨fuel', by rwa [List.length_append], ?_⟩
    cases scanFrames legacyCols fuel' (data ++ tail) <;> rfl
  intro fuel
  induction fuel with
  | zero =>
    exact fun _ hfuel' => ⟨fun e he => by (cases he), fun rs left hrs => hstop rs left hrs hfuel'⟩
  | succ fuel ih =>
    intro fuel' data hfuel hfuel'
    by_cases hshort : data.length < 8
    · rw [scanFrames, if_pos hshort]
      exact ⟨fun e he => by (cases he), fun rs left hrs => hstop rs left hrs hfuel'⟩
    · obtain ⟨fuel', rfl⟩ : ∃ m, fuel' = m + 1 := ⟨fuel' - 1, by omega⟩
      have htake : (data ++ tail).take 4 = data.take 4 := List.take_append_of_le_length (by omega)
      have hcrc : ((data ++ tail).drop 4).take 4 = (data.drop 4).take 4 := by
        rw [List.drop_append_of_le_length (by omega), List.take_append_of_le_length (by simp; omega)]
      have hbody : (data ++ tail).drop 8 = data.drop 8 ++ tail :=
        List.drop_append_of_le_length (by omega)
      have hgo := @scanFrames_long legacyCols fuel' (data ++ tail) (by simp; omega)
      rw [htake, hcrc, hbody] at hgo
      rw [scanFrames_long legacyCols fuel hshort]
      by_cases hlarge : leValue (data.take 4) > 2 ^ 30
      · rw [if_pos hlarge] at hgo ⊢
        rw [hgo]
        exact ⟨fun e he => he, fun rs left hrs => by (cases hrs)⟩
      rw [if_neg hlarge] at hgo ⊢
      by_cases hcut : (data.drop 8).length < leValue (data.take 4)
      · rw [if_pos hcut]
        exact ⟨fun e he => by (cases he), fun rs left hrs => hstop rs left hrs hfuel'⟩
      · have hcut' : ¬ (data.drop 8 ++ tail).length < leValue (data.take 4) := by
          rw [List.length_append]
          omega
        rw [if_neg hcut', List.take_append_of_le_length (by omega),
          List.drop_append_of_le_length (by omega)] at hgo
        rw [if_neg hcut, hgo]
        by_cases hsum : (crc32 ((data.drop 8).take (leValue (data.take 4)))).toNat ≠
            leValue ((data.drop 4).take 4)
        · rw [if_pos hsum, if_pos hsum]
          exact ⟨fun e he => he, fun rs left hrs => by (cases hrs)⟩
        rw [if_neg hsum, if_neg hsum]
        cases hrun : (decodeRecord legacyCols).run ((data.drop 8).take (leValue (data.take 4))) with
        | error e => exact ⟨fun e he => he, fun rs left hrs => by (cases hrs)⟩
        | ok x =>
          obtain ⟨herr, hok⟩ := @ih fuel' ((data.drop 8).drop (leValue (data.take 4)))
            (by simp only [List.length_drop]; omega) (by simp only [List.length_drop]; omega)
          dsimp only
          cases hscan : scanFrames legacyCols fuel ((data.drop 8).drop (leValue (data.take 4))) with
          | error e =>
            rw [herr e hscan]
            exact ⟨fun e he => he, fun rs left hrs => by (cases hrs)⟩
          | ok y =>
            refine ⟨fun e he => by (cases he), fun rs left hrs => ?_⟩
            cases hrs
            obtain ⟨fuel'', hle, hgo⟩ := hok y.1 y.2 hscan
            refine ⟨fuel'', hle, ?_⟩
            rw [hgo]
            cases scanFrames legacyCols fuel'' (y.2 ++ tail) <;> rfl

theorem decodeWalRange_append {legacyCols : Bool} {data : Bytes} (tail : Bytes) :
    (∀ e, decodeWalRange legacyCols data = .error e →
      decodeWalRange legacyCols (data ++ tail) = .error e) ∧
    ∀ rs left, decodeWalRange legacyCols data = .ok (rs, left) →
      ∃ fuel, (left ++ tail).length ≤ fuel ∧ decodeWalRange legacyCols (data ++ tail) =
        (scanFrames legacyCols fuel (left ++ tail)).map fun x => (rs ++ x.1, x.2) :=
  scanFrames_resume tail le_rfl (by rw [List.length_append])

/-- A record is read from the first frame. -/
def startsRecord (data : Bytes) : Bool :=
  match scanFrames false 1 data with
  | .ok (_ :: _, _) => true
  | _ => false

theorem startsRecord_of_scan {data left : Bytes}
    (h : scanFrames false fuel data = .ok (r :: rs, left)) (tail : Bytes) :
    startsRecord (data ++ tail) = true := by
  obtain _ | fuel := fuel
  · cases h
  by_cases hshort : data.length < 8
  · rw [scanFrames, if_pos hshort] at h
    cases h
  have hgo := @scanFrames_long false 0 (data ++ tail) (by simp; omega)
  rw [scanFrames_long false fuel hshort] at h
  rw [List.take_append_of_le_length (by omega : 4 ≤ data.length),
    List.drop_append_of_le_length (by omega : 4 ≤ data.length),
    List.take_append_of_le_length (by simp; omega : 4 ≤ (data.drop 4).length),
    List.drop_append_of_le_length (by omega : 8 ≤ data.length)] at hgo
  split at h
  · cases h
  · next hsmall =>
    split at h
    · cases h
    · next hwhole =>
      rw [if_neg hsmall, if_neg (by rw [List.length_append]; omega),
        List.take_append_of_le_length (by omega)] at hgo
      split at h
      · cases h
      · next hsum =>
        rw [if_neg hsum] at hgo
        cases hrun : (decodeRecord false).run ((data.drop 8).take (leValue (data.take 4))) with
        | error e =>
          rw [hrun] at h
          cases h
        | ok x =>
          rw [hrun] at hgo
          rw [startsRecord, hgo]
          rfl

/-- Where the first frame is not read, nothing is read of the bytes, and of no
first part of them. -/
theorem scan_of_not_startsRecord {data tail left : Bytes} {out : List Record}
    (hstart : startsRecord (data ++ tail) = false) (n : Nat)
    (h : scanFrames false fuel (data ++ tail.take n) = .ok (out, left)) :
    out = [] ∧ left = data ++ tail.take n := by
  cases out with
  | cons r rs =>
    have hread := startsRecord_of_scan h (tail.drop n)
    rw [List.append_assoc, List.take_append_drop, hstart] at hread
    cases hread
  | nil =>
    obtain _ | fuel := fuel
    · exact ⟨rfl, (Prod.mk.inj (Except.ok.inj h)).2.symm⟩
    · rw [scanFrames] at h
      split at h
      · exact ⟨rfl, (Prod.mk.inj (Except.ok.inj h)).2.symm⟩
      · split at h
        · cases h
        · split at h
          · exact ⟨rfl, (Prod.mk.inj (Except.ok.inj h)).2.symm⟩
          · split at h
            · cases h
            · split at h
              · cases h
              · cases hrest : scanFrames false fuel
                    (((data ++ tail.take n).drop 8).drop (leValue ((data ++ tail.take n).take 4))) with
                | error e =>
                  rw [hrest] at h
                  cases h
                | ok y =>
                  rw [hrest] at h
                  cases h

end HenchDB.Wal
