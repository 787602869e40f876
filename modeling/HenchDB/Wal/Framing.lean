import HenchDB.Wal.Log

/-!
# Framing of a record stream

A reader takes the stream in pieces: what `decode_wal_range` does not consume of
one piece is put in front of the next.  Cut at any byte, the stream yields the
records that lie wholly in front of the cut, however it was divided.

`encode_record` frames a payload of any length, and the readers refuse one that
is longer than `2 ^ 30` bytes.  Such a record is also lost when its length does
not fit the length field: the reader then takes a part of the payload for the
whole.  `framed_iff` says that these are the only records that break framing.
-/

namespace HenchDB.Wal

open Codec

/-! ## Reading a stream in pieces -/

/-- `Wal::decode_wal_range`: the records and the number of bytes consumed. -/
def decodeRange (data : Bytes) : Except Error (List Record × Nat) :=
  (decodeWalRange false data).map fun (rs, left) => (rs, data.length - left.length)

/-- The pieces one after the other, each behind what was left of those before. -/
def feed (carry : Bytes) : List Bytes → Except Error (List Record × Bytes)
  | [] => .ok ([], carry)
  | piece :: pieces => do
    let (rs, consumed) ← decodeRange (carry ++ piece)
    let (rest, left) ← feed ((carry ++ piece).drop consumed) pieces
    return (rs ++ rest, left)

/-- The numbers of a record are `u64`. -/
def Typed : Record → Prop
  | .commit txn ts => txn < 2 ^ 64 ∧ ∀ n ∈ ts, n < 2 ^ 64
  | r => r.txnOf < 2 ^ 64

def Plain : Record → Prop
  | .createTable _ _ => False
  | _ => True

/-- The stream of the records is read back as it was written. -/
structure Framed (rs : List Record) : Prop where
  /-- Every record is read back from its payload, of which nothing is left. -/
  payload : ∀ r ∈ rs, (decodeRecord false).run (encodePayload r) = .ok (r, [])
  /-- Cut anywhere, the stream yields the records in front of the cut. -/
  cut : ∀ n, decodeRange ((frames rs).take n) =
    .ok (wholeRecords rs n, (frames (wholeRecords rs n)).length)
  /-- So it does when what is in front of the cut arrives in pieces. -/
  pieces : ∀ (n : Nat) (pieces : List Bytes), pieces.flatten = (frames rs).take n →
    feed [] pieces = .ok (wholeRecords rs n, tornBytes rs n)

/-! ## Records that fit -/

variable {r : Record} {rs : List Record} {n : Nat}

theorem reread_of_le (htyped : Typed r) (hplain : Plain r)
    (hsize : (encodePayload r).length ≤ 2 ^ 30) : Reread r := by
  cases r with
  | createTable txn x => exact hplain.elim
  | commit txn ts =>
    obtain ⟨htxn, hts⟩ := htyped
    cases ts with
    | some n =>
      refine RecordKept.reread ⟨htxn, hsize, ?_, ?_⟩
      · rintro _ _ ⟨⟩
        exact ⟨n, hts n rfl, rfl⟩
      · rintro _ _ ⟨⟩
    | none =>
      -- the time is taken to be missing because nothing is left of the payload
      refine ⟨hsize, ?_⟩
      have hkind : Reads (takeByte (Error.corrupted "record: EOF")) [3] 3 := reads_takeByte 3 _
      calc (decodeRecord false).run ([3] ++ (putU64 txn ++ []))
          = _ := hkind.run_bind _
        _ = _ := (reads_txn htxn).run_bind []
        _ = .ok (.commit txn none, []) := rfl
  | _ =>
    refine RecordKept.reread ⟨htyped, hsize, ?_, ?_⟩
    · rintro _ _ ⟨⟩
    · rintro _ _ ⟨⟩

theorem decodeRange_take (hread : ∀ r ∈ rs, Reread r) (n : Nat) :
    decodeRange ((frames rs).take n) = .ok (wholeRecords rs n, (frames (wholeRecords rs n)).length) := by
  have hlen := congrArg List.length (take_frames rs n)
  rw [List.length_append] at hlen
  rw [decodeRange, decodeWalRange_take hread]
  show Except.ok (_, _) = _
  rw [hlen, Nat.add_sub_cancel]

/-- Behind the end of the stream a cut changes nothing. -/
theorem wholeRecords_min (rs : List Record) (n : Nat) :
    wholeRecords rs (min n (frames rs).length) = wholeRecords rs n := by
  rcases Nat.le_total n (frames rs).length with h | h
  · rw [Nat.min_eq_left h]
  · rw [Nat.min_eq_right h, wholeRecords_of_le le_rfl, wholeRecords_of_le h]

theorem tornBytes_min (rs : List Record) (n : Nat) :
    tornBytes rs (min n (frames rs).length) = tornBytes rs n := by
  rw [tornBytes, tornBytes, wholeRecords_min]
  congr 1
  rw [List.take_eq_take_iff]
  omega

theorem tornBytes_append {whole rest : List Record} (h : (frames whole).length ≤ n) :
    tornBytes (whole ++ rest) n = tornBytes rest (n - (frames whole).length) := by
  rw [tornBytes, wholeRecords_append_of_ge rest h, frames_append, frames_append, List.take_append,
    List.take_of_length_le h, List.length_append, ← List.drop_drop, List.drop_left' rfl]
  rfl

/-- The beginning of a stream is records and a beginning of the next one. -/
theorem exists_torn {data : Bytes} (h : data <+: frames rs) :
    ∃ whole rest torn, rs = whole ++ rest ∧ data = frames whole ++ torn ∧ torn <+: frames rest ∧
      wholeRecords rest torn.length = [] ∧ wholeRecords rs data.length = whole := by
  obtain ⟨rest, hrest⟩ := wholeRecords_prefix rs data.length
  have hle := length_frames_whole rs data.length
  have hdata : data = frames (wholeRecords rs data.length) ++ tornBytes rs data.length := by
    rw [← take_frames, ← List.prefix_iff_eq_take.1 h]
  have hlen := congrArg List.length hdata
  rw [List.length_append] at hlen
  refine ⟨_, rest, _, hrest.symm, hdata, ?_, ?_, rfl⟩
  · rw [← List.prefix_append_right_inj (frames (wholeRecords rs data.length)), ← hdata,
      ← frames_append, hrest]
    exact h
  · have hwhole := wholeRecords_append_of_ge rest hle
    have hleft : data.length - (frames (wholeRecords rs data.length)).length =
        (tornBytes rs data.length).length := by omega
    rwa [hrest, hleft, List.self_eq_append_right] at hwhole

theorem feed_behind {pieces : List Bytes} : ∀ {carry : Bytes} {rs : List Record},
    (∀ r ∈ rs, Reread r) → wholeRecords rs carry.length = [] →
    carry ++ pieces.flatten <+: frames rs →
    feed carry pieces = .ok (wholeRecords rs (carry ++ pieces.flatten).length,
      tornBytes rs (carry ++ pieces.flatten).length) := by
  induction pieces with
  | nil =>
    intro carry rs _ hnone hprefix
    rw [List.flatten_nil, List.append_nil] at hprefix ⊢
    rw [feed, hnone, tornBytes, hnone, ← List.prefix_iff_eq_take.1 hprefix]
    rfl
  | cons piece pieces ih =>
    intro carry rs hread hnone hprefix
    rw [List.flatten_cons, ← List.append_assoc] at hprefix ⊢
    have hdata : carry ++ piece <+: frames rs := (List.prefix_append _ _).trans hprefix
    obtain ⟨whole, rest, torn, rfl, heq, -, hrest, hwhole⟩ := exists_torn hdata
    have hrun : decodeRange (carry ++ piece) = .ok (whole, (frames whole).length) := by
      rw [List.prefix_iff_eq_take.1 hdata, decodeRange_take hread, hwhole]
    have hmore : torn ++ pieces.flatten <+: frames rest := by
      rw [heq, List.append_assoc, frames_append, List.prefix_append_right_inj] at hprefix
      exact hprefix
    have hfeed := ih (fun r hr => hread r (by simp [hr])) hrest hmore
    have hlen : (frames whole ++ torn ++ pieces.flatten).length =
        (frames whole).length + (torn ++ pieces.flatten).length := by
      rw [List.append_assoc, List.length_append]
    have hle : (frames whole).length ≤ (frames whole ++ torn ++ pieces.flatten).length := by omega
    rw [feed, hrun, heq, wholeRecords_append_of_ge rest hle, tornBytes_append hle, hlen,
      Nat.add_sub_cancel_left]
    show feed ((frames whole ++ torn).drop (frames whole).length) pieces >>= _ = _
    rw [List.drop_left' rfl, hfeed]
    rfl

/-! ## Records that do not fit -/

/-- The scan goes on behind records it reads back. -/
theorem scanFrames_append {fuel : Nat} (rest : Bytes) (hread : ∀ r ∈ rs, Reread r) :
    scanFrames false (rs.length + fuel) (frames rs ++ rest) =
      (scanFrames false fuel rest).map fun (out, left) => (rs ++ out, left) := by
  induction rs with
  | nil =>
    rw [List.length_nil, Nat.zero_add]
    show scanFrames false fuel rest = _
    cases scanFrames false fuel rest <;> rfl
  | cons r rs ih =>
    rw [frames_cons, List.append_assoc, List.length_cons, Nat.add_right_comm,
      scanFrames_frame (hread r (by simp)), ih fun x hx => hread x (by simp [hx])]
    cases scanFrames false fuel rest <;> rfl

/-- The length field holds the length of the payload modulo `2 ^ 32`. -/
theorem leValue_take_frame_mod (hn : 4 ≤ n) :
    leValue (((frame r).take n).take 4) = (encodePayload r).length % 2 ^ 32 := by
  have htake : (frame r).take 4 = putU32 (encodePayload r).length :=
    List.take_left' (length_leBytes 4 _)
  rw [List.take_take, Nat.min_eq_left hn, htake, putU32, leValue_leBytes_mod,
    show 256 ^ 4 = 2 ^ 32 by norm_num]

/-- The bytes of a frame that the reader needs before it stops waiting. -/
def awaited (r : Record) : Nat :=
  if (encodePayload r).length % 2 ^ 32 ≤ 2 ^ 30 then 8 + (encodePayload r).length % 2 ^ 32 else 8

theorem eight_le_awaited (r : Record) : 8 ≤ awaited r := by
  unfold awaited
  split <;> omega

theorem awaited_lt (hlarge : 2 ^ 30 < (encodePayload r).length) : awaited r < (frame r).length := by
  have hmod := Nat.mod_le (encodePayload r).length (2 ^ 32)
  rw [length_frame, awaited]
  split <;> omega

/-- The frame of a record that does not fit is torn there, and yet the scan
fails or takes a record. -/
theorem scanFrames_awaited (fuel : Nat) (left : Bytes) (hlarge : 2 ^ 30 < (encodePayload r).length) :
    scanFrames false (fuel + 1) ((frame r).take (awaited r)) ≠ .ok ([], left) := by
  have height := eight_le_awaited r
  have hlt := awaited_lt hlarge
  have hlen : ((frame r).take (awaited r)).length = awaited r := by
    rw [List.length_take]
    omega
  rw [scanFrames, if_neg (by omega), leValue_take_frame_mod (by omega)]
  split
  · simp
  · next hmod =>
    have hawaited : awaited r = 8 + (encodePayload r).length % 2 ^ 32 := by
      rw [awaited, if_pos (by omega)]
    rw [if_neg (by rw [List.length_drop, hlen]; omega)]
    split
    · simp
    · split
      · simp
      · next x left' _ =>
        cases scanFrames false fuel _ <;> simp [Except.map]

/-- The records in front of the first one that does not fit. -/
theorem exists_first_large (h : ¬ ∀ r ∈ rs, (encodePayload r).length ≤ 2 ^ 30) :
    ∃ pre r post, rs = pre ++ r :: post ∧ 2 ^ 30 < (encodePayload r).length ∧
      ∀ x ∈ pre, (encodePayload x).length ≤ 2 ^ 30 := by
  obtain ⟨r, hfind⟩ : ∃ r, rs.find? (fun r => 2 ^ 30 < (encodePayload r).length) = some r := by
    rw [← Option.isSome_iff_exists, List.find?_isSome]
    simpa using h
  obtain ⟨hr, pre, post, rfl, hpre⟩ := List.find?_eq_some_iff_append.1 hfind
  exact ⟨pre, r, post, rfl, by simpa using hr, by simpa using hpre⟩

/-- A cut inside a record that does not fit shows that the stream is not framed. -/
theorem not_cut_of_large {pre : List Record} (post : List Record) (hread : ∀ x ∈ pre, Reread x)
    (hlarge : 2 ^ 30 < (encodePayload r).length) :
    decodeRange ((frames (pre ++ r :: post)).take ((frames pre).length + awaited r)) ≠
      .ok (pre, (frames pre).length) := by
  have hlt := awaited_lt hlarge
  have htake : (frames (pre ++ r :: post)).take ((frames pre).length + awaited r) =
      frames pre ++ (frame r).take (awaited r) := by
    rw [frames_append, frames_cons, List.take_length_add_append, List.take_append,
      Nat.sub_eq_zero_of_le hlt.le, List.take_zero, List.append_nil]
  have hfuel : ∃ fuel, (frames pre ++ (frame r).take (awaited r)).length =
      pre.length + (fuel + 1) := by
    have hpre := length_le_frames pre
    have height := eight_le_awaited r
    rw [List.length_append, List.length_take, Nat.min_eq_left hlt.le]
    exact ⟨(frames pre).length + awaited r - pre.length - 1, by omega⟩
  obtain ⟨fuel, hfuel⟩ := hfuel
  rw [htake, decodeRange, decodeWalRange, hfuel, scanFrames_append _ hread]
  cases hscan : scanFrames false (fuel + 1) ((frame r).take (awaited r)) with
  | error e => simp [Except.map]
  | ok p =>
    obtain ⟨out, left⟩ := p
    have hne := scanFrames_awaited fuel left hlarge
    have hout : out ≠ [] := by
      rintro rfl
      exact hne hscan
    simp [Except.map, hout]

/-- A stream is framed exactly when each of its payloads has at most `2 ^ 30` bytes. -/
theorem framed_iff (htyped : ∀ r ∈ rs, Typed r) (hplain : ∀ r ∈ rs, Plain r) :
    Framed rs ↔ ∀ r ∈ rs, (encodePayload r).length ≤ 2 ^ 30 := by
  have hreread : ∀ r ∈ rs, (encodePayload r).length ≤ 2 ^ 30 → Reread r :=
    fun r hr => reread_of_le (htyped r hr) (hplain r hr)
  constructor
  · intro hframed
    by_contra hlarge
    obtain ⟨pre, r, post, rfl, hr, hpre⟩ := exists_first_large hlarge
    have hread : ∀ x ∈ pre, Reread x := fun x hx => hreread x (by simp [hx]) (hpre x hx)
    refine not_cut_of_large post hread hr ?_
    have hwhole : wholeRecords (pre ++ r :: post) ((frames pre).length + awaited r) = pre := by
      have hlt := awaited_lt hr
      rw [wholeRecords_append_of_ge _ (by omega), Nat.add_sub_cancel_left, wholeRecords,
        if_neg (by omega), List.append_nil]
    rw [hframed.cut, hwhole]
  · intro hsize
    have hread : ∀ r ∈ rs, Reread r := fun r hr => hreread r hr (hsize r hr)
    refine ⟨fun r hr => (hread r hr).payload, decodeRange_take hread, fun n pieces hpieces => ?_⟩
    have hprefix : [] ++ pieces.flatten <+: frames rs := by
      rw [List.nil_append, hpieces]
      exact List.take_prefix n (frames rs)
    have hnone : wholeRecords rs ([] : Bytes).length = [] := by
      cases rs with
      | nil => rfl
      | cons r rs =>
        rw [wholeRecords, if_neg]
        rw [length_frame, List.length_nil]
        omega
    rw [feed_behind hread hnone hprefix, List.nil_append, hpieces, List.length_take,
      wholeRecords_min, tornBytes_min]

/-- A row change, its unstamped `Commit` and a new database. -/
def smallStream : List Record :=
  [.put 7 "default.t" [1] [], .commit 7 none, .createDatabase 8 "shop"]

theorem framed_iff_smallStream : (∀ r ∈ smallStream, Typed r) ∧ (∀ r ∈ smallStream, Plain r) ∧
    (Framed smallStream ↔ ∀ r ∈ smallStream, (encodePayload r).length ≤ 2 ^ 30) := by
  have htyped : ∀ r ∈ smallStream, Typed r := by
    simp [smallStream, Typed, Record.txnOf]
  have hplain : ∀ r ∈ smallStream, Plain r := by
    simp [smallStream, Plain]
  exact ⟨htyped, hplain, framed_iff htyped hplain⟩

/-- A database whose name has `n` letters. -/
def wideDatabase (n : Nat) : Record := .createDatabase 1 (String.ofList (List.replicate n 'a'))

theorem length_wideDatabase (n : Nat) : (encodePayload (wideDatabase n)).length = 13 + n := by
  rw [wideDatabase, encodePayload, List.length_cons, List.length_append, length_putStr,
    length_utf8_replicate, putU64, length_leBytes]
  omega

/-- A stream of one record that does not fit is refused as a whole. -/
theorem decodeRange_oversize (hlarge : 2 ^ 30 < (encodePayload r).length)
    (hsize : (encodePayload r).length < 2 ^ 32) :
    decodeRange (frames [r]) = .error (.corrupted "WAL record too large") := by
  have hframe : frames [r] = (frame r ++ []).take (frame r).length := by
    rw [List.append_nil, List.take_length]
    exact List.append_nil _
  have hlen : (frames [r]).length = (7 + (encodePayload r).length) + 1 := by
    rw [frames_cons, List.length_append, length_frame]
    show _ + 0 = _
    omega
  rw [decodeRange, decodeWalRange, hlen, hframe,
    scanFrames_oversize _ _ hlarge hsize (by rw [length_frame]; omega)]
  rfl

/-- A record of `n` letters is well typed, and its stream is refused. -/
theorem wideDatabase_refused (hlarge : 2 ^ 30 ≤ n) (hsize : n < 2 ^ 31) :
    Typed (wideDatabase n) ∧ Plain (wideDatabase n) ∧
      decodeRange (frames [wideDatabase n]) = .error (.corrupted "WAL record too large") ∧
      ¬ Framed [wideDatabase n] := by
  have hlen := length_wideDatabase n
  have herr : decodeRange (frames [wideDatabase n]) = .error (.corrupted "WAL record too large") :=
    decodeRange_oversize (by omega) (by omega)
  refine ⟨(by decide : 1 < 2 ^ 64), trivial, herr, fun hframed => ?_⟩
  have hcut := hframed.cut (frames [wideDatabase n]).length
  rw [List.take_length, herr] at hcut
  cases hcut

/-- A name of `2 ^ 30` letters makes a record that is refused. -/
theorem wide_database_not_framed :
    Typed (wideDatabase (2 ^ 30)) ∧ Plain (wideDatabase (2 ^ 30)) ∧
      decodeRange (frames [wideDatabase (2 ^ 30)]) =
        .error (.corrupted "WAL record too large") ∧
      ¬ Framed [wideDatabase (2 ^ 30)] :=
  wideDatabase_refused le_rfl (by decide)

end HenchDB.Wal
