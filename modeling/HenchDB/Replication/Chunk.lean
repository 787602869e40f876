import HenchDB.Replication.Position

/-!
# Chunks of the log

The feeder cuts the durable log by a number of bytes, and the replica refuses
a chunk that does not end with a whole record.  A chunk is accepted exactly
when a record ends where it was cut, every record in it can be read back, and the
transactions that end in it are applied (`chunk_accepted_iff_whole`); a chunk of full
length does not change while the log grows, so a refused one is sent again and again.

What `apply_replica_batch` does with a database is a parameter.
-/

namespace HenchDB.Replication

open Wal
open Std (ExtTreeMap)

/-! ## Cutting and taking chunks -/

/-- The chunk `handle_replica` reads at its cursor. -/
def chunkFrom (file : Bytes) (next durable : Nat) : Bytes :=
  (file.drop next).take (min (durable - next) chunkBytes)

/-- The records of a chunk and the position behind it, or nothing where the chunk ends the
connection or is asked for again. -/
def takeChunk (applied offset : Nat) (data : Bytes) : Option (List Record × Nat) :=
  if offset ≠ applied then none
  else
    match decodeWalRange false data with
    | .ok (rs, left) => if left.isEmpty then some (rs, applied + data.length) else none
    | .error _ => none

section
variable {σ : Type} (apply : σ → List Record → Option σ)

/-- The loop over the records of a chunk.  `apply` is `apply_replica_batch`; it is `none`
where that fails or does not return. -/
def applyRecords (pending : ExtTreeMap Nat (List Record)) (db : σ) :
    List Record → Option (ExtTreeMap Nat (List Record) × σ)
  | [] => some (pending, db)
  | .commit txn ts :: rs =>
    match pending[txn]? with
    | some batch => do
      let db ← apply db (batch ++ [.commit txn ts])
      applyRecords (pending.erase txn) db rs
    | none => applyRecords pending db rs
  | r :: rs =>
    applyRecords (pending.insert r.txnOf (pending[r.txnOf]?.getD [] ++ [r])) db rs

/-- The `WalChunk` arm of `stream_once`: what is pending, the database and the position. -/
def streamChunk (pending : ExtTreeMap Nat (List Record)) (db : σ) (applied offset : Nat)
    (data : Bytes) : Option (ExtTreeMap Nat (List Record) × σ × Nat) := do
  let (records, position) ← takeChunk applied offset data
  let (pending, db) ← applyRecords apply pending db records
  return (pending, db, position)

/-- The position of the replica moves over the chunk. -/
def Accepted (pending : ExtTreeMap Nat (List Record)) (db : σ) (applied offset : Nat)
    (data : Bytes) : Prop :=
  ∃ pending' db' applied', streamChunk apply pending db applied offset data =
    some (pending', db', applied') ∧ applied < applied'

end

/-- A record that a scan of the log gets past: it is not too large and its
payload decodes. -/
def readable (r : Record) : Bool :=
  (encodePayload r).length ≤ 2 ^ 30 && ((decodeRecord false).run (encodePayload r)).toOption.isSome

/-- The backlog is cut behind a record, the records before the cut can be read, and the
transactions that end among them are applied. -/
def WholeChunk {σ : Type} (apply : σ → List Record → Option σ)
    (pending : ExtTreeMap Nat (List Record)) (db : σ) (backlog : List Record) : Prop :=
  ∃ now, now <+: backlog ∧ (frames now).length = min (frames backlog).length chunkBytes ∧
    (∀ r ∈ now, readable r = true) ∧
      (applyRecords apply pending db (now.map readBack)).isSome = true

/-! ## Scanning a chunk -/

variable {r : Record} {rs out : List Record} {fuel n : Nat}

theorem readable_spec (h : readable r = true) :
    (encodePayload r).length ≤ 2 ^ 30 ∧
      ∃ x, (decodeRecord false).run (encodePayload r) = .ok x := by
  rw [readable, Bool.and_eq_true, decide_eq_true_eq] at h
  refine ⟨h.1, ?_⟩
  cases hrun : (decodeRecord false).run (encodePayload r) with
  | error e => rw [hrun] at h; cases h.2
  | ok x => exact ⟨x, rfl⟩

theorem scanFrames_readable (h : ∀ r ∈ rs, readable r = true) (hfuel : rs.length ≤ fuel) :
    scanFrames false fuel (frames rs) = .ok (rs.map readBack, []) := by
  induction rs generalizing fuel with
  | nil =>
    cases fuel with
    | zero => rfl
    | succ fuel => rfl
  | cons r rs ih =>
    rw [List.length_cons] at hfuel
    obtain ⟨fuel, rfl⟩ : ∃ m, fuel = m + 1 := ⟨fuel - 1, by omega⟩
    obtain ⟨hsize, x, hx⟩ := readable_spec (h r (by simp))
    have hback : readBack r = x.1 := by rw [readBack, hx]
    rw [frames_cons, scanFrames_payload hsize, hx,
      ih (fun r hr => h r (by simp [hr])) (Nat.le_of_succ_le_succ hfuel), List.map_cons, hback]
    rfl

theorem scanFrames_cut (hsize : (encodePayload r).length < 2 ^ 32) (hpos : 0 < n)
    (hn : n < (frame r).length) : scanFrames false fuel ((frame r).take n) ≠ .ok (out, []) := by
  have hleft : (frame r).take n ≠ [] := by
    rw [← List.length_pos_iff, List.length_take]
    omega
  intro h
  by_cases hlarge : (encodePayload r).length ≤ 2 ^ 30
  · rw [scanFrames_torn hlarge hn] at h
    exact hleft (Prod.mk.inj (Except.ok.inj h)).2
  cases fuel with
  | zero => exact hleft (Prod.mk.inj (Except.ok.inj h)).2
  | succ fuel =>
    by_cases h8 : n < 8
    · rw [scanFrames, if_pos (by rw [List.length_take]; omega)] at h
      exact hleft (Prod.mk.inj (Except.ok.inj h)).2
    · have herr := scanFrames_oversize fuel [] (by omega) hsize (by omega : 8 ≤ n)
      rw [List.append_nil] at herr
      rw [herr] at h
      cases h

theorem whole_of_scanFrames (hsize : ∀ r ∈ rs, (encodePayload r).length < 2 ^ 32)
    (hn : n ≤ (frames rs).length) (h : scanFrames false fuel ((frames rs).take n) = .ok (out, [])) :
    ∃ now, now <+: rs ∧ (frames now).length = n ∧ ∀ r ∈ now, readable r = true := by
  induction rs generalizing n fuel out with
  | nil =>
    obtain rfl : n = 0 := by simpa [frames] using hn
    exact ⟨[], List.prefix_rfl, rfl, by simp⟩
  | cons r rs ih =>
    have hr := hsize r (by simp)
    obtain rfl | hpos := Nat.eq_zero_or_pos n
    · exact ⟨[], List.nil_prefix, rfl, by simp⟩
    rcases Nat.lt_or_ge n (frame r).length with hcut | hle
    · -- the cut lies in the first frame
      have htake : (frames (r :: rs)).take n = (frame r).take n := by
        rw [frames_cons, List.take_append, Nat.sub_eq_zero_of_le (by omega), List.take_zero,
          List.append_nil]
      rw [htake] at h
      exact absurd h (scanFrames_cut hr hpos hcut)
    · have htake : (frames (r :: rs)).take n =
          frame r ++ (frames rs).take (n - (frame r).length) := by
        rw [frames_cons, List.take_append, List.take_of_length_le hle]
      have hne : frame r ≠ [] := by
        rw [← List.length_pos_iff, length_frame]
        omega
      cases fuel with
      | zero =>
        rw [htake] at h
        cases h
      | succ fuel =>
        rcases Nat.lt_or_ge (2 ^ 30) (encodePayload r).length with hlarge | hsmall
        · rw [frames_cons, scanFrames_oversize fuel _ hlarge hr (by rw [length_frame] at hle; omega)] at h
          cases h
        rw [htake, scanFrames_payload hsmall] at h
        cases hrun : (decodeRecord false).run (encodePayload r) with
        | error e => rw [hrun] at h; cases h
        | ok x =>
          rw [hrun] at h
          cases hrest : scanFrames false fuel ((frames rs).take (n - (frame r).length)) with
          | error e =>
            simp [hrest, bind, Except.bind, Except.map] at h
          | ok p =>
            obtain ⟨out', left⟩ := p
            simp only [hrest, bind, Except.bind, Except.map, Except.ok.injEq,
              Prod.mk.injEq] at h
            obtain ⟨-, rfl⟩ := h
            rw [frames_cons, List.length_append] at hn
            obtain ⟨now, hnow, hlen, hread⟩ :=
              ih (fun r hr => hsize r (by simp [hr])) (by omega) hrest
            refine ⟨r :: now, List.cons_prefix_cons.mpr ⟨rfl, hnow⟩, ?_, ?_⟩
            · rw [frames_cons, List.length_append, hlen]
              omega
            · intro x hx
              rcases List.mem_cons.mp hx with rfl | hx
              · rw [readable, hrun, decide_eq_true hsmall]
                rfl
              · exact hread x hx

/-! ## What is sent and what is accepted -/

variable {before backlog : List Record} {rest : Bytes}

/-- The file behind a cursor at the end of a record. -/
theorem drop_log : ((header ++ frames (before ++ backlog) ++ rest).drop
    (logStart + (frames before).length)) = frames backlog ++ rest := by
  have hfile : header ++ frames (before ++ backlog) ++ rest =
      (header ++ frames before) ++ (frames backlog ++ rest) := by
    simp [frames_append]
  rw [hfile]
  exact List.drop_left' (by rw [List.length_append, length_header]; rfl)

/-- The chunk at the end of a record is cut from the frames behind it. -/
theorem chunkFrom_log : chunkFrom (header ++ frames (before ++ backlog) ++ rest)
    (logStart + (frames before).length) (logStart + (frames (before ++ backlog)).length) =
      (frames backlog).take (min (frames backlog).length chunkBytes) := by
  have hlen : logStart + (frames (before ++ backlog)).length - (logStart + (frames before).length) =
      (frames backlog).length := by
    rw [frames_append, List.length_append]
    omega
  rw [chunkFrom, drop_log, hlen, List.take_append_of_le_length (Nat.min_le_left _ _)]

section
variable {σ : Type} {apply : σ → List Record → Option σ} {pending : ExtTreeMap Nat (List Record)}
  {db : σ}

theorem takeChunk_eq_some {applied applied' : Nat} {data : Bytes} :
    takeChunk applied applied data = some (rs, applied') ↔
      decodeWalRange false data = .ok (rs, []) ∧ applied' = applied + data.length := by
  rw [takeChunk, if_neg (not_not_intro rfl)]
  rcases decodeWalRange false data with e | ⟨out, left⟩
  · simp
  · cases left with
    | nil => simp [eq_comm]
    | cons b left => simp

theorem accepted_iff {next : Nat} {data : Bytes} :
    Accepted apply pending db next next data ↔ data ≠ [] ∧ ∃ out,
      decodeWalRange false data = .ok (out, []) ∧ (applyRecords apply pending db out).isSome = true := by
  constructor
  · rintro ⟨pending', db', applied', hstream, hlt⟩
    obtain ⟨⟨out, position⟩, htake, happly⟩ := Option.bind_eq_some_iff.mp hstream
    obtain ⟨⟨pending'', db''⟩, hloop, hresult⟩ := Option.bind_eq_some_iff.mp happly
    obtain ⟨hdecode, rfl⟩ := takeChunk_eq_some.mp htake
    cases hresult
    refine ⟨?_, out, hdecode, by rw [hloop]; rfl⟩
    rintro rfl
    exact Nat.lt_irrefl _ hlt
  · rintro ⟨hne, out, hdecode, happly⟩
    obtain ⟨⟨pending', db'⟩, hloop⟩ := Option.isSome_iff_exists.mp happly
    refine ⟨pending', db', next + data.length, ?_, ?_⟩
    · rw [streamChunk, takeChunk_eq_some.mpr ⟨hdecode, rfl⟩]
      show (applyRecords apply pending db out >>= fun _ => _) = _
      rw [hloop]
      rfl
    · have := List.length_pos_iff.mpr hne
      omega

/-- A chunk moves the replica if and only if it ends with a record, its records can be
read and the transactions that end in it are applied.  A record of four gigabytes wraps
its length field; only without one does a chunk say where its records end. -/
theorem chunk_accepted_iff_whole (apply : σ → List Record → Option σ)
    (pending : ExtTreeMap Nat (List Record)) (db : σ) (before backlog : List Record) (rest : Bytes)
    (hbacklog : backlog ≠ []) :
    let next := logStart + (frames before).length
    let chunk := chunkFrom (header ++ frames (before ++ backlog) ++ rest) next
      (logStart + (frames (before ++ backlog)).length)
    (WholeChunk apply pending db backlog → Accepted apply pending db next next chunk) ∧
      ((∀ r ∈ backlog, (encodePayload r).length < 2 ^ 32) →
        Accepted apply pending db next next chunk → WholeChunk apply pending db backlog) := by
  intro next chunk
  have hchunk : chunk = (frames backlog).take (min (frames backlog).length chunkBytes) :=
    chunkFrom_log
  have hpos : 0 < (frames backlog).length := by
    have := length_le_frames backlog
    have := List.length_pos_iff.mpr hbacklog
    omega
  have hbytes : chunkBytes = 65536 := rfl
  have hcut : ∀ {now : List Record}, now <+: backlog →
      (frames now).length = min (frames backlog).length chunkBytes → chunk = frames now := by
    rintro now ⟨later, rfl⟩ hlen
    rw [hchunk, ← hlen, frames_append]
    exact List.take_left' rfl
  rw [accepted_iff]
  constructor
  · rintro ⟨now, hnow, hlen, hread, happly⟩
    rw [hcut hnow hlen]
    refine ⟨?_, _, scanFrames_readable hread (length_le_frames now), happly⟩
    rw [← List.length_pos_iff, hlen]
    omega
  · rintro hsize ⟨-, out, hdecode, happly⟩
    obtain ⟨now, hnow, hlen, hread⟩ := whole_of_scanFrames hsize (Nat.min_le_left _ _)
      (hchunk ▸ hdecode)
    refine ⟨now, hnow, hlen, hread, ?_⟩
    have hscan : decodeWalRange false (frames now) = .ok (now.map readBack, []) :=
      scanFrames_readable hread (length_le_frames now)
    rw [hcut hnow hlen, hscan] at hdecode
    rwa [(Prod.mk.inj (Except.ok.inj hdecode)).1]

end

/-! ## A row that fills more than a chunk -/

open HenchDB.Replication.System (putNote length_putNote kept_putNote)

theorem readable_of_kept (h : RecordKept r) : readable r = true := by
  have hrun := reads_record h []
  rw [List.append_nil] at hrun
  have hrun : (decodeRecord false).run (encodePayload r) = .ok (r, []) := hrun
  rw [readable, hrun, decide_eq_true h.size]
  rfl

/-- A small row and its commit move a replica that keeps the batches it applies. -/
theorem chunk_accepted_small :
    Accepted (fun done batch => some (done ++ [batch])) ∅ ([] : List (List Record)) logStart logStart
      (chunkFrom (header ++ frames ([] ++ [putNote 1 10, .commit 1 (some 0)]) ++ []) logStart
        (logStart + (frames ([] ++ [putNote 1 10, .commit 1 (some 0)])).length)) := by
  have hcommit : RecordKept (.commit 1 (some 0)) := kept_of_recordKept (by decide +kernel)
  have hkept : ∀ r ∈ [putNote 1 10, .commit 1 (some 0)], RecordKept r := by
    intro r hr
    rcases List.mem_pair.mp hr with rfl | rfl
    · exact kept_putNote 1 (by decide)
    · exact hcommit
  refine (chunk_accepted_iff_whole _ ∅ [] [] [putNote 1 10, .commit 1 (some 0)] [] (by simp)).1 ?_
  refine ⟨_, List.prefix_rfl, ?_, fun r hr => readable_of_kept (hkept r hr), ?_⟩
  · rw [Nat.min_eq_left]
    have hlen : (frame (.commit 1 (some 0))).length = 25 := by decide +kernel
    rw [frames_cons, frames_cons, List.length_append, List.length_append, length_frame,
      length_putNote, hlen]
    decide
  · rw [List.map_congr_left fun r hr => readBack_of_kept (hkept r hr), List.map_id']
    simp [applyRecords, putNote, Record.txnOf]

/-- A row of 70000 bytes is cut, and no replica gets past it. -/
theorem wide_row_refused :
    ¬ ∀ (before backlog : List Record) (rest : Bytes), backlog ≠ [] →
      Accepted (fun _ _ => some ()) ∅ () (logStart + (frames before).length)
        (logStart + (frames before).length)
        (chunkFrom (header ++ frames (before ++ backlog) ++ rest)
          (logStart + (frames before).length)
          (logStart + (frames (before ++ backlog)).length)) := by
  intro haccepts
  have haccepted := haccepts [] [putNote 1 70000, .commit 1 (some 0)] [] (by simp)
  rw [chunkFrom_log, accepted_iff] at haccepted
  obtain ⟨-, out, hdecode, -⟩ := haccepted
  have hframe : (frame (putNote 1 70000)).length = 70065 := by
    rw [length_frame, length_putNote]
  have hchunk : (frames [putNote 1 70000, .commit 1 (some 0)]).take
      (min (frames [putNote 1 70000, .commit 1 (some 0)]).length chunkBytes) =
        (frame (putNote 1 70000)).take chunkBytes := by
    have hbytes : chunkBytes = 65536 := rfl
    rw [frames_cons, List.length_append, hframe, Nat.min_eq_right (by omega),
      List.take_append_of_le_length (by omega)]
  rw [hchunk] at hdecode
  refine scanFrames_cut ?_ (by decide) ?_ hdecode
  · rw [length_putNote]
    decide
  · rw [hframe]
    decide

end HenchDB.Replication
