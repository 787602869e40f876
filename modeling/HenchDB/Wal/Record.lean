import HenchDB.Wal.Definition

/-!
# The record codec of the log

A record is a kind byte, the transaction id and its fields.  The reader takes
the time of a `Commit` from what is left of the payload, so a record is read
back from its own payload and, unless its `Commit` has no time, in front of
any other bytes.
-/

namespace HenchDB.Wal

open Codec

/-! ## Encoding and decoding -/

/-- The payload of `encode_record`. -/
def encodePayload : Record → Bytes
  | .put txn table key row => 1 :: (putU64 txn ++ (putStr table ++ (putBytes key ++ putBytes row)))
  | .delete txn table key => 2 :: (putU64 txn ++ (putStr table ++ putBytes key))
  | .commit txn ts => 3 :: (putU64 txn ++ ts.elim [] putU64)
  | .createTable txn d => 4 :: (putU64 txn ++ encodeTableDef d)
  | .dropTable txn name => 5 :: (putU64 txn ++ putStr name)
  | .createIndex txn table name column =>
    6 :: (putU64 txn ++ (putStr table ++ (putStr name ++ putStr column)))
  | .dropIndex txn table name => 7 :: (putU64 txn ++ (putStr table ++ putStr name))
  | .createDatabase txn name => 8 :: (putU64 txn ++ putStr name)
  | .dropDatabase txn name => 9 :: (putU64 txn ++ putStr name)

/-- The rest of a `Commit` record is its time, if there is room for one. -/
def takeTs : Decoder Error (Option Nat) := fun input =>
  if input.length < 8 then .ok (none, input)
  else .ok (some (leValue (input.take 8)), input.drop 8)

def decodeRecord (legacyCols : Bool) : Decoder Error Record := do
  let kind ← takeByte (.corrupted "record: EOF")
  let txn ← takeLe 8 (.corrupted "record: truncated txn id")
  match kind with
  | 1 =>
    let table ← takeStr
    let key ← takeBytes
    return .put txn table key (← takeBytes)
  | 2 =>
    let table ← takeStr
    return .delete txn table (← takeBytes)
  | 3 => return .commit txn (← takeTs)
  | 4 => return .createTable txn (← decodeTableDef legacyCols)
  | 5 => return .dropTable txn (← takeStr)
  | 6 =>
    let table ← takeStr
    let name ← takeStr
    return .createIndex txn table name (← takeStr)
  | 7 =>
    let table ← takeStr
    return .dropIndex txn table (← takeStr)
  | 8 => return .createDatabase txn (← takeStr)
  | 9 => return .dropDatabase txn (← takeStr)
  | t => throw (.corrupted s!"unknown record kind {t.toNat}")

/-! ## Round trip -/

variable {s : String} {bs : Bytes} {d : Datum} {n : Nat}

/-- A table definition that the codec keeps.  `CREATE TABLE` logs no statistics. -/
structure TableKept (x : TableDef) : Prop where
  columns : x.schema.columns.length ≤ 10000
  lettered : ∀ c ∈ x.schema.columns, Lettered c.ctype
  pkIdx : x.schema.pkIdx < 2 ^ 32
  indexes : x.indexes.length ≤ 10000
  foreignKeys : x.foreignKeys.length ≤ 10000
  stats : x.stats = none

/-! A part of a payload is not longer than the payload. -/

theorem length_le_flatMap {β : Type} {f : β → Bytes} {l : List β} {b : β} (h : b ∈ l) :
    (f b).length ≤ (l.flatMap f).length := by
  rw [List.length_flatMap]
  exact List.le_sum_of_mem (List.mem_map_of_mem h)

theorem length_putStr : (putStr s).length = 4 + (utf8 s).length := by
  simp [putStr, putBytes, putU32]

theorem length_putBytes : (putBytes bs).length = 4 + bs.length := by
  simp [putBytes, putU32]

theorem sized_of_encode (h : d.encode.length < 2 ^ 32) : d.Sized := by
  cases d with
  | text v =>
    simp only [Datum.encode, List.length_cons, List.length_append, length_leBytes] at h
    show (utf8 v).length < 2 ^ 32
    omega
  | _ => trivial

theorem columnSized_of_encode {c : ColumnDef} (h : (encodeColumn c).length < 2 ^ 32) :
    ColumnSized c := by
  simp only [encodeColumn, List.length_append, List.length_cons, length_putStr] at h
  refine { name := by omega, defaultValue := ?_ }
  intro d hd
  rw [Option.mem_def] at hd
  rw [hd] at h
  simp only [putDatum?, List.length_cons] at h
  exact sized_of_encode (by omega)

theorem indexSized_of_encode {x : IndexDef} (h : (encodeIndex x).length < 2 ^ 32) :
    IndexSized x := by
  simp only [encodeIndex, List.length_append, length_putStr] at h
  exact ⟨by omega, by omega⟩

theorem foreignKeySized_of_encode {fk : ForeignKeyDef}
    (h : (encodeForeignKey fk).length < 2 ^ 32) : ForeignKeySized fk := by
  simp only [encodeForeignKey, List.length_append, length_putStr] at h
  exact ⟨by omega, by omega, by omega,
    by omega⟩

theorem defSized_of_encode {x : TableDef} (hsize : (encodeTableDef x).length < 2 ^ 32)
    (h : TableKept x) : DefSized x := by
  simp only [encodeTableDef, List.length_append, length_putStr] at hsize
  refine
    { name := by omega
      columns := h.columns
      pkIdx := h.pkIdx
      column := ?_
      indexes := h.indexes
      index := ?_
      foreignKeys := h.foreignKeys
      foreignKey := ?_
      stats := by simp [h.stats] }
  · intro c hc
    have hle := length_le_flatMap (f := encodeColumn) hc
    exact columnSized_of_encode (by omega)
  · intro i hi
    have hle := length_le_flatMap (f := encodeIndex) hi
    exact indexSized_of_encode (by omega)
  · intro fk hfk
    have hle := length_le_flatMap (f := encodeForeignKey) hfk
    exact foreignKeySized_of_encode (by omega)

theorem reads_tableDef {x : TableDef} (hsize : (encodeTableDef x).length < 2 ^ 32)
    (h : TableKept x) : Reads (decodeTableDef false) (encodeTableDef x) x := by
  have hread := reads_readDef (defSized_of_encode hsize h)
  rwa [(readDef_eq_iff x).2 h.lettered] at hread

/-- A record that the log keeps: it fits, its `Commit` is stamped, and its
table definition is read back. -/
structure RecordKept (r : Record) : Prop where
  txn : r.txnOf < 2 ^ 64
  size : (encodePayload r).length ≤ 2 ^ 30
  ts : ∀ t ts, r = .commit t ts → ∃ n < 2 ^ 64, ts = some n
  table : ∀ t x, r = .createTable t x → TableKept x

/-- The part of the check that depends on the kind. -/
def bodyKept : Record → Bool
  | .commit _ ts => ts.any fun n => n < 2 ^ 64
  | .createTable _ x =>
    x.schema.columns.length ≤ 10000 && x.schema.columns.all (fun c => Lettered c.ctype) &&
      x.schema.pkIdx < 2 ^ 32 && x.indexes.length ≤ 10000 && x.foreignKeys.length ≤ 10000 &&
      x.stats.isNone
  | _ => true

/-- `RecordKept` as a check. -/
def recordKept (r : Record) : Bool :=
  r.txnOf < 2 ^ 64 && (encodePayload r).length ≤ 2 ^ 30 && bodyKept r

theorem kept_of_recordKept {r : Record} (h : recordKept r = true) : RecordKept r := by
  rw [recordKept, Bool.and_eq_true, Bool.and_eq_true] at h
  obtain ⟨⟨htxn, hsize⟩, hrest⟩ := h
  refine
    { txn := by simpa using htxn
      size := by simpa using hsize
      ts := ?_
      table := ?_ }
  · rintro t ts rfl
    cases ts with
    | none => cases hrest
    | some n => exact ⟨n, by simpa [bodyKept] using hrest, rfl⟩
  · rintro t x rfl
    simp only [bodyKept, Bool.and_eq_true, List.all_eq_true, decide_eq_true_eq,
      Option.isNone_iff_eq_none] at hrest
    obtain ⟨⟨⟨⟨⟨hcols, hlet⟩, hpk⟩, hidx⟩, hfk⟩, hstats⟩ := hrest
    exact ⟨hcols, hlet, hpk, hidx, hfk, hstats⟩

theorem reads_txn (h : n < 2 ^ 64) :
    Reads (takeLe 8 (Error.corrupted "record: truncated txn id")) (putU64 n) n :=
  reads_takeLe _ h

theorem reads_record {r : Record} (h : RecordKept r) :
    Reads (decodeRecord false) (encodePayload r) r := by
  obtain ⟨htxn, hsize, hts, htable⟩ := h
  cases r with
  | put t table key row =>
    simp only [encodePayload, List.length_cons, List.length_append, length_putStr,
      length_putBytes] at hsize
    refine (reads_takeByte 1 _).bind ((reads_txn htxn).bind ?_)
    refine (reads_takeStr (by omega)).bind ((reads_takeBytes (by omega)).bind ?_)
    exact (reads_takeBytes (by omega)).bind_pure .pure
  | delete t table key =>
    simp only [encodePayload, List.length_cons, List.length_append, length_putStr,
      length_putBytes] at hsize
    refine (reads_takeByte 2 _).bind ((reads_txn htxn).bind ?_)
    refine (reads_takeStr (by omega)).bind ?_
    exact (reads_takeBytes (by omega)).bind_pure .pure
  | commit t ts =>
    obtain ⟨n, hn, rfl⟩ := hts t ts rfl
    refine (reads_takeByte 3 _).bind ((reads_txn htxn).bind ?_)
    have hread : Reads takeTs (putU64 n) (some n) := by
      intro rest
      have hlen : (putU64 n).length = 8 := length_leBytes 8 n
      have hlong : ¬ (putU64 n ++ rest).length < 8 := by simp [hlen]
      simp only [takeTs, StateT.run, if_neg hlong, List.take_left' hlen, List.drop_left' hlen]
      rw [putU64, leValue_leBytes hn]
    exact hread.bind_pure .pure
  | createTable t x =>
    simp only [encodePayload, List.length_cons, List.length_append] at hsize
    refine (reads_takeByte 4 _).bind ((reads_txn htxn).bind ?_)
    exact (reads_tableDef (by omega) (htable t x rfl)).bind_pure .pure
  | dropTable t name =>
    simp only [encodePayload, List.length_cons, List.length_append, length_putStr] at hsize
    refine (reads_takeByte 5 _).bind ((reads_txn htxn).bind ?_)
    exact (reads_takeStr (by omega)).bind_pure .pure
  | createIndex t table name column =>
    simp only [encodePayload, List.length_cons, List.length_append, length_putStr] at hsize
    refine (reads_takeByte 6 _).bind ((reads_txn htxn).bind ?_)
    refine (reads_takeStr (by omega)).bind ((reads_takeStr (by omega)).bind ?_)
    exact (reads_takeStr (by omega)).bind_pure .pure
  | dropIndex t table name =>
    simp only [encodePayload, List.length_cons, List.length_append, length_putStr] at hsize
    refine (reads_takeByte 7 _).bind ((reads_txn htxn).bind ?_)
    refine (reads_takeStr (by omega)).bind ?_
    exact (reads_takeStr (by omega)).bind_pure .pure
  | createDatabase t name =>
    simp only [encodePayload, List.length_cons, List.length_append, length_putStr] at hsize
    refine (reads_takeByte 8 _).bind ((reads_txn htxn).bind ?_)
    exact (reads_takeStr (by omega)).bind_pure .pure
  | dropDatabase t name =>
    simp only [encodePayload, List.length_cons, List.length_append, length_putStr] at hsize
    refine (reads_takeByte 9 _).bind ((reads_txn htxn).bind ?_)
    exact (reads_takeStr (by omega)).bind_pure .pure

end HenchDB.Wal
