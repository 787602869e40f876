import HenchDB.Lib.Outcome
import HenchDB.Wal.Extent
import HenchDB.Wal.Log

/-!
# The snapshot file

`encode_snapshot` writes the databases, the definitions of the tables and their rows;
`decode_snapshot` reads them, and the images of three earlier formats.

The reader limits the number and the length of almost everything it reads.  Of these
limits the writer knows one, that of a key.  What is within the others is read back, and
nothing else is (`decodeSnapshot_iff`).
-/

namespace HenchDB.Backup

open Codec Outcome Wal

/-- The rows of a tree: keys and stored values. -/
abbrev Pairs := List (Bytes × Bytes)

/-- `SnapRow`; an image of the first format has no keys. -/
structure SnapRow where
  key : Option Bytes
  value : Bytes

/-! ## Writing -/

def snapshotMagic : Bytes := [72, 68, 66, 83]

def snapshotFormatVersion : Nat := 4

/-- A row of `encode_snapshot`. -/
def encodePair (kv : Bytes × Bytes) : Except Error Bytes :=
  if 1024 * 1024 < kv.1.length then .error (.corrupted "snapshot key too large")
  else .ok (putBytes kv.1 ++ putBytes kv.2)

/-- A table of `encode_snapshot`. -/
def encodeTable (t : TableDef × Pairs) : Except Error Bytes := do
  let rows ← t.2.mapM encodePair
  return putBytes (encodeTableDef t.1) ++ (putU64 t.2.length ++ rows.flatten)

def encodeSnapshot (databases : List String) (tables : List (TableDef × Pairs)) :
    Except Error Bytes := do
  let encoded ← tables.mapM encodeTable
  return snapshotMagic ++ (putU32 snapshotFormatVersion ++ (putU32 databases.length ++
    (databases.flatMap putStr ++ (putU32 tables.length ++ encoded.flatten))))

/-! ## Reading -/

/-- `read_exact` behind the end of the file. -/
def fileEnd : Error := .io "failed to fill whole buffer"

/-- A number of four bytes. -/
def fileU32 : Decoder Error Nat := takeLe 4 fileEnd

/-- `take_str`. -/
def takeDbName : Decoder Error String := do
  let len ← atMost fileU32 1024 "db name too long"
  match fromUtf8 (← takeN len fileEnd) with
  | some s => return s
  | none => throw (.corrupted "utf8 db name")

/-- The databases of `decode_snapshot`. -/
def takeDatabases (version : Nat) : Decoder Error (List String) :=
  if 4 ≤ version then do
    takeMany takeDbName (← atMost fileU32 10000 "snapshot db count too large")
  else pure ["default"]

/-- A table definition; what is behind it in its buffer is not looked at. -/
def takeDef (version : Nat) : Decoder Error TableDef := do
  let defLen ← atMost fileU32 (16 * 1024 * 1024) "snapshot table def too large"
  let defBuf ← takeN defLen fileEnd
  let (d, _) ← ((decodeTableDef (version ≤ 2)).run defBuf : Except Error (TableDef × Bytes))
  return d

/-- A row of `decode_snapshot`. -/
def takeSnapRow (version : Nat) : Decoder Error SnapRow := do
  if version = 1 then
    let len ← atMost fileU32 (64 * 1024 * 1024) "snapshot row too large"
    return { key := none, value := ← takeN len fileEnd }
  else
    let klen ← atMost fileU32 (1024 * 1024) "snapshot key too large"
    let key ← takeN klen fileEnd
    let vlen ← atMost fileU32 (64 * 1024 * 1024) "snapshot row too large"
    return { key := some key, value := ← takeN vlen fileEnd }

/-- A table of `decode_snapshot`. -/
def takeTable (version : Nat) : Decoder Error (TableDef × List SnapRow) := do
  let d ← takeDef version
  let nrows ← takeLe 8 fileEnd
  let rows ← takeMany (takeSnapRow version) nrows
  return (d, rows)

/-- What `decode_snapshot` reads behind the version. -/
def snapshotBody (version : Nat) :
    Decoder Error (List String × List (TableDef × List SnapRow)) := do
  let databases ← takeDatabases version
  let ntables ← atMost fileU32 100000 "snapshot table count too large"
  let tables ← takeMany (takeTable version) ntables
  return (databases, tables)

def decodeSnapshot : Decoder Error (List String × List (TableDef × List SnapRow)) := do
  let magic ← takeN 4 fileEnd
  if magic ≠ snapshotMagic then throw (.corrupted "bad snapshot magic")
  let version ← fileU32
  if version ≠ 1 ∧ version ≠ 2 ∧ version ≠ 3 ∧ version ≠ snapshotFormatVersion then
    throw (.corrupted "snapshot version")
  snapshotBody version

/-! ## What is written -/

/-- What is stored: the databases, and the tables with their rows. -/
structure Stored where
  databases : List String
  tables : List (TableDef × Pairs)
  distinct : (tables.map fun t => t.1.name).Nodup
  counted : ∀ t ∈ tables, t.2.length < 2 ^ 64

/-- The codec of definitions returns the definition. -/
def Survives (d : TableDef) : Prop := (decodeTableDef false).run (encodeTableDef d) = .ok (d, [])

def pairBytes (kv : Bytes × Bytes) : Bytes := putBytes kv.1 ++ putBytes kv.2

def tableBytes (t : TableDef × Pairs) : Bytes :=
  putBytes (encodeTableDef t.1) ++ (putU64 t.2.length ++ t.2.flatMap pairBytes)

theorem encodePair_ok {kv : Bytes × Bytes} {bs : Bytes} (h : encodePair kv = .ok bs) :
    kv.1.length ≤ 1024 * 1024 ∧ bs = pairBytes kv := by
  rw [encodePair] at h
  split at h
  · cases h
  · next hkey =>
    cases h
    exact ⟨Nat.le_of_not_lt hkey, rfl⟩

theorem encodeTable_ok {t : TableDef × Pairs} {bs : Bytes} (h : encodeTable t = .ok bs) :
    (∀ kv ∈ t.2, kv.1.length ≤ 1024 * 1024) ∧ bs = tableBytes t := by
  rw [encodeTable] at h
  obtain ⟨rows, hrows, h⟩ := bind_ok h
  obtain ⟨hkeys, rfl⟩ := mapM_ok (fun _ _ => encodePair_ok) hrows
  cases h
  exact ⟨hkeys, by rw [tableBytes, List.flatMap_def]⟩

def bodyBytes (databases : List String) (tables : List (TableDef × Pairs)) : Bytes :=
  putU32 databases.length ++ (databases.flatMap putStr ++
    (putU32 tables.length ++ tables.flatMap tableBytes))

theorem encodeSnapshot_ok {databases : List String} {tables : List (TableDef × Pairs)}
    {bytes : Bytes} (h : encodeSnapshot databases tables = .ok bytes) :
    (∀ t ∈ tables, ∀ kv ∈ t.2, kv.1.length ≤ 1024 * 1024) ∧
      bytes = snapshotMagic ++ (putU32 snapshotFormatVersion ++ bodyBytes databases tables) := by
  rw [encodeSnapshot] at h
  obtain ⟨encoded, htables, h⟩ := bind_ok h
  obtain ⟨hkeys, rfl⟩ := mapM_ok (fun _ _ => encodeTable_ok) htables
  cases h
  exact ⟨hkeys, by rw [bodyBytes, List.flatMap_def (f := tableBytes)]⟩

/-! ## What is read back -/

structure TableFits (t : TableDef × Pairs) : Prop where
  definition : (encodeTableDef t.1).length ≤ 16 * 1024 * 1024
  value : ∀ kv ∈ t.2, kv.2.length ≤ 64 * 1024 * 1024

/-- What is stored is within the limits of the reader. -/
structure Stored.SnapshotFits (s : Stored) : Prop where
  databases : s.databases.length ≤ 10000
  name : ∀ db ∈ s.databases, (utf8 db).length ≤ 1024
  tables : s.tables.length ≤ 100000
  table : ∀ t ∈ s.tables, TableFits t

def snapRow (kv : Bytes × Bytes) : SnapRow := { key := some kv.1, value := kv.2 }

def snapTable (t : TableDef × Pairs) : TableDef × List SnapRow := (t.1, t.2.map snapRow)

variable {d : TableDef} {t : TableDef × Pairs} {kv : Bytes × Bytes} {n : Nat} {bs : Bytes}

theorem reads_fileU32 (h : n < 2 ^ 32) : Reads fileU32 (putU32 n) n := reads_takeLe _ h

theorem reads_takeDbName {s : String} (h : (utf8 s).length ≤ 1024) :
    Reads takeDbName (putStr s) s := by
  have hlen : Reads (atMost fileU32 1024 "db name too long") (putU32 (utf8 s).length)
      (utf8 s).length := reads_atMost _ (reads_fileU32 (h.trans_lt (by decide))) h
  refine hlen.bind ((reads_takeN _ rfl).bind_pure ?_)
  rw [fromUtf8_utf8]
  exact .pure

theorem reads_takeDef (h : Survives d) (hlen : (encodeTableDef d).length ≤ 16 * 1024 * 1024) :
    Reads (takeDef 4) (putBytes (encodeTableDef d)) d := by
  have hcount := reads_atMost "snapshot table def too large"
    (reads_fileU32 (hlen.trans_lt (by decide))) hlen
  exact hcount.bind ((reads_takeN _ rfl).bind_pure ((reads_lift h).bind_pure .pure))

theorem reads_takeSnapRow (hkey : kv.1.length ≤ 1024 * 1024)
    (hval : kv.2.length ≤ 64 * 1024 * 1024) :
    Reads (takeSnapRow 4) (pairBytes kv) (snapRow kv) := by
  have hklen := reads_atMost "snapshot key too large"
    (reads_fileU32 (hkey.trans_lt (by decide))) hkey
  have hvlen := reads_atMost "snapshot row too large"
    (reads_fileU32 (hval.trans_lt (by decide))) hval
  rw [pairBytes, putBytes, putBytes, List.append_assoc]
  exact hklen.bind ((reads_takeN _ rfl).bind
    (hvlen.bind ((reads_takeN _ rfl).bind_pure .pure)))

theorem reads_takeTable (h : Survives t.1) (hfits : TableFits t)
    (hkeys : ∀ kv ∈ t.2, kv.1.length ≤ 1024 * 1024) (hcount : t.2.length < 2 ^ 64) :
    Reads (takeTable 4) (tableBytes t) (snapTable t) := by
  have hrow : ∀ kv ∈ t.2, Reads (takeSnapRow 4) (pairBytes kv) (snapRow kv) :=
    fun kv hkv => reads_takeSnapRow (hkeys kv hkv) (hfits.value kv hkv)
  exact (reads_takeDef h hfits.definition).bind
    ((reads_takeLe _ hcount).bind ((reads_takeMany_map hrow).bind_pure .pure))

/-- What is within the limits is read back. -/
theorem reads_snapshotBody {s : Stored} (hdefs : ∀ t ∈ s.tables, Survives t.1)
    (hkeys : ∀ t ∈ s.tables, ∀ kv ∈ t.2, kv.1.length ≤ 1024 * 1024) (hfits : s.SnapshotFits) :
    Reads (snapshotBody 4) (bodyBytes s.databases s.tables)
      (s.databases, s.tables.map snapTable) := by
  have hdbs : Reads (takeDatabases 4) (putU32 s.databases.length ++ s.databases.flatMap putStr)
      s.databases := by
    have hcount := reads_atMost "snapshot db count too large"
      (reads_fileU32 (hfits.databases.trans_lt (by decide))) hfits.databases
    exact hcount.bind (reads_takeMany fun db hdb => reads_takeDbName (hfits.name db hdb))
  have hcount := reads_atMost "snapshot table count too large"
    (reads_fileU32 (hfits.tables.trans_lt (by decide))) hfits.tables
  have htables := reads_takeMany_map fun t ht =>
    reads_takeTable (hdefs t ht) (hfits.table t ht) (hkeys t ht) (s.counted t ht)
  rw [bodyBytes, ← List.append_assoc]
  exact hdbs.bind (hcount.bind (htables.bind_pure .pure))

/-- What is written is read as an image of the present format. -/
theorem run_decodeSnapshot (body : Bytes) :
    decodeSnapshot.run (snapshotMagic ++ (putU32 snapshotFormatVersion ++ body)) =
      (snapshotBody 4).run body := by
  have hmagic : Reads (takeN 4 fileEnd) snapshotMagic snapshotMagic := reads_takeN _ rfl
  have hversion : Reads fileU32 (putU32 snapshotFormatVersion) 4 := reads_fileU32 (by decide)
  rw [decodeSnapshot, hmagic.run_bind, if_neg (not_not.2 rfl)]
  exact hversion.run_bind body

/-! ## What is not read back -/

theorem yields_takeDbName : Yields takeDbName fun s => (utf8 s).length ≤ 1024 := by
  refine yields_atMost.bind fun n hn => yields_takeN.bind fun bs hbs => ?_
  cases hs : fromUtf8 bs with
  | none => exact .throw
  | some s =>
    refine .pure ?_
    rw [utf8_of_fromUtf8 hs, hbs]
    exact hn

theorem yields_takeDef : Yields (takeDef 4) fun d =>
    (encodeTableDef d).length ≤ 2 * (16 * 1024 * 1024) := by
  refine yields_atMost.bind fun n hn => yields_takeN.bind fun buf hbuf => ?_
  have hdef : Yields (liftM ((decodeTableDef false).run buf) : Decoder Error (TableDef × Bytes))
      fun r => (encodeTableDef r.1).length ≤ 2 * (16 * 1024 * 1024) := by
    refine yields_lift fun r hr => ?_
    have hpays : 2 * r.2.length + (encodeTableDef r.1).length ≤ 2 * buf.length :=
      pays_decodeTableDef buf r.1 r.2 hr
    omega
  exact hdef.bind fun r hr => .pure hr

theorem yields_takeSnapRow : Yields (takeSnapRow 4) fun row =>
    row.value.length ≤ 64 * 1024 * 1024 := by
  refine yields_atMost.bind fun klen _ => yields_takeN.bind fun key _ => ?_
  refine yields_atMost.bind fun vlen hvlen => yields_takeN.bind fun value hvalue => .pure ?_
  rw [hvalue]
  exact hvlen

theorem yields_takeTable : Yields (takeTable 4) fun t =>
    (encodeTableDef t.1).length ≤ 2 * (16 * 1024 * 1024) ∧
      ∀ row ∈ t.2, row.value.length ≤ 64 * 1024 * 1024 :=
  yields_takeDef.bind fun _ hd => Yields.trivial.bind fun n _ =>
    (yields_takeMany yields_takeSnapRow n).bind fun _ hrows => .pure ⟨hd, hrows.2⟩

/-- Whatever is read back is within the limits, but for the length of a definition. -/
theorem yields_snapshotBody : Yields (snapshotBody 4) fun r =>
    (r.1.length ≤ 10000 ∧ ∀ db ∈ r.1, (utf8 db).length ≤ 1024) ∧ r.2.length ≤ 100000 ∧
      ∀ t ∈ r.2, (encodeTableDef t.1).length ≤ 2 * (16 * 1024 * 1024) ∧
        ∀ row ∈ t.2, row.value.length ≤ 64 * 1024 * 1024 := by
  have hdbs : Yields (takeDatabases 4) fun dbs =>
      dbs.length ≤ 10000 ∧ ∀ db ∈ dbs, (utf8 db).length ≤ 1024 := by
    refine yields_atMost.bind fun n hn => (yields_takeMany yields_takeDbName n).mono fun l hl => ?_
    exact ⟨hl.1.trans_le hn, hl.2⟩
  refine hdbs.bind fun dbs hdbs => yields_atMost.bind fun n hn => ?_
  exact (yields_takeMany yields_takeTable n).bind fun tables htables =>
    .pure ⟨hdbs, htables.1.trans_le hn, htables.2⟩

theorem run_bind_error {α β : Type} {dec : Decoder Error α} {f : α → Decoder Error β}
    {input : Bytes} {e : Error} (h : dec.run input = .error e) :
    (dec >>= f).run input = .error e := by
  rw [StateT.run_bind, h]
  rfl

/-- A definition that is too long is refused. -/
theorem takeTable_large (hlarge : 16 * 1024 * 1024 < (encodeTableDef t.1).length)
    (hlt : (encodeTableDef t.1).length < 2 ^ 32) (rest : Bytes) :
    (takeTable 4).run (tableBytes t ++ rest) =
      .error (.corrupted "snapshot table def too large") := by
  have hcount : (atMost fileU32 (16 * 1024 * 1024) "snapshot table def too large").run
      (tableBytes t ++ rest) = .error (.corrupted "snapshot table def too large") := by
    rw [tableBytes, putBytes, List.append_assoc, List.append_assoc, atMost,
      (reads_fileU32 hlt).run_bind, if_pos hlarge]
    rfl
  exact run_bind_error (run_bind_error hcount)

/-- Where all tables are read, each definition is within its limit. -/
theorem definition_fits : ∀ {tables : List (TableDef × Pairs)} {tail : Bytes}
    {out : List (TableDef × List SnapRow)} {rest : Bytes},
    (∀ t ∈ tables, Survives t.1 ∧ (encodeTableDef t.1).length < 2 ^ 32 ∧ t.2.length < 2 ^ 64 ∧
      ∀ kv ∈ t.2, kv.1.length ≤ 1024 * 1024 ∧ kv.2.length ≤ 64 * 1024 * 1024) →
    (takeMany (takeTable 4) tables.length).run (tables.flatMap tableBytes ++ tail) =
      .ok (out, rest) →
    ∀ t ∈ tables, (encodeTableDef t.1).length ≤ 16 * 1024 * 1024
  | [], _, _, _, _, _ => by simp
  | t :: tables, tail, out, rest, h, hrun => by
    obtain ⟨⟨hsurvives, hlt, hcount, hrows⟩, htables⟩ := List.forall_mem_cons.1 h
    rw [List.flatMap_cons, List.append_assoc, List.length_cons, takeMany] at hrun
    rcases Nat.lt_or_ge (16 * 1024 * 1024) (encodeTableDef t.1).length with hlarge | hfits
    · rw [run_bind_error (takeTable_large hlarge hlt _)] at hrun
      cases hrun
    · have hread := reads_takeTable hsurvives ⟨hfits, fun kv hkv => (hrows kv hkv).2⟩
        (fun kv hkv => (hrows kv hkv).1) hcount
      rw [hread.run_bind, StateT.run_bind] at hrun
      cases hmore : (takeMany (takeTable 4) tables.length).run
          (tables.flatMap tableBytes ++ tail) with
      | error e =>
        rw [hmore] at hrun
        cases hrun
      | ok r => exact List.forall_mem_cons.2 ⟨hfits, definition_fits htables hmore⟩

/-- A snapshot is read back just if what is stored is within the limits of the reader. -/
theorem decodeSnapshot_iff {s : Stored} {bytes : Bytes} (hdefs : ∀ t ∈ s.tables, Survives t.1)
    (h : encodeSnapshot s.databases s.tables = .ok bytes) :
    decodeSnapshot.run bytes = .ok ((s.databases, s.tables.map snapTable), []) ↔
      s.SnapshotFits := by
  obtain ⟨hkeys, rfl⟩ := encodeSnapshot_ok h
  rw [run_decodeSnapshot]
  constructor
  · intro hrun
    obtain ⟨⟨hdbs, hnames⟩, htables, hrows⟩ := yields_snapshotBody _ _ _ hrun
    rw [List.length_map] at htables
    have hrow : ∀ t ∈ s.tables, (encodeTableDef t.1).length ≤ 2 * (16 * 1024 * 1024) ∧
        ∀ kv ∈ t.2, kv.2.length ≤ 64 * 1024 * 1024 := by
      intro t ht
      obtain ⟨hdef, hvalues⟩ := hrows _ (List.mem_map_of_mem ht)
      exact ⟨hdef, fun kv hkv => hvalues _ (List.mem_map_of_mem hkv)⟩
    have hdbsRead := reads_atMost "snapshot db count too large"
      (reads_fileU32 (hdbs.trans_lt (by decide))) hdbs
    have hread : Reads (takeDatabases 4) _ s.databases :=
      hdbsRead.bind (reads_takeMany fun db hdb => reads_takeDbName (hnames db hdb))
    have hcount := reads_atMost "snapshot table count too large"
      (reads_fileU32 (htables.trans_lt (by decide))) htables
    rw [bodyBytes, ← List.append_assoc, snapshotBody, hread.run_bind, hcount.run_bind,
      StateT.run_bind] at hrun
    cases hmany : (takeMany (takeTable 4) s.tables.length).run (s.tables.flatMap tableBytes) with
    | error e =>
      rw [hmany] at hrun
      cases hrun
    | ok r =>
      rw [← List.append_nil (s.tables.flatMap tableBytes)] at hmany
      have hfits := definition_fits (fun t ht => ⟨hdefs t ht, by have := (hrow t ht).1; omega,
        s.counted t ht, fun kv hkv => ⟨hkeys t ht kv hkv, (hrow t ht).2 kv hkv⟩⟩) hmany
      exact ⟨hdbs, hnames, htables, fun t ht => ⟨hfits t ht, (hrow t ht).2⟩⟩
  · intro hfits
    have hrun := reads_snapshotBody hdefs hkeys hfits []
    rwa [List.append_nil] at hrun

end HenchDB.Backup
