import HenchDB.Backup.Snapshot

/-!
# Backup archives

`dump_stream` writes an archive: the users, the databases, the tables with their rows and
the pages, with counts and a checksum behind them.  `decode_archive` reads it.

The writer holds what it writes against the limits of the reader, all but the length of
the name of a database.  An archive is read back just if these names are short enough
(`decodeArchive_iff`).
-/

namespace HenchDB.Backup

open Codec Outcome Wal

/-! ## Writing -/

/-- `u32::to_be_bytes`. -/
def beU32 (n : Nat) : Bytes := (leBytes 4 n).reverse

/-- `u64::to_be_bytes`. -/
def beU64 (n : Nat) : Bytes := (leBytes 8 n).reverse

def backupMagic : Bytes := [72, 68, 66, 66]

def backupVersion : Nat := 1

def maxDbs : Nat := 10000

def maxTables : Nat := 100000

def maxNameLen : Nat := 1024

def maxAuthLen : Nat := 1024 * 1024

def maxDefLen : Nat := 16 * 1024 * 1024

def maxKeyLen : Nat := 1024 * 1024

def maxValLen : Nat := 64 * 1024 * 1024

def maxPagesLen : Nat := 2 ^ 32

def beBytes (bs : Bytes) : Bytes := beU32 bs.length ++ bs

def refuseAbove (limit n : Nat) (msg : String) : Except Error Unit :=
  if limit < n then .error (.corrupted msg) else .ok ()

/-- A row of `dump_stream`. -/
def dumpPair (kv : Bytes × Bytes) : Except Error Bytes :=
  if maxKeyLen < kv.1.length ∨ maxValLen < kv.2.length then
    .error (.corrupted "backup row too large")
  else .ok (beBytes kv.1 ++ beBytes kv.2)

/-- A table of `dump_stream`. -/
def dumpTable (t : TableDef × Pairs) : Except Error Bytes := do
  refuseAbove maxDefLen (encodeTableDef t.1).length "table def too large"
  refuseAbove maxValLen t.2.length "too many rows"
  let rows ← t.2.mapM dumpPair
  return beBytes (encodeTableDef t.1) ++ (beU64 t.2.length ++ rows.flatten)

def totalRows (tables : List (TableDef × Pairs)) : Nat := (tables.map fun t => t.2.length).sum

def header (ts : UInt64) : Bytes :=
  backupMagic ++ (beU32 backupVersion ++ (beU64 ts.toNat ++
    beU32 (crc32 (beU32 backupVersion ++ beU64 ts.toNat)).toNat))

/-- `dump_stream` at the time `ts`, with what the files of the users and of the pages hold. -/
def dumpStream (ts : UInt64) (auth pages : Bytes) (databases : List String)
    (tables : List (TableDef × Pairs)) : Except Error Bytes := do
  refuseAbove maxAuthLen auth.length "auth.bin too large for backup"
  refuseAbove maxDbs databases.length "too many databases"
  refuseAbove maxTables tables.length "too many tables"
  let dumped ← tables.mapM dumpTable
  refuseAbove maxPagesLen pages.length "pages file too large"
  let payload := beBytes auth ++ (beU32 databases.length ++
    ((databases.flatMap fun db => beBytes (utf8 db)) ++ (beU32 tables.length ++
      (dumped.flatten ++ (beU64 pages.length ++ (pages ++
        (beU32 tables.length ++ beU64 (totalRows tables))))))))
  return header ts ++ (payload ++ beU32 (crc32 payload).toNat)

/-! ## Reading -/

structure DecodedBackup where
  databases : List String
  tables : List (TableDef × Pairs)
  pages : Bytes
  auth : Bytes

def takeRaw (n : Nat) : Decoder Error Bytes := takeN n (.corrupted "backup: truncated")

def take (n : Nat) : Decoder Error Bytes :=
  if max (max maxValLen maxDefLen) maxPagesLen < n then
    throw (.corrupted "backup: length too large")
  else takeRaw n

/-- `CrcReader::u32`. -/
def takeU32be : Decoder Error Nat := do
  return beValue (← take 4)

/-- `CrcReader::u64`. -/
def takeU64be : Decoder Error Nat := do
  return beValue (← take 8)

/-- `CrcReader::name`. -/
def takeName : Decoder Error String := do
  let len ← atMost takeU32be maxNameLen "backup: name too long"
  match fromUtf8 (← take len) with
  | some s => return s
  | none => throw (.corrupted "backup: bad utf8")

/-- A row of `decode_archive`. -/
def takePair : Decoder Error (Bytes × Bytes) := do
  let klen ← atMost takeU32be maxKeyLen "backup key too large"
  let key ← take klen
  let vlen ← atMost takeU32be maxValLen "backup value too large"
  let val ← take vlen
  return (key, val)

/-- A table of `decode_archive` behind those that were read. -/
def takeBackupTable (done : List (TableDef × Pairs)) : Decoder Error (TableDef × Pairs) := do
  let defLen ← atMost takeU32be maxDefLen "backup table def too large"
  let defBuf ← take defLen
  let r ← ((decodeTableDef false).run defBuf : Except Error (TableDef × Bytes))
  if r.2 ≠ [] then throw (.corrupted "backup table def trailing bytes")
  if done.any fun t => t.1.name = r.1.name then throw (.corrupted "duplicate table in backup")
  let nrows ← atMost takeU64be maxValLen "backup row count too large"
  let rows ← takeMany takePair nrows
  return (r.1, rows)

def takeBackupTables : Nat → List (TableDef × Pairs) → Decoder Error (List (TableDef × Pairs))
  | 0, done => pure done
  | n + 1, done => do
    let t ← takeBackupTable done
    takeBackupTables n (done ++ [t])

/-- What the checksum of an archive covers. -/
def takePayload : Decoder Error DecodedBackup := do
  let authLen ← atMost takeU32be maxAuthLen "backup auth too large"
  let auth ← take authLen
  let ndbs ← atMost takeU32be maxDbs "backup db count too large"
  let databases ← takeMany takeName ndbs
  let ntables ← atMost takeU32be maxTables "backup table count too large"
  let tables ← takeBackupTables ntables []
  let pagesLen ← atMost takeU64be maxPagesLen "backup pages too large"
  let pages ← take pagesLen
  let footTables ← takeU32be
  let footRows ← takeU64be
  if footTables ≠ tables.length ∨ footRows ≠ totalRows tables then
    throw (.corrupted "backup footer count mismatch")
  return { databases, tables, pages, auth }

/-- The fixed header of `decode_archive`. -/
def takeHeader : Decoder Error Unit := do
  let magic ← takeRaw 4
  if magic ≠ backupMagic then throw (.corrupted "bad backup magic")
  let version ← takeRaw 4
  if beValue version ≠ backupVersion then
    throw (.corrupted ("backup version " ++ toString (beValue version)))
  let ts ← takeRaw 8
  let hcrc ← takeRaw 4
  if (crc32 (version ++ ts)).toNat ≠ beValue hcrc then
    throw (.corrupted "backup header CRC mismatch")

/-- The header, the payload and its checksum.  The checksum is folded over what is taken. -/
def takeArchive : Decoder Error DecodedBackup := do
  takeHeader
  let (decoded, covered) ← tracked takePayload
  let got ← takeRaw 4
  if beValue got ≠ (crc32 covered).toNat then throw (.corrupted "backup payload CRC mismatch")
  return decoded

/-- `decode_archive`, with the number of bytes that were taken. -/
def decodeArchive : Decoder Error (DecodedBackup × Nat) := do
  let (decoded, taken) ← tracked takeArchive
  return (decoded, taken.length)

/-! ## What is written -/

def rowBytes (kv : Bytes × Bytes) : Bytes := beBytes kv.1 ++ beBytes kv.2

def dumpedTable (t : TableDef × Pairs) : Bytes :=
  beBytes (encodeTableDef t.1) ++ (beU64 t.2.length ++ t.2.flatMap rowBytes)

def payloadBytes (auth pages : Bytes) (databases : List String)
    (tables : List (TableDef × Pairs)) : Bytes :=
  beBytes auth ++ (beU32 databases.length ++
    ((databases.flatMap fun db => beBytes (utf8 db)) ++ (beU32 tables.length ++
      (tables.flatMap dumpedTable ++ (beU64 pages.length ++ (pages ++
        (beU32 tables.length ++ beU64 (totalRows tables))))))))

structure TableDumps (t : TableDef × Pairs) : Prop where
  definition : (encodeTableDef t.1).length ≤ maxDefLen
  rows : t.2.length ≤ maxValLen
  row : ∀ kv ∈ t.2, kv.1.length ≤ maxKeyLen ∧ kv.2.length ≤ maxValLen

/-- What the writer lets pass. -/
structure Dumps (auth pages : Bytes) (dbs : List String) (tabs : List (TableDef × Pairs)) :
    Prop where
  auth : auth.length ≤ maxAuthLen
  databases : dbs.length ≤ maxDbs
  tables : tabs.length ≤ maxTables
  table : ∀ t ∈ tabs, TableDumps t
  pages : pages.length ≤ maxPagesLen

theorem refuseAbove_ok {limit n : Nat} {msg : String} (h : refuseAbove limit n msg = .ok ()) :
    n ≤ limit := by
  rw [refuseAbove] at h
  split at h
  · cases h
  · omega

theorem dumpPair_ok {kv : Bytes × Bytes} {bs : Bytes} (h : dumpPair kv = .ok bs) :
    (kv.1.length ≤ maxKeyLen ∧ kv.2.length ≤ maxValLen) ∧ bs = rowBytes kv := by
  rw [dumpPair] at h
  split at h
  · cases h
  · next hfits =>
    cases h
    rw [not_or, Nat.not_lt, Nat.not_lt] at hfits
    exact ⟨hfits, rfl⟩

theorem dumpTable_ok {t : TableDef × Pairs} {bs : Bytes} (h : dumpTable t = .ok bs) :
    TableDumps t ∧ bs = dumpedTable t := by
  rw [dumpTable] at h
  obtain ⟨_, hdef, h⟩ := bind_ok h
  obtain ⟨_, hcount, h⟩ := bind_ok h
  obtain ⟨rows, hrows, h⟩ := bind_ok h
  obtain ⟨hrow, rfl⟩ := mapM_ok (fun _ _ => dumpPair_ok) hrows
  cases h
  refine ⟨⟨refuseAbove_ok hdef, refuseAbove_ok hcount, hrow⟩, ?_⟩
  rw [dumpedTable, List.flatMap_def]

variable {auth pages : Bytes} {tables : List (TableDef × Pairs)}

theorem dumpStream_ok {ts : UInt64} {bytes : Bytes} {databases : List String}
    (h : dumpStream ts auth pages databases tables = .ok bytes) :
    Dumps auth pages databases tables ∧
      bytes = header ts ++ (payloadBytes auth pages databases tables ++
        beU32 (crc32 (payloadBytes auth pages databases tables)).toNat) := by
  rw [dumpStream] at h
  obtain ⟨_, hauth, h⟩ := bind_ok h
  obtain ⟨_, hdbs, h⟩ := bind_ok h
  obtain ⟨_, htables, h⟩ := bind_ok h
  obtain ⟨dumped, hdumped, h⟩ := bind_ok h
  obtain ⟨_, hpages, h⟩ := bind_ok h
  obtain ⟨htable, rfl⟩ := mapM_ok (fun _ _ => dumpTable_ok) hdumped
  have hflat : (tables.map dumpedTable).flatten = tables.flatMap dumpedTable :=
    List.flatMap_def.symm
  cases h
  rw [hflat]
  exact ⟨⟨refuseAbove_ok hauth, refuseAbove_ok hdbs, refuseAbove_ok htables, htable,
    refuseAbove_ok hpages⟩, rfl⟩

/-! ## What is read back -/

variable {n : Nat} {bs : Bytes}

/-- What an archive of what is stored should be read back as. -/
def Stored.decoded (s : Stored) (auth pages : Bytes) : DecodedBackup :=
  { databases := s.databases, tables := s.tables, pages := pages, auth := auth }

theorem length_beU32 (n : Nat) : (beU32 n).length = 4 := by
  rw [beU32, List.length_reverse, length_leBytes]

theorem length_beU64 (n : Nat) : (beU64 n).length = 8 := by
  rw [beU64, List.length_reverse, length_leBytes]

theorem beValue_beU32 (h : n < 2 ^ 32) : beValue (beU32 n) = n := by
  rw [beValue, beU32, List.reverse_reverse]
  exact leValue_leBytes h

theorem beValue_beU64 (h : n < 2 ^ 64) : beValue (beU64 n) = n := by
  rw [beValue, beU64, List.reverse_reverse]
  exact leValue_leBytes h

theorem reads_take (h : bs.length ≤ maxPagesLen) : Reads (take bs.length) bs bs := by
  have hcap : ¬ max (max maxValLen maxDefLen) maxPagesLen < bs.length := by
    rw [Nat.not_lt]
    exact h.trans (Nat.le_max_right _ _)
  rw [take, if_neg hcap]
  exact reads_takeN _ rfl

theorem reads_takeU32be (h : n < 2 ^ 32) : Reads takeU32be (beU32 n) n := by
  have htake : Reads (take 4) (beU32 n) (beU32 n) := reads_takeN _ (length_beU32 n)
  refine htake.bind_pure ?_
  rw [beValue_beU32 h]
  exact .pure

theorem reads_takeU64be (h : n < 2 ^ 64) : Reads takeU64be (beU64 n) n := by
  have htake : Reads (take 8) (beU64 n) (beU64 n) := reads_takeN _ (length_beU64 n)
  refine htake.bind_pure ?_
  rw [beValue_beU64 h]
  exact .pure

/-- A length of four bytes within a limit. -/
theorem reads_atMostU32 {limit : Nat} (msg : String) (h : n ≤ limit) (hlimit : limit < 2 ^ 32) :
    Reads (atMost takeU32be limit msg) (beU32 n) n :=
  reads_atMost _ (reads_takeU32be (h.trans_lt hlimit)) h

theorem reads_takeName {s : String} (h : (utf8 s).length ≤ maxNameLen) :
    Reads takeName (beBytes (utf8 s)) s := by
  refine (reads_atMostU32 _ h (by decide)).bind ((reads_take (h.trans (by decide))).bind_pure ?_)
  rw [fromUtf8_utf8]
  exact .pure

theorem reads_takePair {kv : Bytes × Bytes} (hkey : kv.1.length ≤ maxKeyLen)
    (hval : kv.2.length ≤ maxValLen) : Reads takePair (rowBytes kv) kv := by
  rw [rowBytes, beBytes, beBytes, List.append_assoc]
  exact (reads_atMostU32 _ hkey (by decide)).bind ((reads_take (hkey.trans (by decide))).bind
    ((reads_atMostU32 _ hval (by decide)).bind ((reads_take (hval.trans (by decide))).bind_pure
      .pure)))

theorem reads_takeBackupTable {t : TableDef × Pairs} {done : List (TableDef × Pairs)}
    (hsurvives : Survives t.1) (h : TableDumps t) (hnew : ∀ x ∈ done, x.1.name ≠ t.1.name) :
    Reads (takeBackupTable done) (dumpedTable t) t := by
  have hdup : ¬ (done.any fun x => x.1.name = t.1.name) = true := by
    rw [List.any_eq_true]
    rintro ⟨x, hx, hname⟩
    exact hnew x hx (of_decide_eq_true hname)
  have hrow : ∀ kv ∈ t.2, Reads takePair (rowBytes kv) kv :=
    fun kv hkv => reads_takePair (h.row kv hkv).1 (h.row kv hkv).2
  have hcount : Reads (atMost takeU64be maxValLen "backup row count too large") (beU64 t.2.length)
      t.2.length := reads_atMost _ (reads_takeU64be (h.rows.trans_lt (by decide))) h.rows
  rw [dumpedTable, beBytes, List.append_assoc]
  refine (reads_atMostU32 _ h.definition (by decide)).bind ?_
  refine (reads_take (h.definition.trans (by decide))).bind ?_
  show Reads _ ([] ++ (beU64 t.2.length ++ t.2.flatMap rowBytes)) _
  refine (reads_lift hsurvives).bind ?_
  rw [if_neg (not_not.2 rfl), if_neg hdup]
  exact hcount.bind ((reads_takeMany hrow).bind_pure .pure)

theorem reads_takeBackupTables : ∀ {tables done : List (TableDef × Pairs)},
    (∀ t ∈ tables, Survives t.1 ∧ TableDumps t) →
    ((done ++ tables).map fun t => t.1.name).Nodup →
    Reads (takeBackupTables tables.length done) (tables.flatMap dumpedTable) (done ++ tables)
  | [], done, _, _ => by
    rw [List.append_nil]
    exact .pure
  | t :: tables, done, h, hdistinct => by
    obtain ⟨⟨hsurvives, hdumps⟩, htables⟩ := List.forall_mem_cons.1 h
    have hnew : ∀ x ∈ done, x.1.name ≠ t.1.name := by
      intro x hx
      rw [List.map_append, List.nodup_append] at hdistinct
      exact hdistinct.2.2 _ (List.mem_map_of_mem hx) _ (List.mem_cons_self ..)
    rw [List.append_cons] at hdistinct ⊢
    rw [List.flatMap_cons]
    exact (reads_takeBackupTable hsurvives hdumps hnew).bind
      (reads_takeBackupTables htables hdistinct)

/-- The rows of all tables are counted by 64 bits. -/
theorem totalRows_lt (hlen : tables.length ≤ maxTables)
    (hrows : ∀ t ∈ tables, t.2.length ≤ maxValLen) : totalRows tables < 2 ^ 64 := by
  have hsum : totalRows tables ≤ tables.length * maxValLen := by
    have hcard := List.sum_le_card_nsmul (tables.map fun t => t.2.length) maxValLen (by
      intro n hn
      obtain ⟨t, ht, rfl⟩ := List.mem_map.1 hn
      exact hrows t ht)
    rwa [List.length_map, smul_eq_mul] at hcard
  calc totalRows tables ≤ tables.length * maxValLen := hsum
    _ ≤ maxTables * maxValLen := Nat.mul_le_mul_right _ hlen
    _ < 2 ^ 64 := by decide

theorem reads_takePayload {s : Stored} (hdefs : ∀ t ∈ s.tables, Survives t.1)
    (h : Dumps auth pages s.databases s.tables)
    (hnames : ∀ db ∈ s.databases, (utf8 db).length ≤ maxNameLen) :
    Reads takePayload (payloadBytes auth pages s.databases s.tables) (s.decoded auth pages) := by
  have hauth := reads_atMostU32 "backup auth too large" h.auth (by decide)
  have hdbs := reads_atMostU32 "backup db count too large" h.databases (by decide)
  have hdb := reads_takeMany fun db hdb => reads_takeName (hnames db hdb)
  have hcount := reads_atMostU32 "backup table count too large" h.tables (by decide)
  have htables := reads_takeBackupTables (fun t ht => ⟨hdefs t ht, h.table t ht⟩)
    (by rw [List.nil_append]; exact s.distinct)
  have hpages : Reads (atMost takeU64be maxPagesLen "backup pages too large") (beU64 pages.length)
      pages.length := reads_atMost _ (reads_takeU64be (h.pages.trans_lt (by decide))) h.pages
  have hfootTables := reads_takeU32be (h.tables.trans_lt (by decide))
  have hfootRows : Reads takeU64be (beU64 (totalRows s.tables)) (totalRows s.tables) :=
    reads_takeU64be (totalRows_lt h.tables fun t ht => (h.table t ht).rows)
  rw [payloadBytes, beBytes, List.append_assoc]
  refine hauth.bind ((reads_take (h.auth.trans (by decide))).bind (hdbs.bind (hdb.bind ?_)))
  refine hcount.bind (htables.bind (hpages.bind ((reads_take h.pages).bind ?_)))
  refine hfootTables.bind (hfootRows.bind_pure ?_)
  rw [List.nil_append, if_neg (by simp)]
  exact .pure

/-- The header that is written is accepted. -/
theorem reads_takeHeader (ts : UInt64) : Reads takeHeader (header ts) () := by
  have hmagic : Reads (takeRaw 4) backupMagic backupMagic := reads_takeN _ rfl
  have hversion : Reads (takeRaw 4) (beU32 backupVersion) (beU32 backupVersion) :=
    reads_takeN _ (length_beU32 _)
  have hts : Reads (takeRaw 8) (beU64 ts.toNat) (beU64 ts.toNat) := reads_takeN _ (length_beU64 _)
  have hcrc : ∀ c : UInt32, Reads (takeRaw 4) (beU32 c.toNat) (beU32 c.toNat) :=
    fun c => reads_takeN _ (length_beU32 _)
  refine hmagic.bind ?_
  rw [if_neg (not_not.2 rfl)]
  refine hversion.bind ?_
  rw [if_neg (by rw [beValue_beU32 (by decide)]; exact not_not.2 rfl)]
  refine hts.bind ((hcrc _).bind_pure ?_)
  rw [beValue_beU32 (UInt32.toNat_lt _), if_neg (not_not.2 rfl)]
  exact .pure

/-- What follows the payload is its checksum. -/
theorem reads_takeArchive {ts : UInt64} {payload : Bytes} {decoded : DecodedBackup}
    (h : Reads takePayload payload decoded) :
    Reads takeArchive (header ts ++ (payload ++ beU32 (crc32 payload).toNat)) decoded := by
  have hcrc : Reads (takeRaw 4) (beU32 (crc32 payload).toNat) (beU32 (crc32 payload).toNat) :=
    reads_takeN _ (length_beU32 _)
  refine (reads_takeHeader ts).bind (h.tracked.bind (hcrc.bind_pure ?_))
  rw [beValue_beU32 (UInt32.toNat_lt _), if_neg (not_not.2 rfl)]
  exact .pure

/-! ## What is not read back -/

theorem yields_takeName : Yields takeName fun s => (utf8 s).length ≤ maxNameLen := by
  have htake : ∀ n, Yields (take n) fun bs => bs.length = n := by
    intro n
    rw [take]
    split
    · exact .throw
    · exact yields_takeN
  refine yields_atMost.bind fun n hn => (htake n).bind fun bs hbs => ?_
  cases hs : fromUtf8 bs with
  | none => exact .throw
  | some s =>
    refine .pure ?_
    rw [utf8_of_fromUtf8 hs, hbs]
    exact hn

/-- Whatever is read back has databases with short names. -/
theorem yields_takeArchive : Yields takeArchive fun decoded =>
    ∀ db ∈ decoded.databases, (utf8 db).length ≤ maxNameLen := by
  have hpayload : Yields takePayload fun decoded =>
      ∀ db ∈ decoded.databases, (utf8 db).length ≤ maxNameLen := by
    refine Yields.trivial.bind fun authLen _ => Yields.trivial.bind fun auth _ => ?_
    refine Yields.trivial.bind fun ndbs _ => ?_
    refine (yields_takeMany yields_takeName ndbs).bind fun databases hnames => ?_
    refine Yields.trivial.bind fun ntables _ => Yields.trivial.bind fun tables _ => ?_
    refine Yields.trivial.bind fun pagesLen _ => Yields.trivial.bind fun pages _ => ?_
    refine Yields.trivial.bind fun footTables _ => Yields.trivial.bind fun footRows _ => ?_
    split
    · exact (Yields.throw (P := fun _ => False)).bind fun _ hfalse => hfalse.elim
    · exact .pure hnames.2
  refine Yields.trivial.bind fun _ _ => hpayload.tracked.bind fun r hr => ?_
  refine Yields.trivial.bind fun got _ => ?_
  split
  · exact (Yields.throw (P := fun _ => False)).bind fun _ hfalse => hfalse.elim
  · exact .pure hr

/-- An archive is read back just if the databases have short names. -/
theorem decodeArchive_iff {s : Stored} {ts : UInt64} {bytes : Bytes}
    (hdefs : ∀ t ∈ s.tables, Survives t.1)
    (h : dumpStream ts auth pages s.databases s.tables = .ok bytes) :
    decodeArchive.run bytes = .ok ((s.decoded auth pages, bytes.length), []) ↔
      ∀ db ∈ s.databases, (utf8 db).length ≤ maxNameLen := by
  obtain ⟨hdumps, rfl⟩ := dumpStream_ok h
  constructor
  · intro hrun
    have hyields : Yields decodeArchive fun r =>
        ∀ db ∈ r.1.databases, (utf8 db).length ≤ maxNameLen :=
      yields_takeArchive.tracked.bind fun r hr => .pure hr
    exact hyields _ _ _ hrun
  · intro hnames
    have hread := (@reads_takeArchive ts _ _ (reads_takePayload hdefs hdumps hnames)).tracked
    have hdecode : Reads decodeArchive _ _ := hread.bind_pure .pure
    have hrun := hdecode []
    rwa [List.append_nil] at hrun

/-- A snapshot is read back just if all is within the limits of its reader, and an archive
just if the databases have short names. -/
theorem read_back_iff (s : Stored) (hdefs : ∀ t ∈ s.tables, Survives t.1) :
    (∀ bytes, encodeSnapshot s.databases s.tables = .ok bytes →
      (decodeSnapshot.run bytes = .ok ((s.databases, s.tables.map snapTable), []) ↔
        s.SnapshotFits)) ∧
    ∀ ts auth pages bytes, dumpStream ts auth pages s.databases s.tables = .ok bytes →
      (decodeArchive.run bytes = .ok ((s.decoded auth pages, bytes.length), []) ↔
        ∀ db ∈ s.databases, (utf8 db).length ≤ maxNameLen) :=
  ⟨fun _ h => decodeSnapshot_iff hdefs h, fun _ _ _ _ h => decodeArchive_iff hdefs h⟩

/-- `CREATE TABLE t (id INT PRIMARY KEY)`. -/
def plainTable : TableDef where
  name := "default.t"
  schema :=
    { columns :=
        [{ name := "id", ctype := .int, nullable := false, autoIncrement := false,
           defaultValue := none }]
      pkIdx := 0 }
  indexes := []
  foreignKeys := []
  stats := none

theorem survives_plainTable : Survives plainTable := by
  refine (tableDef_round_trip_iff plainTable).2 ⟨?_, by simp [plainTable]⟩
  exact
    { name := by decide +kernel
      columns := by decide
      pkIdx := by decide
      column := by
        intro c hc
        cases List.mem_singleton.1 hc
        exact ⟨by decide +kernel, by simp⟩
      indexes := by decide
      index := by simp [plainTable]
      foreignKeys := by decide
      foreignKey := by simp [plainTable]
      stats := by simp [plainTable] }

/-- One table with one row. -/
def plainStored : Stored where
  databases := ["default"]
  tables := [(plainTable, [([9], [1, 9])])]
  distinct := by simp
  counted := by simp

theorem plainStored_read_back :
    (∀ bytes, encodeSnapshot plainStored.databases plainStored.tables = .ok bytes →
      (decodeSnapshot.run bytes =
          .ok ((plainStored.databases, plainStored.tables.map snapTable), []) ↔
        plainStored.SnapshotFits)) ∧
    ∀ ts auth pages bytes,
      dumpStream ts auth pages plainStored.databases plainStored.tables = .ok bytes →
      (decodeArchive.run bytes = .ok ((plainStored.decoded auth pages, bytes.length), []) ↔
        ∀ db ∈ plainStored.databases, (utf8 db).length ≤ maxNameLen) :=
  read_back_iff plainStored fun _ ht => by
    cases List.mem_singleton.1 ht
    exact survives_plainTable

/-- The name of a database, one letter longer than the readers allow. -/
def longName : String := String.ofList (List.replicate 1025 'a')

/-- `CREATE DATABASE` with that name, in an empty directory. -/
def longStored : Stored where
  databases := [longName, "default"]
  tables := []
  distinct := List.nodup_nil
  counted := by simp

theorem length_longName : (utf8 longName).length = 1025 := by decide +kernel

/-- `encode_snapshot` accepts the name, and `decode_snapshot` does not. -/
theorem longName_not_read_back : ¬ ∀ s : Stored, (∀ t ∈ s.tables, Survives t.1) →
    (∀ bytes, encodeSnapshot s.databases s.tables = .ok bytes →
      decodeSnapshot.run bytes = .ok ((s.databases, s.tables.map snapTable), [])) ∧
    ∀ ts auth pages bytes, dumpStream ts auth pages s.databases s.tables = .ok bytes →
      decodeArchive.run bytes = .ok ((s.decoded auth pages, bytes.length), []) := by
  intro h
  have hdefs : ∀ t ∈ longStored.tables, Survives t.1 := by simp [longStored]
  have hencode : ∃ bytes, encodeSnapshot longStored.databases longStored.tables = .ok bytes :=
    ⟨_, rfl⟩
  obtain ⟨bytes, hbytes⟩ := hencode
  have hfits := (decodeSnapshot_iff hdefs hbytes).1 ((h longStored hdefs).1 bytes hbytes)
  have hname := hfits.name longName (List.mem_cons_self ..)
  rw [length_longName] at hname
  omega

end HenchDB.Backup
