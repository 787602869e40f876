import HenchDB.Backup.Archive
import HenchDB.Ddl.Dictionary
import HenchDB.Keys
import HenchDB.Lib.Entries
import HenchDB.Replication.Offpage

/-!
# Snapshots on a replica

A wide row is in the page file, and the tree of its table has a locator in its place.
`apply_replica_snapshot` makes tables of the rows of an archive, replaces the page file by
the one of the archive and puts the tables in the place of the old ones.  To make a table
it decodes every row, and the page file is still the old one then.

So an archive without locators is applied to every replica, and one with a locator is not
applied to a replica whose page file is new (`snapshot_reproduced_iff`).  When its tables
cannot be made, nothing happens to the rows of the replica; an error of the checkpoint
leaves those of the archive.

The page file of an archive is taken as its pages by their ids.  The history of versions,
which is dropped, and the log are left out.
-/

namespace HenchDB.Replica

open Std (ExtTreeMap ExtTreeSet)
open Codec Program Pool Backup

/-! ## Tables of an archive -/

def putEntry (pk : Datum) (row : List Datum) (i : SecondaryIndex) :
    Except Fault SecondaryIndex := do
  let k ← (encodeSecIndexKey (Table.column row i.colIdx) pk).mapError Fault.err
  return { i with tree := i.tree.insert k }

/-- `Table::restore_kv` behind the row. -/
def putRestored (t : Table) (key val : Bytes) (row : List Datum) : Except Fault Table :=
  if t.indexes.isEmpty then .ok { t with tree := t.tree.insert key val }
  else do
    let pk ← decodeKey key
    let indexes ← t.indexes.mapM (putEntry pk row)
    return { t with tree := t.tree.insert key val, indexes := indexes }

def restoreKv (current : Nat) (t : Table) (kv : Bytes × Bytes) : PoolM Table := do
  let row ← decodeStored current t kv.2
  let expect ← lift (t.keyOf row)
  if expect ≠ kv.1 then throw (.err (.corrupted "snapshot key/row mismatch"))
  else settle (putRestored t kv.1 kv.2 row)

abbrev Tables := ExtTreeMap String Table

def stageTable (current : Nat) (x : TableDef × Pairs) : PoolM Table :=
  x.2.foldlM (restoreKv current) (Table.new x.1)

def stageTables (current : Nat) : List (TableDef × Pairs) → Tables → PoolM Tables
  | [], staged => return staged
  | x :: xs, staged => do
    let t ← stageTable current x
    stageTables current xs (staged.insert x.1.name t)

def stageDatabases (databases : List String) (tables : List (TableDef × Pairs)) :
    ExtTreeSet String :=
  let named := databases.foldl ExtTreeSet.insert ∅
  (tables.filterMap fun x => Catalog.databasePart x.1.name).foldl ExtTreeSet.insert
    (if named.isEmpty then named.insert "default" else named)

/-- `Table::scan` through the pool. -/
def scan (current : Nat) (t : Table) : PoolM (List (Datum × List Datum)) :=
  t.tree.toList.mapM fun e => do
    let pk ← settle (decodeKey e.1)
    let row ← decodeStored current t e.2
    return (pk, row)

/-- `Table::add_index` through the pool. -/
def addIndex (current : Nat) (t : Table) (name column : String) : PoolM Table :=
  match t.schema.indexOf column with
  | none => throw (.err (.columnNotFound column))
  | some colIdx => do
    if colIdx = t.schema.pkIdx then
      throw (.err (.invalidSchema "cannot create secondary index on primary key"))
    else if t.hasIndex name then throw (.err (.indexExists name))
    else
      let rows ← scan current t
      let keys ← lift (rows.mapM fun r =>
        encodeSecIndexKey (Table.column r.2 colIdx) (Table.column r.2 t.schema.pkIdx))
      let idx : SecondaryIndex :=
        { info := { name := name, column := column }
          colIdx := colIdx
          tree := keys.foldl ExtTreeSet.insert ∅ }
      return { t with indexes := t.indexes ++ [idx] }

/-- One foreign key of `fk_ensure_auto_indexes`. -/
def ensureIndex (current : Nat) (t : Table) (fk : ForeignKeyDef) : PoolM Table :=
  if t.covers fk then pure t else addIndex current t (t.autoIndexName fk.column) fk.column

def fkEnsureAutoIndexes (current : Nat) (t : Table) : PoolM Table :=
  t.info.foreignKeys.foldlM (ensureIndex current) t

def fkEnsureAllAutoIndexes (current : Nat) (c : Catalog) : PoolM Catalog := do
  let tables ← c.tables.toList.mapM fun e => do
    return (e.1, ← fkEnsureAutoIndexes current e.2)
  return { c with tables := tables.foldl (fun m e => m.insert e.1 e.2) ∅ }

/-! ## The snapshot -/

/-- What a snapshot replaces in a database. -/
structure Db where
  catalog : Catalog
  pool : Inner

abbrev DbM := Prog Db Fault

def onPool {α : Type} (m : PoolM α) : DbM α :=
  ExceptT.mk fun d => ((exec m d.pool).1, { d with pool := (exec m d.pool).2 })

/-- An archive: the databases, the tables with their rows, and the page file. -/
structure Archive where
  databases : List String
  tables : List (TableDef × Pairs)
  pages : PageFile

def rowsOf (c : Catalog) : List (TableDef × Pairs) :=
  c.tables.toList.map fun e => (e.2.tableDef, e.2.tree.toList)

def dumpLive (d : Db) : Except Error Archive := do
  let databases := d.catalog.databases.toList
  let tables := rowsOf d.catalog
  refuseAbove maxDbs databases.length "too many databases"
  refuseAbove maxTables tables.length "too many tables"
  let _ ← tables.mapM dumpTable
  refuseAbove maxPagesLen (d.pool.file.nextId * pageSize) "pages file too large"
  return { databases := databases, tables := tables, pages := d.pool.file }

/-- How the files answer while a snapshot is applied. -/
structure Files where
  /-- An error of `fs::write`, and what it leaves of the page file. -/
  write : Option (Error × PageFile)
  /-- An error of `PageFile::open`. -/
  reopen : Option Error
  /-- An error of the checkpoint: of the snapshot file, the archive or the log. -/
  persist : Option Error

/-- No file fails. -/
def Files.work : Files := ⟨none, none, none⟩

/-- `fs::write`, under the page file that the pool has open. -/
def writePages (files : Files) (pages : PageFile) : DbM Unit := do
  let written := (files.write.map Prod.snd).getD pages
  onPool (modify fun s => { s with file := { s.file with pages := written.pages } })
  match files.write with
  | none => pure ()
  | some (e, _) => throw (.err e)

/-- `BufferPool::invalidate`, with what the file has now. -/
def invalidate (files : Files) (pages : PageFile) : PoolM Unit :=
  match files.reopen with
  | none => modify fun s => .opened pages s.frames.length
  | some e => throw (.err e)

/-- `checkpoint`: the snapshot file that it writes. -/
def checkpoint (files : Files) : DbM Bytes := do
  let d ← get
  let bytes ← settle
    ((encodeSnapshot d.catalog.databases.toList (rowsOf d.catalog)).mapError Fault.err)
  match files.persist with
  | none => pure bytes
  | some e => throw (.err e)

/-- The first step of `apply_replica_snapshot`: the new tables are made beside the old. -/
def stageSnapshot (current : Nat) (a : Archive) : DbM Catalog := do
  let tables ← onPool (stageTables current a.tables ∅)
  let staged : Catalog := { databases := stageDatabases a.databases a.tables, tables := tables }
  let staged ← settle (staged.mapTables Table.refreshAutoInc)
  onPool (fkEnsureAllAutoIndexes current staged)

def applyReplicaSnapshot (files : Files) (current : Nat) (a : Archive) : DbM Unit := do
  let staged ← stageSnapshot current a
  writePages files a.pages
  onPool (invalidate files a.pages)
  modify fun d => { d with catalog := staged }
  let _ ← checkpoint files
  return ()

/-! ## What is staged -/

section
variable {s s' : Inner} {live : Frag → Option Bytes} {chain : Frag → List Frag}
  {key val : Bytes} {t t' : Table} {current : Nat}

theorem Calmly.restoreKv (current : Nat) (t : Table) (kv : Bytes × Bytes) :
    Calmly (restoreKv current t kv) := by
  refine (Calmly.decodeStored current t kv.2).bind fun row => (Calmly.lift _).bind fun expect => ?_
  split
  · exact .throw _
  · exact .settle _

theorem Calmly.stageTable (current : Nat) (x : TableDef × Pairs) : Calmly (stageTable current x) :=
  .foldlM (Calmly.restoreKv current) x.2 _

theorem Calmly.stageTables (current : Nat) :
    ∀ (xs : List (TableDef × Pairs)) (staged : Tables), Calmly (stageTables current xs staged)
  | [], staged => .pure staged
  | x :: xs, _ => (Calmly.stageTable current x).bind fun _ => stageTables current xs _

structure Extends (t t' : Table) (rows : Pairs) : Prop where
  info : t'.info = t.info
  indexes : t'.secondaryIndexes = t.secondaryIndexes
  stats : t'.stats = t.stats
  tree : t'.tree = rows.foldl (fun m e => m.insert e.1 e.2) t.tree

theorem Extends.trans {t'' : Table} {rows rows' : Pairs} (h : Extends t t' rows)
    (h' : Extends t' t'' rows') : Extends t t'' (rows ++ rows') where
  info := h'.info.trans h.info
  indexes := h'.indexes.trans h.indexes
  stats := h'.stats.trans h.stats
  tree := by rw [h'.tree, h.tree, List.foldl_append]

/-- The definitions of the indexes are kept by a change of their trees. -/
theorem mapM_info {f : SecondaryIndex → Except Fault SecondaryIndex}
    (h : ∀ i i', f i = .ok i' → i'.info = i.info) :
    ∀ {l l' : List SecondaryIndex}, l.mapM f = .ok l' →
      l'.map SecondaryIndex.info = l.map SecondaryIndex.info
  | [], _, hrun => by
    cases hrun
    rfl
  | i :: l, l', hrun => by
    rw [List.mapM_cons] at hrun
    obtain ⟨i', hi, hrun⟩ := Outcome.bind_ok hrun
    obtain ⟨is, hl, hrun⟩ := Outcome.bind_ok hrun
    cases hrun
    rw [List.map_cons, List.map_cons, h i i' hi, mapM_info h hl]

variable {row : List Datum}

theorem putRestored_extends (h : putRestored t key val row = .ok t') :
    Extends t t' [(key, val)] := by
  rw [putRestored] at h
  split at h
  · cases h
    exact ⟨rfl, rfl, rfl, rfl⟩
  · obtain ⟨pk, hpk, h⟩ := Outcome.bind_ok h
    obtain ⟨indexes, hindexes, h⟩ := Outcome.bind_ok h
    cases h
    refine ⟨rfl, mapM_info (fun i i' hi => ?_) hindexes, rfl, rfl⟩
    obtain ⟨k, -, hi⟩ := Outcome.bind_ok hi
    cases hi
    rfl

theorem putRestored_ok (h : t.keyOf row = .ok key) (val : Bytes) :
    ∃ t', putRestored t key val row = .ok t' := by
  rw [putRestored]
  split
  · exact ⟨_, rfl⟩
  · obtain ⟨pk, hpk, hkey⟩ := decodeKey_encodeKey h
    have hentry : ∀ i ∈ t.indexes, ∃ i', putEntry pk row i = .ok i' := by
      intro i _
      rw [putEntry, encodeSecIndexKey, hkey]
      exact ⟨_, rfl⟩
    obtain ⟨indexes, hindexes⟩ := Outcome.exists_mapM_ok.mpr hentry
    refine ⟨{ t with tree := t.tree.insert key val, indexes := indexes }, ?_⟩
    rw [hpk]
    show t.indexes.mapM (putEntry pk row) >>= _ = _
    rw [hindexes]
    rfl

theorem restoreKv_extends {kv : Bytes × Bytes} (h : Returns (restoreKv current t kv) s t' s') :
    Extends t t' [kv] := by
  obtain ⟨row, s1, -, h⟩ := Returns.of_bind h
  obtain ⟨expect, s2, -, h⟩ := Returns.of_bind h
  split at h
  · cases h
  · exact putRestored_extends (of_settle h).1

theorem returns_restoreKv (h : Kept s live chain) {kv : Bytes × Bytes}
    (hrow : StoredRow live t kv.1 kv.2 row) (current : Nat) :
    ∃ t' s', Returns (restoreKv current t kv) s t' s' := by
  obtain ⟨s', hdecode⟩ := returns_decodeStored h hrow current
  obtain ⟨full, -, -, hkey⟩ := hrow
  obtain ⟨t', hput⟩ := putRestored_ok hkey kv.2
  refine ⟨t', s', hdecode.bind ((returns_lift hkey s').bind ?_)⟩
  rw [if_neg (not_not_intro rfl), hput]
  exact returns_pure t' s'

/-- Restored rows are added to a table, whatever they are decoded to. -/
theorem foldlM_extends : ∀ {rows : Pairs} {t : Table} {s : Inner},
    Returns (rows.foldlM (restoreKv current) t) s t' s' → Extends t t' rows
  | [], _, _, h => by
    cases h
    exact ⟨rfl, rfl, rfl, rfl⟩
  | kv :: rows, t, _, h => by
    rw [List.foldlM_cons] at h
    obtain ⟨t1, s1, hkv, h⟩ := Returns.of_bind h
    exact (restoreKv_extends hkv).trans (foldlM_extends h)

theorem returns_foldlM : ∀ {rows : Pairs} {t : Table} {s : Inner}, Kept s live chain →
    (∀ kv ∈ rows, ∃ row, StoredRow live t kv.1 kv.2 row) → ∀ current,
    ∃ t' s', Returns (rows.foldlM (restoreKv current) t) s t' s'
  | [], t, s, _, _, _ => ⟨t, s, returns_pure t s⟩
  | kv :: rows, t, s, h, hrows, current => by
    obtain ⟨row, hrow⟩ := hrows kv List.mem_cons_self
    obtain ⟨t1, s1, hkv⟩ := returns_restoreKv h hrow current
    have hcalm := (Calmly.restoreKv current t kv).returns h.inv hkv
    have hschema : t1.schema = t.schema := congrArg TableDef.schema (restoreKv_extends hkv).info
    obtain ⟨t2, s2, hrest⟩ := returns_foldlM (h.spared hcalm.spared)
      (fun kv hkv => (hrows kv (List.mem_cons_of_mem _ hkv)).imp fun _ hrow => hrow.congr hschema)
      current
    refine ⟨t2, s2, ?_⟩
    rw [List.foldlM_cons]
    exact hkv.bind hrest

structure Built (x : TableDef × Pairs) (t : Table) : Prop where
  info : t.info = x.1
  indexes : t.secondaryIndexes = (Table.new x.1).secondaryIndexes
  stats : t.stats = x.1.stats
  tree : t.tree = x.2.foldl (fun m e => m.insert e.1 e.2) ∅

theorem stageTable_built {x : TableDef × Pairs} (h : Returns (stageTable current x) s t s') :
    Built x t := by
  have hextends := foldlM_extends h
  exact ⟨hextends.info, hextends.indexes, hextends.stats, hextends.tree⟩

theorem stageTables_built : ∀ {xs : List (TableDef × Pairs)} {staged tables : Tables} {s : Inner},
    (xs.map fun x => x.1.name).Nodup → Returns (stageTables current xs staged) s tables s' →
    (∀ x ∈ xs, ∃ t, tables[x.1.name]? = some t ∧ Built x t) ∧
      ∀ n, n ∉ xs.map (fun x => x.1.name) → tables[n]? = staged[n]?
  | [], _, _, _, _, h => by
    cases h
    exact ⟨by simp, fun _ _ => rfl⟩
  | x :: xs, staged, tables, _, hnodup, h => by
    obtain ⟨t, s1, hx, h⟩ := Returns.of_bind h
    rw [List.map_cons, List.nodup_cons] at hnodup
    obtain ⟨hbuilt, hother⟩ := stageTables_built hnodup.2 h
    refine ⟨List.forall_mem_cons.2 ⟨⟨t, ?_, stageTable_built hx⟩, hbuilt⟩, fun n hn => ?_⟩
    · rw [hother _ hnodup.1]
      exact ExtTreeMap.getElem?_insert_self
    · rw [List.map_cons, List.mem_cons, not_or] at hn
      rw [hother n hn.2, ExtTreeMap.getElem?_insert, if_neg]
      exact fun heq => hn.1 (Std.compare_eq_iff_eq.mp heq).symm

theorem returns_stageTables : ∀ {xs : List (TableDef × Pairs)} {staged : Tables} {s : Inner},
    Kept s live chain →
    (∀ x ∈ xs, ∀ kv ∈ x.2, ∃ row, StoredRow live (Table.new x.1) kv.1 kv.2 row) → ∀ current,
    ∃ tables s', Returns (stageTables current xs staged) s tables s'
  | [], staged, s, _, _, _ => ⟨staged, s, returns_pure staged s⟩
  | x :: xs, _, s, h, hrows, current => by
    obtain ⟨t, s1, hx⟩ := returns_foldlM h (hrows x List.mem_cons_self) current
    have hcalm := (Calmly.stageTable current x).returns h.inv hx
    obtain ⟨tables, s2, hrest⟩ := returns_stageTables (h.spared hcalm.spared)
      (fun x hx => hrows x (List.mem_cons_of_mem _ hx)) current
    exact ⟨tables, s2, Returns.bind (m := stageTable current x) hx hrest⟩

end

/-! ## A new page file -/

section
variable {t t' : Table} {current : Nat} {s' : Inner}

theorem restoreKv_newPool {kv : Bytes × Bytes}
    (h : Returns (restoreKv current t kv) newPool t' s') : isLocator kv.2 = false ∧
      s' = newPool := by
  obtain ⟨row, s1, hdecode, h⟩ := Returns.of_bind h
  obtain ⟨hloc, rfl⟩ := decodeStored_newPool hdecode
  obtain ⟨expect, s2, hkey, h⟩ := Returns.of_bind h
  obtain ⟨-, rfl⟩ := of_lift hkey
  split at h
  · cases h
  · obtain ⟨-, rfl⟩ := of_settle h
    exact ⟨hloc, rfl⟩

/-- What is staged with a new page file has no locators. -/
theorem foldlM_newPool : ∀ {rows : Pairs} {t : Table},
    Returns (rows.foldlM (restoreKv current) t) newPool t' s' →
      (∀ kv ∈ rows, isLocator kv.2 = false) ∧ s' = newPool
  | [], _, h => by
    cases h
    exact ⟨by simp, rfl⟩
  | kv :: rows, t, h => by
    rw [List.foldlM_cons] at h
    obtain ⟨t1, s1, hkv, h⟩ := Returns.of_bind h
    obtain ⟨hloc, rfl⟩ := restoreKv_newPool hkv
    obtain ⟨hrows, rfl⟩ := foldlM_newPool h
    exact ⟨List.forall_mem_cons.2 ⟨hloc, hrows⟩, rfl⟩

theorem stageTables_newPool : ∀ {xs : List (TableDef × Pairs)} {staged tables : Tables},
    Returns (stageTables current xs staged) newPool tables s' →
      ∀ x ∈ xs, ∀ kv ∈ x.2, isLocator kv.2 = false
  | [], _, _, _ => by simp
  | x :: xs, _, _, h => by
    obtain ⟨t, s1, hx, h⟩ := Returns.of_bind h
    obtain ⟨hrows, rfl⟩ := foldlM_newPool hx
    exact List.forall_mem_cons.2 ⟨hrows, stageTables_newPool h⟩

end

/-! ## Running databases -/

/-- A database, with what is live in its pool.  A stored value is a row with its key, or is
the locator of one. -/
structure Running extends Db where
  live : Frag → Option Bytes
  chain : Frag → List Frag
  kept : Kept pool live chain
  named : ∀ (n : String) t, catalog.tables[n]? = some t → t.info.name = n
  qualified : ∀ (n : String) t, catalog.tables[n]? = some t →
    ∃ db, Catalog.databasePart n = some db ∧ db ∈ catalog.databases
  indexed : ∀ (n : String) t, catalog.tables[n]? = some t → ∀ i ∈ t.indexes,
    t.schema.indexOf i.info.column = some i.colIdx
  covered : ∀ (n : String) t, catalog.tables[n]? = some t → ∀ fk ∈ t.info.foreignKeys,
    t.covers fk = true
  stored : ∀ (n : String) t, catalog.tables[n]? = some t → ∀ (k : Bytes) raw,
    t.tree[k]? = some raw → ∃ row, StoredRow live t k raw row

/-- The row is what is found under the key, in every epoch. -/
def Db.Finds (d : Db) (n : String) (k : Bytes) (row : List Datum) : Prop :=
  ∃ t raw, d.catalog.tables[n]? = some t ∧ t.tree[k]? = some raw ∧
    ∀ current, ∃ s, Returns (decodeStored current t raw) d.pool row s

/-- The databases, the tables and the rows are the same. -/
structure Reproduces (p d : Db) : Prop where
  databases : ∀ db, db ∈ d.catalog.databases ↔ db ∈ p.catalog.databases
  tables : ∀ n : String,
    (d.catalog.tables[n]?).map Table.tableDef = (p.catalog.tables[n]?).map Table.tableDef
  rows : ∀ n k row, d.Finds n k row ↔ p.Finds n k row

section
variable {s : Inner} {live : Frag → Option Bytes} {chain : Frag → List Frag} {d : Db}
  {t t' : Table} {c : Catalog}

/-- What is found is what the value stands for. -/
theorem finds_iff (hkept : Kept d.pool live chain)
    (hstored : ∀ (n : String) t, d.catalog.tables[n]? = some t → ∀ (k : Bytes) raw,
      t.tree[k]? = some raw → ∃ row, StoredRow live t k raw row)
    (n : String) (k : Bytes) (row : List Datum) :
    d.Finds n k row ↔ ∃ t raw, d.catalog.tables[n]? = some t ∧ t.tree[k]? = some raw ∧
      StoredRow live t k raw row := by
  constructor
  · rintro ⟨t, raw, ht, hraw, hreads⟩
    obtain ⟨row', hrow⟩ := hstored n t ht k raw hraw
    obtain ⟨s, hreads⟩ := hreads 0
    obtain ⟨s', hreads'⟩ := returns_decodeStored hkept hrow 0
    cases hreads.symm.trans hreads'
    exact ⟨t, raw, ht, hraw, hrow⟩
  · rintro ⟨t, raw, ht, hraw, hrow⟩
    exact ⟨t, raw, ht, hraw, fun current => returns_decodeStored hkept hrow current⟩

/-! ## The end of the snapshot -/

/-- A table that was staged from the definition and the rows of another. -/
structure Mirrors (t t' : Table) : Prop where
  info : t'.info = t.tableDef
  indexes : t'.secondaryIndexes = t.secondaryIndexes
  stats : t'.stats = t.stats
  tree : t'.tree = t.tree

theorem Mirrors.schema (h : Mirrors t t') : t'.schema = t.schema := by
  rw [Table.schema, h.info]
  rfl

theorem Mirrors.tableDef (h : Mirrors t t') : t'.tableDef = t.tableDef := by
  rw [Table.tableDef, h.info, h.indexes, h.stats]
  rfl

/-- `Table::new` keeps the indexes whose columns exist. -/
theorem secondaryIndexes_new {info : TableDef}
    (h : ∀ ix ∈ info.indexes, info.schema.indexOf ix.column ≠ none) :
    (Table.new info).secondaryIndexes = info.indexes := by
  rw [Table.secondaryIndexes, Table.new, List.map_filterMap]
  refine (List.filterMap_congr fun ix hix => ?_).trans List.filterMap_some
  obtain ⟨i, hi⟩ := Option.ne_none_iff_exists'.mp (h ix hix)
  rw [hi]
  rfl

theorem mirrors_of_built
    (hindexed : ∀ i ∈ t.indexes, t.schema.indexOf i.info.column = some i.colIdx)
    (h : Built (t.tableDef, t.tree.toList) t') : Mirrors t t' where
  info := h.info
  indexes := by
    refine h.indexes.trans (secondaryIndexes_new fun ix hix => ?_)
    obtain ⟨i, hi, rfl⟩ := List.mem_map.mp hix
    rw [show t.tableDef.schema.indexOf i.info.column = some i.colIdx from hindexed i hi]
    exact Option.some_ne_none _
  stats := h.stats
  tree := h.tree.trans (Entries.foldl_insert_toList t.tree)

theorem Mirrors.covered (h : Mirrors t t')
    (hcovered : ∀ fk ∈ t.info.foreignKeys, t.covers fk = true) :
    ∀ fk ∈ t'.info.foreignKeys, t'.covers fk = true := by
  intro fk hfk
  rw [h.info] at hfk
  rw [Table.covers, h.schema, h.indexes]
  exact hcovered fk hfk

theorem refreshAutoInc_stats (h : t.refreshAutoInc = .ok t') : t'.stats = t.stats := by
  rw [Table.refreshAutoInc] at h
  split at h
  · cases h
    rfl
  · obtain ⟨max, -, h⟩ := Outcome.bind_ok h
    cases h
    rfl

/-- The counter of a staged table is rebuilt. -/
theorem Mirrors.refresh (h : Mirrors t t')
    (hkeys : ∀ (k : Bytes) raw, t.tree[k]? = some raw → KeyOk k)
    (hcovered : ∀ fk ∈ t.info.foreignKeys, t.covers fk = true) :
    ∃ t'', t'.refreshAutoInc = .ok t'' ∧ Mirrors t t'' := by
  have hsound : t'.Sound := ⟨h.tree ▸ hkeys, h.covered hcovered⟩
  obtain ⟨t'', hrefresh, hcontents⟩ := Catalog.refreshAutoInc_ok hsound
  simp only [Catalog.contents, Prod.mk.injEq] at hcontents
  obtain ⟨hinfo, htree, hindexes⟩ := hcontents
  refine ⟨t'', hrefresh, hinfo.trans h.info, ?_, (refreshAutoInc_stats hrefresh).trans h.stats,
    htree.trans h.tree⟩
  rw [Table.secondaryIndexes, hindexes]
  exact h.indexes

def MirrorsAll (c c' : Catalog) : Prop :=
  ∀ n : String, Option.Rel Mirrors c.tables[n]? c'.tables[n]?

theorem MirrorsAll.get {c' : Catalog} (h : MirrorsAll c c') {n : String}
    (ht' : c'.tables[n]? = some t') :
    ∃ t, c.tables[n]? = some t ∧ Mirrors t t' := by
  have hn := h n
  rw [ht'] at hn
  cases ht : c.tables[n]? with
  | none =>
    rw [ht] at hn
    cases hn
  | some t =>
    rw [ht] at hn
    cases hn with
    | some hmirrors => exact ⟨t, rfl, hmirrors⟩

/-- The counters of the staged tables are rebuilt. -/
theorem MirrorsAll.refresh {c' : Catalog} (h : MirrorsAll c c')
    (hkeys : ∀ (n : String) t, c.tables[n]? = some t → ∀ (k : Bytes) raw,
      t.tree[k]? = some raw → KeyOk k)
    (hcovered : ∀ (n : String) t, c.tables[n]? = some t → ∀ fk ∈ t.info.foreignKeys,
      t.covers fk = true) :
    ∃ c'', c'.mapTables Table.refreshAutoInc = .ok c'' ∧ c''.databases = c'.databases ∧
      MirrorsAll c c'' := by
  obtain ⟨c'', hmap, hdbs, htables⟩ := Catalog.mapTables_ok (c := c') (f := Table.refreshAutoInc)
    fun n t' ht' => by
      obtain ⟨t, ht, hmirrors⟩ := h.get ht'
      exact (hmirrors.refresh (hkeys n t ht) (hcovered n t ht)).imp fun _ h => h.1
  refine ⟨c'', hmap, hdbs, fun n => ?_⟩
  rw [htables]
  cases ht' : c'.tables[n]? with
  | none =>
    have hn := h n
    rw [ht'] at hn
    exact hn
  | some t' =>
    obtain ⟨t, ht, hmirrors⟩ := h.get ht'
    obtain ⟨t'', hrefresh, hmirrors'⟩ := hmirrors.refresh (hkeys n t ht) (hcovered n t ht)
    rw [ht, Option.bind_some, hrefresh]
    exact .some hmirrors'

/-! ### Indexes of foreign keys -/

theorem returns_fkEnsureAutoIndexes (h : ∀ fk ∈ t.info.foreignKeys, t.covers fk = true)
    (current : Nat) (s : Inner) : Returns (fkEnsureAutoIndexes current t) s t s := by
  rw [fkEnsureAutoIndexes]
  generalize t.info.foreignKeys = fks at h
  induction fks with
  | nil => exact returns_pure t s
  | cons fk fks ih =>
    rw [List.foldlM_cons, ensureIndex, if_pos (h fk List.mem_cons_self)]
    exact (returns_pure t s).bind (ih fun fk hfk => h fk (List.mem_cons_of_mem _ hfk))

theorem returns_mapM {α : Type} {f : α → PoolM α} :
    ∀ {l : List α}, (∀ a ∈ l, Returns (f a) s a s) → Returns (l.mapM f) s l s
  | [], _ => returns_pure _ s
  | a :: l, h => by
    rw [List.mapM_cons]
    exact (h a List.mem_cons_self).bind
      ((returns_mapM fun a ha => h a (List.mem_cons_of_mem _ ha)).bind (returns_pure _ s))

/-- Nothing is done where all foreign keys have their indexes. -/
theorem returns_fkEnsureAllAutoIndexes
    (h : ∀ (n : String) t, c.tables[n]? = some t → ∀ fk ∈ t.info.foreignKeys, t.covers fk = true)
    (current : Nat) (s : Inner) : Returns (fkEnsureAllAutoIndexes current c) s c s := by
  have hmap : Returns (c.tables.toList.mapM fun e => do
      return (e.1, ← fkEnsureAutoIndexes current e.2)) s c.tables.toList s := by
    refine returns_mapM fun e he => ?_
    have ht := ExtTreeMap.mem_toList_iff_getElem?_eq_some.mp he
    exact (returns_fkEnsureAutoIndexes (h e.1 e.2 ht) current s).bind (returns_pure e s)
  refine hmap.bind ?_
  rw [Entries.foldl_insert_toList]
  exact returns_pure c s

/-! ### The snapshot file -/

theorem exists_encodeSnapshot {tables : List (TableDef × Pairs)}
    (h : ∀ x ∈ tables, ∀ kv ∈ x.2, kv.1.length ≤ maxKeyLen) (databases : List String) :
    ∃ bytes, encodeSnapshot databases tables = .ok bytes := by
  have htable : ∀ x ∈ tables, ∃ bs, encodeTable x = .ok bs := by
    intro x hx
    have hpair : ∀ kv ∈ x.2, ∃ bs, encodePair kv = .ok bs := by
      intro kv hkv
      have hkey : ¬ 1024 * 1024 < kv.1.length := Nat.not_lt.mpr (h x hx kv hkv)
      rw [encodePair, if_neg hkey]
      exact ⟨_, rfl⟩
    obtain ⟨rows, hrows⟩ := Outcome.exists_mapM_ok.mpr hpair
    rw [encodeTable, hrows]
    exact ⟨_, rfl⟩
  obtain ⟨encoded, hencoded⟩ := Outcome.exists_mapM_ok.mpr htable
  rw [encodeSnapshot, hencoded]
  exact ⟨_, rfl⟩

end

/-! ## The whole snapshot -/

section
variable {p r : Running} {a : Archive} {d : Db} {current : Nat}

variable {α : Type} {s : Inner}

theorem returns_onPool {m : PoolM α} {x : α} (h : Returns m d.pool x s) :
    Returns (onPool m) d x { d with pool := s } := by
  show ((exec m d.pool).1, { d with pool := (exec m d.pool).2 }) = _
  rw [show exec m d.pool = (.ok x, s) from h]

theorem of_onPool {m : PoolM α} {x : α} {d' : Db} (h : Returns (onPool m) d x d') :
    ∃ s, Returns m d.pool x s ∧ d' = { d with pool := s } := by
  have hrun : ((exec m d.pool).1, _) = (Except.ok x, d') := h
  obtain ⟨hvalue, hstate⟩ := Prod.mk.inj hrun
  exact ⟨(exec m d.pool).2, Prod.ext hvalue rfl, hstate.symm⟩

theorem fails_onPool {m : PoolM α} {e : Fault} (h : Fails m d.pool e s) :
    Fails (onPool m) d e { d with pool := s } := by
  show ((exec m d.pool).1, { d with pool := (exec m d.pool).2 }) = _
  rw [show exec m d.pool = (.error e, s) from h]

/-- What an archive is made of. -/
theorem dumpLive_ok (h : dumpLive d = .ok a) :
    a = ⟨d.catalog.databases.toList, rowsOf d.catalog, d.pool.file⟩ ∧
      ∀ x ∈ a.tables, ∀ kv ∈ x.2, kv.1.length ≤ maxKeyLen := by
  rw [dumpLive] at h
  obtain ⟨_, -, h⟩ := Outcome.bind_ok h
  obtain ⟨_, -, h⟩ := Outcome.bind_ok h
  obtain ⟨dumped, hdumped, h⟩ := Outcome.bind_ok h
  obtain ⟨_, -, h⟩ := Outcome.bind_ok h
  cases h
  refine ⟨rfl, fun x hx kv hkv => ?_⟩
  exact ((Outcome.mapM_ok (fun _ _ => dumpTable_ok) hdumped).1 x hx).row kv hkv |>.1

theorem mem_stageDatabases {databases : List String} {tables : List (TableDef × Pairs)}
    {db : String} (h : databases ≠ []) : db ∈ stageDatabases databases tables ↔
      db ∈ databases ∨ ∃ x ∈ tables, Catalog.databasePart x.1.name = some db := by
  have hnamed : ∀ db, db ∈ databases.foldl ExtTreeSet.insert (∅ : ExtTreeSet String) ↔
      db ∈ databases := by
    intro db
    rw [Entries.mem_foldl_insert]
    simp
  obtain ⟨db', hdb'⟩ := List.exists_mem_of_ne_nil _ h
  have hempty : (databases.foldl ExtTreeSet.insert (∅ : ExtTreeSet String)).isEmpty = false := by
    rw [Bool.eq_false_iff]
    intro hempty
    rw [ExtTreeSet.isEmpty_iff] at hempty
    have hmem := (hnamed db').mpr hdb'
    rw [hempty] at hmem
    simp at hmem
  rw [stageDatabases, Entries.mem_foldl_insert, hempty]
  simp only [Bool.false_eq_true, if_false, hnamed, List.mem_filterMap]
  exact or_comm

theorem stageDatabases_nil (tables : List (TableDef × Pairs)) :
    "default" ∈ stageDatabases [] tables := by
  rw [stageDatabases, Entries.mem_foldl_insert]
  refine .inr ?_
  simp

theorem rowsOf_names {c : Catalog}
    (h : ∀ (n : String) t, c.tables[n]? = some t → t.info.name = n) :
    (rowsOf c).map (fun x => x.1.name) = c.tables.keys := by
  rw [rowsOf, List.map_map, ← ExtTreeMap.map_fst_toList_eq_keys]
  refine List.map_congr_left fun e he => ?_
  exact h e.1 e.2 (ExtTreeMap.mem_toList_iff_getElem?_eq_some.mp he)

theorem mem_rowsOf {c : Catalog} {n : String} {t : Table} (ht : c.tables[n]? = some t) :
    (t.tableDef, t.tree.toList) ∈ rowsOf c :=
  List.mem_map.mpr ⟨(n, t), ExtTreeMap.mem_toList_iff_getElem?_eq_some.mpr ht, rfl⟩

theorem Running.keyOk (p : Running) (n : String) (t : Table) (ht : p.catalog.tables[n]? = some t)
    (k : Bytes) (raw : Bytes) (hraw : t.tree[k]? = some raw) : KeyOk k := by
  obtain ⟨row, full, -, -, hkey⟩ := p.stored n t ht k raw hraw
  exact keyOk_encodeKey hkey

theorem Running.mirrorsAll (p : Running) (dbs : ExtTreeSet String) {tables : Tables} {s' : Inner}
    (h : Returns (stageTables current (rowsOf p.catalog) ∅) s tables s') :
    MirrorsAll p.catalog { databases := dbs, tables := tables } := by
  have hnames := rowsOf_names p.named
  have hnodup : ((rowsOf p.catalog).map fun x => x.1.name).Nodup := by
    rw [hnames]
    exact ExtTreeMap.nodup_keys
  obtain ⟨hbuilt, hother⟩ := stageTables_built hnodup h
  intro n
  cases ht : p.catalog.tables[n]? with
  | none =>
    have hn : n ∉ (rowsOf p.catalog).map fun x => x.1.name := by
      rw [hnames, ExtTreeMap.mem_keys, ExtTreeMap.mem_iff_isSome_getElem?, ht]
      simp
    rw [hother n hn, ExtTreeMap.getElem?_empty]
    exact .none
  | some t =>
    obtain ⟨t', ht', hx⟩ := hbuilt _ (mem_rowsOf ht)
    have hname : t.tableDef.name = n := p.named n t ht
    rw [hname] at ht'
    rw [ht']
    exact .some (mirrors_of_built (p.indexed n t ht) hx)

/-- Tables that are made get their counters and indexes. -/
theorem returns_stageSnapshot (ha : dumpLive p.toDb = .ok a) {tables : Tables}
    (hstage : Returns (stageTables current a.tables ∅) r.pool tables s) :
    ∃ c, Returns (stageSnapshot current a) r.toDb c { r.toDb with pool := s } ∧
      c.databases = stageDatabases a.databases a.tables ∧ MirrorsAll p.catalog c := by
  obtain ⟨rfl, hkeys⟩ := dumpLive_ok ha
  have hmirrors := p.mirrorsAll
    (stageDatabases p.catalog.databases.toList (rowsOf p.catalog)) hstage
  obtain ⟨c, hrefresh, hdbs, hmirrors⟩ := hmirrors.refresh p.keyOk p.covered
  have hcovered : ∀ (n : String) t, c.tables[n]? = some t → ∀ fk ∈ t.info.foreignKeys,
      t.covers fk = true := by
    intro n t' ht'
    obtain ⟨t, ht, hmirror⟩ := hmirrors.get ht'
    exact hmirror.covered (p.covered n t ht)
  exact ⟨c, (returns_onPool hstage).bind ((returns_settle hrefresh _).bind
    (returns_onPool (returns_fkEnsureAllAutoIndexes hcovered current s))), hdbs, hmirrors⟩

/-- What is in place when the checkpoint begins, and stays when that fails. -/
theorem exec_of_staged (files : Files) (ha : dumpLive p.toDb = .ok a) {tables : Tables}
    (hwrite : files.write = none) (hreopen : files.reopen = none)
    (hstage : Returns (stageTables current a.tables ∅) r.pool tables s) :
    ∃ d, exec (applyReplicaSnapshot files current a) r.toDb =
        (files.persist.elim (.ok ()) fun e => .error (.err e), d) ∧
      d.catalog.databases = stageDatabases a.databases a.tables ∧
      MirrorsAll p.catalog d.catalog ∧
      ∃ frames, frames ≠ 0 ∧ d.pool = .opened p.pool.file frames := by
  obtain ⟨c, hstaged, hdbs, hmirrors⟩ := returns_stageSnapshot ha hstage
  obtain ⟨rfl, hkeys⟩ := dumpLive_ok ha
  have hinv := ((Calmly.stageTables current _ _).returns r.kept.inv hstage).inv
  have hwritten : ∃ bytes, encodeSnapshot c.databases.toList (rowsOf c) = .ok bytes := by
    refine exists_encodeSnapshot (fun x hx kv hkv => ?_) _
    obtain ⟨e, he, rfl⟩ := List.mem_map.mp hx
    obtain ⟨t, ht, hmirror⟩ := hmirrors.get (ExtTreeMap.mem_toList_iff_getElem?_eq_some.mp he)
    refine hkeys _ (mem_rowsOf ht) kv ?_
    rw [← hmirror.tree]
    exact hkv
  obtain ⟨bytes, hbytes⟩ := hwritten
  set d₀ : Db := { r.toDb with pool := s }
  set d₁ : Db := { r.toDb with pool := { s with file := { s.file with pages := p.pool.file.pages } } }
  set d₂ : Db := { r.toDb with pool := .opened p.pool.file s.frames.length }
  set d₃ : Db := { d₂ with catalog := c }
  have hpages : Returns (writePages files p.pool.file) d₀ () d₁ := by
    rw [writePages, hwrite]
    exact (returns_onPool (returns_modify _ s)).bind (returns_pure _ _)
  have hinvalidate : Returns (onPool (invalidate files p.pool.file)) d₁ () d₂ := by
    rw [invalidate, hreopen]
    exact returns_onPool (returns_modify _ d₁.pool)
  have hencoded : Returns (settle
      ((encodeSnapshot d₃.catalog.databases.toList (rowsOf d₃.catalog)).mapError Fault.err)) d₃
        bytes d₃ := returns_settle (by rw [show d₃.catalog = c from rfl, hbytes]; rfl) _
  refine ⟨d₃, ?_, hdbs, hmirrors, s.frames.length, hinv.frames.nonempty, rfl⟩
  rw [applyReplicaSnapshot, exec_bind_ok hstaged, exec_bind_ok hpages, exec_bind_ok hinvalidate,
    exec_bind_ok (returns_modify _ _)]
  cases hpersist : files.persist with
  | none =>
    have hcheckpoint : Returns (checkpoint files) d₃ bytes d₃ := by
      rw [checkpoint, hpersist]
      exact (returns_get _).bind (hencoded.bind (returns_pure _ _))
    exact hcheckpoint.bind (returns_pure _ _)
  | some e =>
    have hcheckpoint : Fails (checkpoint files) d₃ (.err e) d₃ := by
      rw [checkpoint, hpersist]
      exact (returns_get _).bind_fails (hencoded.bind_fails rfl)
    exact hcheckpoint.bind

theorem finds_of_mirrors (hmirrors : MirrorsAll p.catalog d.catalog) {frames : Nat}
    (hframes : frames ≠ 0) (hpool : d.pool = .opened p.pool.file frames) (n : String) (k : Bytes)
    (row : List Datum) : d.Finds n k row ↔ p.toDb.Finds n k row := by
  have hkept : Kept d.pool p.live p.chain := hpool ▸ Kept.reopened p.kept hframes
  have hstored : ∀ (n : String) t, d.catalog.tables[n]? = some t → ∀ (k : Bytes) raw,
      t.tree[k]? = some raw → ∃ row, StoredRow p.live t k raw row := by
    intro n t' ht' k raw hraw
    obtain ⟨t, ht, hmirror⟩ := hmirrors.get ht'
    rw [hmirror.tree] at hraw
    exact (p.stored n t ht k raw hraw).imp fun _ hrow => hrow.congr hmirror.schema
  rw [finds_iff hkept hstored, finds_iff p.kept p.stored]
  constructor
  · rintro ⟨t', raw, ht', hraw, hrow⟩
    obtain ⟨t, ht, hmirror⟩ := hmirrors.get ht'
    exact ⟨t, raw, ht, hmirror.tree ▸ hraw, hrow.congr hmirror.schema.symm⟩
  · rintro ⟨t, raw, ht, hraw, hrow⟩
    have hn := hmirrors n
    rw [ht] at hn
    cases ht' : d.catalog.tables[n]? with
    | none =>
      rw [ht'] at hn
      cases hn
    | some t' =>
      rw [ht'] at hn
      cases hn with
      | some hmirror =>
        exact ⟨t', raw, rfl, hmirror.tree.symm ▸ hraw, hrow.congr hmirror.schema⟩

/-- What was put in place is what the primary has. -/
theorem reproduces_of_mirrors (hdbs : ∀ db, db ∈ d.catalog.databases ↔ db ∈ p.catalog.databases)
    (hmirrors : MirrorsAll p.catalog d.catalog) {frames : Nat} (hframes : frames ≠ 0)
    (hpool : d.pool = .opened p.pool.file frames) : Reproduces p.toDb d := by
  refine ⟨hdbs, fun n => ?_, finds_of_mirrors hmirrors hframes hpool⟩
  have hn := hmirrors n
  cases ht' : d.catalog.tables[n]? with
  | none =>
    rw [ht'] at hn
    cases ht : p.catalog.tables[n]? with
    | none => rfl
    | some t =>
      rw [ht] at hn
      cases hn
  | some t' =>
    obtain ⟨t, ht, hmirror⟩ := hmirrors.get ht'
    rw [ht, Option.map_some, Option.map_some, hmirror.tableDef]

def newReplica : Running where
  catalog := Catalog.empty
  pool := newPool
  live _ := none
  chain _ := []
  kept := kept_newPool
  named n t ht := by simp [Catalog.empty] at ht
  qualified n t ht := by simp [Catalog.empty] at ht
  indexed n t ht := by simp [Catalog.empty] at ht
  covered n t ht := by simp [Catalog.empty] at ht
  stored n t ht := by simp [Catalog.empty] at ht

theorem inline_of_reproduced (ha : dumpLive p.toDb = .ok a)
    (h : Returns (applyReplicaSnapshot .work current a) newReplica.toDb () d)
    (hd : Reproduces p.toDb d) :
    a.databases ≠ [] ∧ ∀ x ∈ a.tables, ∀ kv ∈ x.2, isLocator kv.2 = false := by
  obtain ⟨c, d₁, hstaged, -⟩ := Returns.of_bind h
  obtain ⟨tables, d₂, hstage, -⟩ := Returns.of_bind hstaged
  obtain ⟨s, hstage, -⟩ := of_onPool hstage
  refine ⟨fun hnil => ?_, stageTables_newPool hstage⟩
  obtain ⟨d₃, h₂, hdbs, -⟩ := exec_of_staged .work ha rfl rfl hstage
  cases h.symm.trans h₂
  have hdefault : "default" ∈ p.catalog.databases := by
    rw [← hd.databases, hdbs, hnil]
    exact stageDatabases_nil _
  obtain ⟨rfl, -⟩ := dumpLive_ok ha
  have hempty : p.catalog.databases.toList = [] := hnil
  rw [← ExtTreeSet.mem_toList, hempty] at hdefault
  cases hdefault

/-- Rows that are in their places are staged on every replica. -/
theorem reproduced_of_inline (ha : dumpLive p.toDb = .ok a) (hdbs : a.databases ≠ [])
    (hinline : ∀ x ∈ a.tables, ∀ kv ∈ x.2, isLocator kv.2 = false) (r : Running) (current : Nat) :
    ∃ d, Returns (applyReplicaSnapshot .work current a) r.toDb () d ∧ Reproduces p.toDb d := by
  have hrows : ∀ x ∈ a.tables, ∀ kv ∈ x.2, ∃ row,
      StoredRow r.live (Table.new x.1) kv.1 kv.2 row := by
    intro x hx kv hkv
    have hloc := hinline x hx kv hkv
    obtain ⟨rfl, -⟩ := dumpLive_ok ha
    obtain ⟨e, he, rfl⟩ := List.mem_map.mp hx
    have ht := ExtTreeMap.mem_toList_iff_getElem?_eq_some.mp he
    have hraw := ExtTreeMap.mem_toList_iff_getElem?_eq_some.mp hkv
    obtain ⟨row, hrow⟩ := p.stored e.1 e.2 ht kv.1 kv.2 hraw
    exact ⟨row, (hrow.inline hloc).congr rfl⟩
  obtain ⟨tables, s, hstage⟩ := returns_stageTables r.kept hrows current
  obtain ⟨d, hrun, hstaged, hmirrors, frames, hframes, hpool⟩ :=
    exec_of_staged .work ha rfl rfl hstage
  refine ⟨d, hrun, reproduces_of_mirrors (fun db => ?_) hmirrors hframes hpool⟩
  rw [hstaged, mem_stageDatabases hdbs]
  obtain ⟨rfl, -⟩ := dumpLive_ok ha
  rw [ExtTreeSet.mem_toList, or_iff_left_of_imp]
  rintro ⟨x, hx, hpart⟩
  obtain ⟨e, he, rfl⟩ := List.mem_map.mp hx
  have ht := ExtTreeMap.mem_toList_iff_getElem?_eq_some.mp he
  obtain ⟨db', hpart', hmem⟩ := p.qualified e.1 e.2 ht
  rw [show e.2.tableDef.name = e.1 from p.named e.1 e.2 ht, hpart'] at hpart
  cases hpart
  exact hmem

/-- Tables that cannot be made change nothing but what the pool has cached. -/
theorem finds_of_stage_fails (ha : dumpLive p.toDb = .ok a) {e : Fault}
    (h : Fails (stageSnapshot current a) r.toDb e d) (n : String) (k : Bytes) (row : List Datum) :
    d.Finds n k row ↔ r.toDb.Finds n k row := by
  obtain ⟨x, s, hstage⟩ : ∃ x s, exec (stageTables current a.tables ∅) r.pool = (x, s) :=
    ⟨_, _, rfl⟩
  cases x with
  | ok tables =>
    obtain ⟨c, hstaged, -⟩ := returns_stageSnapshot ha hstage
    exact absurd h hstaged.not_fails
  | error e' =>
    have h' : Fails (stageSnapshot current a) r.toDb e' { r.toDb with pool := s } :=
      (fails_onPool hstage).bind
    cases h.symm.trans h'
    have hcalm := Calmly.stageTables current a.tables ∅ r.pool r.kept.inv
    rw [hstage] at hcalm
    have hkept : Kept s r.live r.chain := r.kept.spared hcalm.spared
    rw [finds_iff (d := { r.toDb with pool := s }) hkept r.stored, finds_iff r.kept r.stored]

/-- An error leaves the rows as they were when the tables could not be made, and the rows of
the primary when the checkpoint failed. -/
theorem finds_of_fails (ha : dumpLive p.toDb = .ok a) {files : Files} {e : Fault}
    (h : Fails (applyReplicaSnapshot files current a) r.toDb e d) :
    ((files = .work ∨ ∃ e d, Fails (stageSnapshot current a) r.toDb e d) →
      ∀ n k row, d.Finds n k row ↔ r.toDb.Finds n k row) ∧
    (files.write = none → files.reopen = none →
      (∃ c d, Returns (stageSnapshot current a) r.toDb c d) →
        ∀ n k row, d.Finds n k row ↔ p.toDb.Finds n k row) := by
  constructor
  · intro hcause
    obtain ⟨e', d', hstage⟩ : ∃ e d, Fails (stageSnapshot current a) r.toDb e d := by
      refine hcause.elim (fun hwork => ?_) id
      subst hwork
      by_contra hstages
      obtain ⟨x, d', hrun⟩ : ∃ x d, exec (stageSnapshot current a) r.toDb = (x, d) := ⟨_, _, rfl⟩
      cases x with
      | error e' => exact hstages ⟨e', d', hrun⟩
      | ok c =>
        obtain ⟨tables, d₁, hstaged, -⟩ := Returns.of_bind hrun
        obtain ⟨s, hstaged, -⟩ := of_onPool hstaged
        obtain ⟨d₂, happlied, -⟩ := exec_of_staged .work ha rfl rfl hstaged
        cases h.symm.trans happlied
    have happly : Fails (applyReplicaSnapshot files current a) r.toDb e' d' := hstage.bind
    cases h.symm.trans happly
    exact finds_of_stage_fails ha hstage
  · rintro hwrite hreopen ⟨c, d', hrun⟩
    obtain ⟨tables, d₁, hstaged, -⟩ := Returns.of_bind hrun
    obtain ⟨s, hstaged, -⟩ := of_onPool hstaged
    obtain ⟨d₂, happlied, -, hmirrors, frames, hframes, hpool⟩ :=
      exec_of_staged files ha hwrite hreopen hstaged
    obtain ⟨-, rfl⟩ := Prod.mk.inj (h.symm.trans happlied)
    exact finds_of_mirrors hmirrors hframes hpool

/-! ## A row off its page -/

theorem exists_dumpLive (hdbs : d.catalog.databases.toList.length ≤ maxDbs)
    (htables : (rowsOf d.catalog).length ≤ maxTables) (hrows : ∀ x ∈ rowsOf d.catalog, TableDumps x)
    (hpages : d.pool.file.nextId * pageSize ≤ maxPagesLen) : ∃ a, dumpLive d = .ok a := by
  have hdump : ∀ x ∈ rowsOf d.catalog, ∃ bs, dumpTable x = .ok bs := by
    intro x hx
    obtain ⟨hdef, hcount, hrow⟩ := hrows x hx
    have hpair : ∀ kv ∈ x.2, ∃ bs, dumpPair kv = .ok bs := by
      intro kv hkv
      obtain ⟨hkey, hval⟩ := hrow kv hkv
      rw [dumpPair, if_neg (by omega)]
      exact ⟨_, rfl⟩
    obtain ⟨rows, hdumped⟩ := Outcome.exists_mapM_ok.mpr hpair
    rw [dumpTable, refuseAbove, if_neg (Nat.not_lt.mpr hdef), refuseAbove,
      if_neg (Nat.not_lt.mpr hcount), hdumped]
    exact ⟨_, rfl⟩
  obtain ⟨dumped, hdumped⟩ := Outcome.exists_mapM_ok.mpr hdump
  rw [dumpLive, refuseAbove, if_neg (Nat.not_lt.mpr hdbs), refuseAbove,
    if_neg (Nat.not_lt.mpr htables), hdumped, refuseAbove, if_neg (Nat.not_lt.mpr hpages)]
  exact ⟨_, rfl⟩

end

theorem exists_kept {data : Bytes} (hsmall : data.length ≤ maxFragPayload) :
    ∃ file x, file.nextId = 2 ∧
      Kept (.opened file 1) (Function.update (fun _ => none) x (some data)) fun _ => [] := by
  have hfirst : newPool.file.nextId = 1 := rfl
  have hroom : newPool.file.nextId ≠ 2 ^ 64 - 1 := by
    rw [hfirst]
    decide
  obtain ⟨hgrow, hin, -⟩ := inv_newPool.grow hroom
  obtain ⟨img, k, hinsert⟩ : ∃ img k,
      Page.insert (Page.create 1).img (fragRecord data.length false data) = some (img, k) :=
    Page.insert_isSome (by rw [Page.freeSpace_create]; exact fragRecord_fits _ false hsmall)
  obtain ⟨hlayout, -, hget, -⟩ := Page.insert_spec (Page.layout_create (by norm_num)) hinsert
  refine ⟨PageFile.fresh.grown.put 1 img, (1, k), rfl, ?_⟩
  have hfile : FileOk (PageFile.fresh.grown.put 1 img) := hgrow.inv.file.put hlayout
  have hrecord : record (.opened (PageFile.fresh.grown.put 1 img) 1) (1, k) =
      some (fragRecord data.length false data) := by
    have hin' : InFile (Inner.opened (PageFile.fresh.grown.put 1 img) 1).file 1 :=
      ⟨Nat.one_ne_zero, Nat.one_lt_two⟩
    have hpages : (Inner.opened (PageFile.fresh.grown.put 1 img) 1).file.pages 1 = some img :=
      PageFile.put_pages_self ..
    rw [record_of_inFile hin', hpages, Option.bind_some, hget]
  have hlive : ∀ {y d}, Function.update (fun _ : Frag => (none : Option Bytes)) (1, k)
      (some data) y = some d → y = (1, k) ∧ d = data := by
    intro y d hy
    rw [Function.update_apply] at hy
    split at hy
    · next heq => exact ⟨heq, (Option.some.inj hy).symm⟩
    · cases hy
  have hmax : maxFragPayload ≤ Pool.maxValueLen := by decide
  refine ⟨inv_opened hfile Nat.one_ne_zero, fun hx => ?_, fun hx y hy hwait => ?_, fun hx => ?_,
    fun hx => ?_, fun hne hx hx' => ?_⟩
  · obtain ⟨rfl, rfl⟩ := hlive hx
    exact .last hrecord
  · rcases hwait with hwait | hwait
    · cases hwait
    · cases hwait
  · show 1 ≤ 4096
    omega
  · obtain ⟨-, rfl⟩ := hlive hx
    exact hsmall.trans hmax
  · exact absurd ((hlive hx).1.trans (hlive hx').1.symm) hne

variable {x : Frag}

theorem decodeLocator_encode (hpage : x.1 < 2 ^ 64) (hslot : x.2 < 2 ^ 32) :
    decodeLocator (encodeLocator x) = .ok x := by
  have hp : (leBytes 8 x.1).length = 8 := length_leBytes ..
  have hk : (leBytes 4 x.2).length = 4 := length_leBytes ..
  have hloc : isLocator (encodeLocator x) = true := by
    simp [isLocator, encodeLocator, hp, hk, locatorLen]
  have hfirst : ((encodeLocator x).drop 2).take 8 = leBytes 8 x.1 := by
    rw [encodeLocator, List.drop_succ_cons, List.drop_succ_cons, List.drop_zero, List.take_left' hp]
  have hsecond : (encodeLocator x).drop 10 = leBytes 4 x.2 := by
    rw [encodeLocator, List.drop_succ_cons, List.drop_succ_cons, List.drop_left' hp]
  rw [decodeLocator, hloc, if_pos rfl, hfirst, hsecond, leValue_leBytes hpage,
    leValue_leBytes hslot]

/-- `CREATE TABLE t (id INT PRIMARY KEY, v TEXT)`. -/
def wideTable : TableDef where
  name := "default.t"
  schema :=
    { columns :=
        [{ name := "id", ctype := .int, nullable := false, autoIncrement := false,
           defaultValue := none },
         { name := "v", ctype := .text, nullable := true, autoIncrement := false,
           defaultValue := none }]
      pkIdx := 0 }
  indexes := []
  foreignKeys := []
  stats := none

/-- A row of that table that is not kept in its tree. -/
def wideRow : List Datum := [.int 1, .text (String.ofList (List.replicate 1100 'a'))]

theorem length_wideRow : (encodeRow wideRow).length = 1114 := by decide +kernel

def wideKey : Bytes := 1 :: keyInt 1

def wideTree (x : Frag) : ExtTreeMap Bytes Bytes :=
  (∅ : ExtTreeMap Bytes Bytes).insert wideKey (encodeLocator x)

def wideCatalog (x : Frag) : Catalog where
  databases := (∅ : ExtTreeSet String).insert "default"
  tables := (∅ : ExtTreeMap String Table).insert "default.t"
    { Table.new wideTable with tree := wideTree x }

theorem wideCatalog_tables {n : String} {t : Table} (h : (wideCatalog x).tables[n]? = some t) :
    n = "default.t" ∧ t = { Table.new wideTable with tree := wideTree x } :=
  Entries.eq_of_insert_empty h

theorem wideTree_rows {k raw : Bytes} (h : (wideTree x)[k]? = some raw) :
    k = wideKey ∧ raw = encodeLocator x :=
  Entries.eq_of_insert_empty h

theorem decodeRow_wideRow : decodeRow wideTable.schema (encodeRow wideRow) = .ok wideRow := by
  refine decodeRow_encodeRow rfl fun d hd => ?_
  rcases List.mem_cons.mp hd with rfl | hd
  · trivial
  · rw [List.mem_singleton.mp hd]
    have hlen : (utf8 (String.ofList (List.replicate 1100 'a'))).length = 1100 := by
      decide +kernel
    show (utf8 _).length < 2 ^ 32
    rw [hlen]
    decide

theorem wideRow_stored {live : Frag → Option Bytes} {t : Table}
    (hdecode : decodeLocator (encodeLocator x) = .ok x) (hlive : live x = some (encodeRow wideRow))
    (hschema : t.schema = wideTable.schema) :
    StoredRow live t wideKey (encodeLocator x) wideRow := by
  refine ⟨encodeRow wideRow, .paged hdecode hlive ?_, ?_, ?_⟩
  · rw [length_wideRow]
    decide
  · rw [hschema, decodeRow_wideRow]
  · rw [Table.keyOf, hschema]
    rfl

def widePrimary (file : PageFile) (x : Frag)
    (hdecode : decodeLocator (encodeLocator x) = .ok x)
    (hkept : Kept (.opened file 1) (Function.update (fun _ => none) x (some (encodeRow wideRow)))
      fun _ => []) : Running where
  catalog := wideCatalog x
  pool := .opened file 1
  live := Function.update (fun _ => none) x (some (encodeRow wideRow))
  chain _ := []
  kept := hkept
  named n t ht := by
    obtain ⟨rfl, rfl⟩ := wideCatalog_tables ht
    rfl
  qualified n t ht := by
    obtain ⟨rfl, rfl⟩ := wideCatalog_tables ht
    exact ⟨"default", by decide, ExtTreeSet.mem_insert_self⟩
  indexed n t ht i hi := by
    obtain ⟨rfl, rfl⟩ := wideCatalog_tables ht
    cases hi
  covered n t ht fk hfk := by
    obtain ⟨rfl, rfl⟩ := wideCatalog_tables ht
    cases hfk
  stored n t ht k raw hraw := by
    obtain ⟨rfl, rfl⟩ := wideCatalog_tables ht
    obtain ⟨rfl, rfl⟩ := wideTree_rows hraw
    exact ⟨wideRow, wideRow_stored hdecode (Function.update_self ..) rfl⟩

/-- There is such a primary, and it can be dumped. -/
theorem exists_wide : ∃ (p : Running) (a : Archive), dumpLive p.toDb = .ok a ∧
    ∃ x ∈ a.tables, ∃ kv ∈ x.2, isLocator kv.2 = true := by
  obtain ⟨file, x, hpages, hkept⟩ := exists_kept
    (by rw [length_wideRow]; decide)
  have hlive : Function.update (fun _ : Frag => (none : Option Bytes)) x
      (some (encodeRow wideRow)) x = some (encodeRow wideRow) := Function.update_self ..
  obtain ⟨hpage, hslot⟩ := hkept.inv.frag_lt ((hkept.holds hlive).isSome x List.mem_cons_self)
  have hdecode := decodeLocator_encode hpage hslot
  have hsize : (wideTree x).toList.length = 1 := by
    rw [ExtTreeMap.length_toList, wideTree, ExtTreeMap.size_insert]
    simp
  have hdef : (Wal.encodeTableDef wideTable).length ≤ maxDefLen := by decide +kernel
  have hdumps : ∀ y ∈ rowsOf (wideCatalog x), TableDumps y := by
    intro y hy
    obtain ⟨e, he, rfl⟩ := List.mem_map.mp hy
    obtain ⟨-, ht⟩ := wideCatalog_tables (ExtTreeMap.mem_toList_iff_getElem?_eq_some.mp he)
    rw [ht]
    refine ⟨hdef, by rw [hsize]; decide, fun kv hkv => ?_⟩
    obtain ⟨hkey, hval⟩ := wideTree_rows (ExtTreeMap.mem_toList_iff_getElem?_eq_some.mp hkv)
    rw [hkey, hval]
    refine ⟨by decide, ?_⟩
    simp [encodeLocator, length_leBytes, maxValLen]
  have hdbs : (wideCatalog x).databases.toList.length = 1 := by
    rw [ExtTreeSet.length_toList, wideCatalog, ExtTreeSet.size_insert]
    simp
  have htables : (rowsOf (wideCatalog x)).length = 1 := by
    rw [rowsOf, List.length_map, ExtTreeMap.length_toList, wideCatalog, ExtTreeMap.size_insert]
    simp
  obtain ⟨a, ha⟩ := exists_dumpLive (d := (widePrimary file x hdecode hkept).toDb)
    (by show (wideCatalog x).databases.toList.length ≤ _; rw [hdbs]; decide)
    (by show (rowsOf (wideCatalog x)).length ≤ _; rw [htables]; decide) hdumps
    (by show file.nextId * pageSize ≤ _; rw [hpages]; decide)
  refine ⟨_, a, ha, ?_⟩
  obtain ⟨rfl, -⟩ := dumpLive_ok ha
  have ht : (wideCatalog x).tables["default.t"]? =
      some { Table.new wideTable with tree := wideTree x } := ExtTreeMap.getElem?_insert_self
  have hraw : (wideTree x)[wideKey]? = some (encodeLocator x) := ExtTreeMap.getElem?_insert_self
  exact ⟨_, mem_rowsOf ht, _, ExtTreeMap.mem_toList_iff_getElem?_eq_some.mpr hraw,
    isLocator_of_decode hdecode⟩

/-! ## Which snapshots are applied -/

end HenchDB.Replica
