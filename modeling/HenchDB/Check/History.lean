import HenchDB.Check.Table
import HenchDB.Replication.Apply

/-!
# Histories of a database

Rows are put and removed record by record, by statements, by redo and on replicas alike.  A
row that is too wide for the tree is stored in the pool, and the value that it displaces is
given up.  A restart has the tables of a checkpoint and the page file as it is, and a
replica takes over the tables and the pages of a primary.

Where all rows that are put are short and stored under their own keys, the trees have
nothing but the rows (`History.settled`): no history can be told from them.
-/

namespace HenchDB

open Std (ExtTreeMap ExtTreeSet)

namespace Check

open Codec Program Pool Replica

/-! ## Stored values -/

section
variable (order : HashOrder) (current epoch : Nat)

def allocValue (full : Bytes) : PoolM Bytes :=
  if full.length ≤ maxInlineRow then return full
  else return encodeLocator (← store order current full)

def freeValue (raw : Bytes) : PoolM Unit :=
  match decodeLocator raw with
  | .ok x => free epoch x
  | .error _ => pure ()

/-- A program whose errors are dropped. -/
def attemptM {α : Type} (m : PoolM α) : PoolM (Option α) :=
  tryCatch (some <$> m) fun
    | .err _ => pure none
    | .panic => throw .panic

/-- The row that was displaced, as far as it can be read. -/
def displacedRow (t : Table) : Option Bytes → PoolM (Option Row)
  | none => return none
  | some raw => attemptM (decodeStored current t raw)

def applyRaw (t : Table) (key full : Bytes) : PoolM Table := do
  let storable ← allocValue order current full
  let prev := t.tree[key]?
  prev.forM (freeValue epoch)
  let t' := { t with tree := t.tree.insert key storable }
  if t.indexes.isEmpty then return t'
  else
    match ← settle (Table.attemptKey key), attempt (decodeRow t.schema full) with
    | some pk, some newRow =>
      match ← displacedRow current t prev with
      | some oldRow => return { t' with indexes := t.indexes.map fun i => i.replace pk oldRow newRow }
      | none => return { t' with indexes := t.indexes.map fun i => i.add pk newRow }
    | _, _ => return t'

def removeRaw (t : Table) (key : Bytes) : PoolM Table :=
  match t.tree[key]? with
  | none => return t
  | some raw => do
    freeValue epoch raw
    let t' := { t with tree := t.tree.erase key }
    if t.indexes.isEmpty then return t'
    else
      match ← settle (Table.attemptKey key), ← attemptM (decodeStored current t raw) with
      | some pk, some row => return { t' with indexes := t.indexes.map fun i => i.remove pk row }
      | _, _ => return t'

/-! ## Records -/

def onTable (name : String) (f : Table → PoolM Table) : DbM Unit := do
  match (← get).catalog.tables[name]? with
  | none => return ()
  | some t =>
    let t' ← onPool (f t)
    modify fun d => { d with catalog := { d.catalog with tables := d.catalog.tables.insert name t' } }

/-- One record of `apply_records`. -/
def applyRecord : Record → DbM Unit
  | .put _ table key row => onTable table fun t => applyRaw order current epoch t key row
  | .delete _ table key => onTable table fun t => removeRaw current epoch t key
  | .createIndex _ table name column =>
    onTable table fun t => do return (← attemptM (addIndex current t name column)).getD t
  | r => do
    let c ← settle ((← get).catalog.applyRecord r)
    modify fun d => { d with catalog := c }

end

/-- The records that statements make: a row that is put has the columns of the table, and a
table has a qualified name. -/
def Issued (c : Catalog) : Record → Prop
  | .put _ table key raw =>
    (∃ v, encodeKey v = .ok key) ∧ ∃ row, raw = encodeRow row ∧
      ∀ t, c.tables[table]? = some t → row.length = t.schema.columns.length
  | .createTable _ info => info.name.toList.count '.' = 1
  | _ => True

/-- A row that is put is short, and is put under its own key. -/
def InPlace (c : Catalog) : Record → Prop
  | .put _ table key raw =>
    raw.length ≤ maxInlineRow ∧ ∃ row, raw = encodeRow row ∧
      ∀ t, c.tables[table]? = some t →
        row.length = t.schema.columns.length ∧ t.keyOf row = .ok key
  | _ => True

/-- The databases reached by records that meet `P`. -/
inductive History (P : Catalog → Record → Prop) : Db → Prop
  | opened {frames} : frames ≠ 0 → History P ⟨.empty, .opened .fresh frames⟩
  | applied {order current epoch r d d'} : History P d → P d.catalog r →
      Returns (applyRecord order current epoch r) d () d' → History P d'
  | restarted {d₀ d frames} : History P d₀ → History P d → frames ≠ 0 →
      History P ⟨d₀.catalog, .opened d.pool.file frames⟩
  | copied {p d d' a files current} : History P p → History P d → dumpLive p = .ok a →
      Returns (applyReplicaSnapshot files current a) d () d' → History P d'

/-! ## What the trees have -/

def IsEntry (e : Bytes) : Prop := ∃ v pk, encodeSecIndexKey v pk = .ok e

/-- The value is a short row, and the key is its own. -/
def Sits (schema : Schema) (k raw : Bytes) : Prop :=
  raw.length ≤ maxInlineRow ∧ ∃ row, raw = encodeRow row ∧ row.length = schema.columns.length ∧
    encodeKey (Table.column row schema.pkIdx) = .ok k

/-- The indexes of a table have entries of rows. -/
def Listed (indexes : List SecondaryIndex) : Prop := ∀ i ∈ indexes, ∀ e ∈ i.tree, IsEntry e

/-- A table of that name that has short rows under their keys. -/
structure Settled (n : String) (t : Table) : Prop where
  named : t.info.name = n
  qualified : n.toList.count '.' = 1
  rows : ∀ (k : Bytes) raw, t.tree[k]? = some raw → Sits t.schema k raw
  listed : Listed t.indexes

def AllSettled (c : Catalog) : Prop := ∀ (n : String) t, c.tables[n]? = some t → Settled n t

section
variable {order : HashOrder} {current epoch : Nat} {s s' : Inner} {t t' : Table}
  {key full raw : Bytes}

theorem allocValue_short (hshort : full.length ≤ maxInlineRow)
    (h : Returns (allocValue order current full) s raw s') : raw = full := by
  rw [allocValue, if_pos hshort] at h
  cases h
  rfl

variable {i : SecondaryIndex} {pk : Datum} {row : Row}

theorem isEntry_add (h : ∀ e ∈ i.tree, IsEntry e) :
    ∀ e ∈ (i.add pk row).tree, IsEntry e := by
  intro e he
  rw [SecondaryIndex.add] at he
  split at he
  · next k hk =>
    rcases ExtTreeSet.mem_insert.mp he with heq | he
    · exact ⟨_, _, Std.compare_eq_iff_eq.mp heq ▸ hk⟩
    · exact h e he
  · exact h e he

theorem isEntry_remove (h : ∀ e ∈ i.tree, IsEntry e) : ∀ e ∈ (i.remove pk row).tree, IsEntry e := by
  intro e he
  rw [SecondaryIndex.remove] at he
  split at he
  · exact h e (ExtTreeSet.mem_erase.mp he).2
  · exact h e he

theorem isEntry_replace {old new : Row} (h : ∀ e ∈ i.tree, IsEntry e) :
    ∀ e ∈ (i.replace pk old new).tree, IsEntry e := by
  rw [SecondaryIndex.replace]
  split
  · exact h
  · exact isEntry_add (isEntry_remove h)

theorem Listed.map {indexes : List SecondaryIndex} {f : SecondaryIndex → SecondaryIndex}
    (h : Listed indexes) (hf : ∀ i, (∀ e ∈ i.tree, IsEntry e) → ∀ e ∈ (f i).tree, IsEntry e) :
    Listed (indexes.map f) := by
  intro i' hi'
  obtain ⟨i, hi, rfl⟩ := List.mem_map.mp hi'
  exact hf i (h i hi)

theorem listed_new (info : TableDef) : Listed (Table.new info).indexes := by
  intro i hi e he
  obtain ⟨ix, -, hix⟩ := List.mem_filterMap.mp hi
  obtain ⟨j, -, rfl⟩ := Option.map_eq_some_iff.mp hix
  exact absurd he ExtTreeSet.not_mem_empty

structure Changes (t t' : Table) (tree : ExtTreeMap Bytes Bytes) : Prop where
  info : t'.info = t.info
  tree : t'.tree = tree
  listed : Listed t.indexes → Listed t'.indexes

theorem applyRaw_changes (hshort : full.length ≤ maxInlineRow)
    (h : Returns (applyRaw order current epoch t key full) s t' s') :
    Changes t t' (t.tree.insert key full) := by
  obtain ⟨raw, s1, halloc, h⟩ := Returns.of_bind h
  obtain rfl := allocValue_short hshort halloc
  obtain ⟨_, s2, -, h⟩ := Returns.of_bind h
  split at h
  · cases h
    exact ⟨rfl, rfl, id⟩
  · obtain ⟨pk, s3, -, h⟩ := Returns.of_bind h
    split at h
    · obtain ⟨old, s4, -, h⟩ := Returns.of_bind h
      split at h
      · cases h
        exact ⟨rfl, rfl, fun hl => hl.map fun _ => isEntry_replace⟩
      · cases h
        exact ⟨rfl, rfl, fun hl => hl.map fun _ => isEntry_add⟩
    · cases h
      exact ⟨rfl, rfl, id⟩

theorem removeRaw_changes (h : Returns (removeRaw current epoch t key) s t' s') :
    Changes t t' t.tree ∨ Changes t t' (t.tree.erase key) := by
  rw [removeRaw] at h
  split at h
  · cases h
    exact .inl ⟨rfl, rfl, id⟩
  · obtain ⟨_, s1, -, h⟩ := Returns.of_bind h
    refine .inr ?_
    split at h
    · cases h
      exact ⟨rfl, rfl, id⟩
    · obtain ⟨pk, s2, -, h⟩ := Returns.of_bind h
      obtain ⟨row, s3, -, h⟩ := Returns.of_bind h
      split at h
      · cases h
        exact ⟨rfl, rfl, fun hl => hl.map fun _ => isEntry_remove⟩
      · cases h
        exact ⟨rfl, rfl, id⟩

/-- Rows that are short enough are put as in a table without a pool. -/
theorem applyRaw_inline (hshort : full.length ≤ maxInlineRow)
    (hprev : ∀ prev, t.tree[key]? = some prev → isLocator prev = false)
    (h : t.applyRaw key full = .ok t') :
    Returns (applyRaw order current epoch t key full) s t' s := by
  have halloc : Returns (allocValue order current full) s full s := by
    rw [allocValue, if_pos hshort]
    exact returns_pure _ _
  obtain ⟨hfree, hdisplaced⟩ : Returns (t.tree[key]?.forM (freeValue epoch)) s ⟨⟩ s ∧
      Returns (displacedRow current t t.tree[key]?) s
        (t.tree[key]?.bind fun prev => attempt (t.decodeStored prev)) s := by
    cases hk : t.tree[key]? with
    | none => exact ⟨rfl, rfl⟩
    | some prev =>
      have hloc : ¬ isLocator prev = true := Bool.eq_false_iff.mp (hprev prev hk)
      rw [displacedRow, attemptM, decodeStored, resolveValue, if_neg hloc, pure_bind,
        Option.bind_some, Table.decodeStored]
      refine ⟨?_, by cases decodeRow t.schema prev <;> rfl⟩
      show Returns (freeValue epoch prev) s ⟨⟩ s
      rw [freeValue, decodeLocator, if_neg hloc]
      exact returns_pure _ _
  refine halloc.bind (hfree.bind ?_)
  unfold Table.applyRaw at h
  dsimp only
  split at h
  · next hempty =>
    cases h
    rw [if_pos hempty]
    exact returns_pure _ _
  · next hindexes =>
    rw [if_neg hindexes]
    generalize Table.attemptKey key = attempted at h ⊢
    cases attempted with
    | error e => cases h
    | ok pk =>
      cases h
      refine (returns_pure pk s).bind ?_
      dsimp only
      unfold Table.indexesPut
      cases pk with
      | none => exact returns_pure _ _
      | some pk =>
        cases attempt (decodeRow t.schema full) with
        | none => exact returns_pure _ _
        | some newRow =>
          refine hdisplaced.bind ?_
          cases t.tree[key]?.bind fun prev => attempt (t.decodeStored prev) <;>
            exact returns_pure _ _

/-- A program whose error is not dropped has returned. -/
theorem of_attemptM {α : Type} {m : PoolM α} {a : α} (h : Returns (attemptM m) s (some a) s') :
    Returns m s a s' := by
  obtain ⟨r, s1, hrun⟩ : ∃ r s1, exec m s = (r, s1) := ⟨_, _, rfl⟩
  cases r with
  | ok b =>
    have hmap : Returns (some <$> m) s (some b) s1 := by
      rw [← bind_pure_comp]
      exact Returns.bind hrun (returns_pure _ _)
    cases h.symm.trans hmap.tryCatch
    exact hrun
  | error e =>
    have hmap : Fails (some <$> m) s e s1 := by
      rw [← bind_pure_comp]
      exact Fails.bind hrun
    have hrest := h.symm.trans hmap.tryCatch
    cases e with
    | err e => cases hrest
    | panic => cases hrest

theorem addIndex_changes {name column : String}
    (h : Returns (addIndex current t name column) s t' s') : Changes t t' t.tree := by
  rw [addIndex] at h
  split at h
  · cases h
  · next colIdx _ =>
    split at h
    · cases h
    · split at h
      · cases h
      · obtain ⟨rows, s1, -, h⟩ := Returns.of_bind h
        obtain ⟨keys, s2, hkeys, h⟩ := Returns.of_bind h
        obtain ⟨hkeys', -⟩ := of_lift hkeys
        cases h
        refine ⟨rfl, rfl, fun hl => List.forall_mem_append.mpr ⟨hl, ?_⟩⟩
        refine List.forall_mem_singleton.mpr fun e he => ?_
        have he : e ∈ keys.foldl ExtTreeSet.insert ∅ := he
        rw [Entries.mem_foldl_insert] at he
        rcases he with he | he
        · obtain ⟨r, -, hr⟩ := (Outcome.mem_of_mapM_ok hkeys').mp he
          exact ⟨_, _, hr⟩
        · exact absurd he ExtTreeSet.not_mem_empty

variable {n : String} {tree : ExtTreeMap Bytes Bytes} {c c' : Catalog} {d d' : Db}

theorem Settled.changed (h : Settled n t) (hchange : Changes t t' tree)
    (hrows : ∀ (k : Bytes) raw, tree[k]? = some raw → t.tree[k]? = some raw ∨ Sits t.schema k raw) :
    Settled n t' where
  named := (congrArg TableDef.name hchange.info).trans h.named
  qualified := h.qualified
  rows k raw hraw := by
    rw [hchange.tree] at hraw
    rw [show t'.schema = t.schema from congrArg TableDef.schema hchange.info]
    exact (hrows k raw hraw).elim (h.rows k raw) id
  listed := hchange.listed h.listed

theorem AllSettled.insert (h : AllSettled c) (ht : Settled n t) :
    AllSettled { c with tables := c.tables.insert n t } := by
  intro n' t' ht'
  rw [ExtTreeMap.getElem?_insert] at ht'
  split at ht'
  · next heq =>
    cases ht'
    exact Std.compare_eq_iff_eq.mp heq ▸ ht
  · exact h n' t' ht'

theorem AllSettled.onTable {f : Table → PoolM Table} (h : AllSettled d.catalog)
    (hrun : Returns (onTable n f) d () d')
    (hf : ∀ t s t' s', d.catalog.tables[n]? = some t → Settled n t → Returns (f t) s t' s' →
      Settled n t') : AllSettled d'.catalog := by
  obtain ⟨_, _, hget, hrun⟩ := Returns.of_bind hrun
  cases hget
  split at hrun
  · cases hrun
    exact h
  · next t ht =>
    obtain ⟨t', d1, hpool, hrun⟩ := Returns.of_bind hrun
    obtain ⟨s1, hpool', rfl⟩ := of_onPool hpool
    cases hrun
    exact h.insert (hf t _ t' s1 ht (h n t ht) hpool')

/-- Nothing but the indexes of a table changes when an index is dropped. -/
theorem dropIndex_changes {name : String}
    (h : Catalog.ignoreError t ((t.dropIndex name).mapError Fault.err) = .ok t') :
    Changes t t' t.tree := by
  rw [Table.dropIndex] at h
  split at h
  · cases h
    exact ⟨rfl, rfl, id⟩
  · cases h
    exact ⟨rfl, rfl, fun hl i hi => hl i (List.mem_of_mem_eraseIdx hi)⟩

theorem AllSettled.catalog (h : AllSettled c) {r : Record} (hissued : Issued c r)
    (hput : ∀ txn table key raw, r ≠ .put txn table key raw)
    (hdelete : ∀ txn table key, r ≠ .delete txn table key)
    (hcreate : ∀ txn table name column, r ≠ .createIndex txn table name column)
    (hrun : c.applyRecord r = .ok c') : AllSettled c' := by
  cases r with
  | put txn table key raw => exact absurd rfl (hput txn table key raw)
  | delete txn table key => exact absurd rfl (hdelete txn table key)
  | createIndex txn table name column => exact absurd rfl (hcreate txn table name column)
  | createDatabase txn name =>
    cases hrun
    exact h
  | commit txn ts =>
    cases hrun
    exact h
  | dropDatabase txn name =>
    cases hrun
    intro n t ht
    rw [ExtTreeMap.getElem?_filter'] at ht
    exact h n t (Option.filter_eq_some_iff.mp ht).1
  | dropTable txn name =>
    cases hrun
    intro n t ht
    rw [ExtTreeMap.getElem?_erase] at ht
    split at ht
    · cases ht
    · exact h n t ht
  | createTable txn info =>
    cases hrun
    split
    · exact h
    · refine h.insert ⟨rfl, hissued, fun k raw hraw => ?_, listed_new info⟩
      rw [Table.new, ExtTreeMap.getElem?_empty] at hraw
      cases hraw
  | dropIndex txn table name =>
    rw [Catalog.applyRecord, Catalog.onTable] at hrun
    split at hrun
    · cases hrun
      exact h
    · next t ht =>
      obtain ⟨t', ht', hrun⟩ := Outcome.bind_ok hrun
      cases hrun
      exact h.insert ((h table t ht).changed (dropIndex_changes ht') fun _ _ hraw => .inl hraw)

theorem of_setCatalog {x : Except Fault Catalog}
    (h : Returns (settle x >>= fun c => modify fun d => { d with catalog := c }) d () d') :
    x = .ok d'.catalog := by
  obtain ⟨c, d1, hsettle, hmodify⟩ := Returns.of_bind h
  obtain ⟨hc, rfl⟩ := of_settle hsettle
  cases hmodify
  exact hc

/-- A record whose rows are in their places leaves the tables settled. -/
theorem AllSettled.applied {r : Record} (h : AllSettled d.catalog) (hissued : Issued d.catalog r)
    (hplace : InPlace d.catalog r) (hrun : Returns (applyRecord order current epoch r) d () d') :
    AllSettled d'.catalog := by
  cases r with
  | put txn table key raw =>
    obtain ⟨hshort, row, rfl, hrow⟩ := hplace
    refine h.onTable hrun fun t s t' s' ht hold hput => ?_
    refine hold.changed (applyRaw_changes hshort hput) fun k raw hraw => ?_
    rw [ExtTreeMap.getElem?_insert] at hraw
    split at hraw
    · next heq =>
      cases hraw
      cases Std.compare_eq_iff_eq.mp heq
      exact .inr ⟨hshort, row, rfl, hrow t ht⟩
    · exact .inl hraw
  | delete txn table key =>
    refine h.onTable hrun fun t s t' s' ht hold hdelete => ?_
    rcases removeRaw_changes hdelete with hsame | herased
    · exact hold.changed hsame fun _ _ hraw => .inl hraw
    · refine hold.changed herased fun k raw hraw => ?_
      rw [ExtTreeMap.getElem?_erase] at hraw
      split at hraw
      · cases hraw
      · exact .inl hraw
  | createIndex txn table name column =>
    refine h.onTable hrun fun t s t' s' ht hold hcreate => ?_
    obtain ⟨found, s1, hindex, hrun⟩ := Returns.of_bind hcreate
    cases hrun
    cases found with
    | none => exact hold
    | some t' => exact hold.changed (addIndex_changes (of_attemptM hindex)) fun _ _ hraw => .inl hraw
  | createDatabase | dropDatabase | createTable | dropTable | dropIndex | commit =>
    obtain ⟨_, _, hget, hset⟩ := Returns.of_bind hrun
    cases hget
    exact h.catalog hissued (by simp) (by simp) (by simp) (of_setCatalog hset)

/-! ## Snapshots -/

theorem putRestored_listed (h : putRestored t key raw row = .ok t') (hl : Listed t.indexes) :
    Listed t'.indexes := by
  rw [putRestored] at h
  split at h
  · cases h
    exact hl
  · obtain ⟨pk, -, h⟩ := Outcome.bind_ok h
    obtain ⟨indexes, hindexes, h⟩ := Outcome.bind_ok h
    cases h
    intro i' hi'
    obtain ⟨i, hi, hput⟩ := (Outcome.mem_of_mapM_ok hindexes).mp hi'
    obtain ⟨k, hk, hput⟩ := Outcome.bind_ok hput
    cases hput
    intro e he
    rcases ExtTreeSet.mem_insert.mp he with heq | he
    · cases Std.compare_eq_iff_eq.mp heq
      cases hentry : encodeSecIndexKey (Table.column row i.colIdx) pk with
      | ok e =>
        rw [hentry] at hk
        cases hk
        exact ⟨_, _, hentry⟩
      | error e =>
        rw [hentry] at hk
        cases hk
    · exact hl i hi e he

theorem foldlM_listed : ∀ {rows : Backup.Pairs} {t : Table} {s : Inner},
    Returns (rows.foldlM (Replica.restoreKv current) t) s t' s' → Listed t.indexes → Listed t'.indexes
  | [], _, _, h, hl => by
    cases h
    exact hl
  | kv :: rows, t, s, h, hl => by
    rw [List.foldlM_cons] at h
    obtain ⟨t1, s1, hkv, h⟩ := Returns.of_bind h
    refine foldlM_listed h ?_
    obtain ⟨row, s2, -, hkv⟩ := Returns.of_bind hkv
    obtain ⟨expect, s3, -, hkv⟩ := Returns.of_bind hkv
    split at hkv
    · cases hkv
    · exact putRestored_listed (of_settle hkv).1 hl

theorem stageTables_listed : ∀ {xs : List (TableDef × Backup.Pairs)} {staged tables : Tables}
    {s : Inner}, Returns (stageTables current xs staged) s tables s' →
    (∀ (n : String) t, staged[n]? = some t → Listed t.indexes) →
    ∀ (n : String) t, tables[n]? = some t → Listed t.indexes
  | [], _, _, _, h, hl => by
    cases h
    exact hl
  | x :: xs, staged, tables, _, h, hl => by
    obtain ⟨t1, s1, hx, h⟩ := Returns.of_bind h
    refine stageTables_listed h fun n t ht => ?_
    rw [ExtTreeMap.getElem?_insert] at ht
    split at ht
    · cases ht
      exact foldlM_listed hx (listed_new x.1)
    · exact hl n t ht

theorem AllSettled.staged (h : AllSettled c) {tables : Tables} (dbs : ExtTreeSet String)
    (hstage : Returns (stageTables current (rowsOf c) ∅) s tables s') :
    AllSettled { databases := dbs, tables := tables } := by
  have hnames := rowsOf_names fun n t ht => (h n t ht).named
  have hnodup : ((rowsOf c).map fun x => x.1.name).Nodup := by
    rw [hnames]
    exact ExtTreeMap.nodup_keys
  obtain ⟨hbuilt, hother⟩ := stageTables_built hnodup hstage
  intro n t' ht'
  have hlisted := stageTables_listed hstage (fun n t ht => by simp at ht) n t' ht'
  cases ht : c.tables[n]? with
  | none =>
    have hn : n ∉ (rowsOf c).map fun x => x.1.name := by
      rw [hnames, ExtTreeMap.mem_keys, ExtTreeMap.mem_iff_isSome_getElem?, ht]
      simp
    have hnone := hother n hn
    rw [ExtTreeMap.getElem?_empty] at hnone
    cases ht'.symm.trans hnone
  | some t =>
    have hold := h n t ht
    obtain ⟨t'', ht'', hx⟩ := hbuilt _ (mem_rowsOf ht)
    rw [show t.tableDef.name = n from hold.named] at ht''
    cases ht'.symm.trans ht''
    have htree : t'.tree = t.tree := hx.tree.trans (Entries.foldl_insert_toList t.tree)
    refine ⟨?_, hold.qualified, fun k raw hraw => ?_, hlisted⟩
    · rw [hx.info]
      exact hold.named
    · rw [htree] at hraw
      rw [Table.schema, hx.info]
      exact hold.rows k raw hraw

theorem refreshAutoInc_changes (h : t.refreshAutoInc = .ok t') : Changes t t' t.tree := by
  rw [Table.refreshAutoInc] at h
  split at h
  · cases h
    exact ⟨rfl, rfl, id⟩
  · obtain ⟨max, -, h⟩ := Outcome.bind_ok h
    cases h
    exact ⟨rfl, rfl, id⟩

theorem AllSettled.mapTables (h : AllSettled c) (hrun : c.mapTables Table.refreshAutoInc = .ok c') :
    AllSettled c' := by
  obtain ⟨_, -, hrun⟩ := Outcome.bind_ok hrun
  cases hrun
  intro n t' ht'
  rw [ExtTreeMap.getElem?_filterMap'] at ht'
  obtain ⟨t, ht, hrefresh⟩ := Option.bind_eq_some_iff.mp ht'
  cases hok : t.refreshAutoInc with
  | error e =>
    rw [hok] at hrefresh
    cases hrefresh
  | ok t'' =>
    rw [hok] at hrefresh
    cases hrefresh
    exact (h n t ht).changed (refreshAutoInc_changes hok) fun _ _ hraw => .inl hraw

theorem ensureIndex_changes {fk : ForeignKeyDef} (h : Returns (ensureIndex current t fk) s t' s') :
    Changes t t' t.tree := by
  rw [ensureIndex] at h
  split at h
  · cases h
    exact ⟨rfl, rfl, id⟩
  · exact addIndex_changes h

theorem foldlM_ensureIndex : ∀ {fks : List ForeignKeyDef} {t : Table} {s : Inner},
    Returns (fks.foldlM (ensureIndex current) t) s t' s' → Changes t t' t.tree
  | [], _, _, h => by
    cases h
    exact ⟨rfl, rfl, id⟩
  | fk :: fks, t, s, h => by
    rw [List.foldlM_cons] at h
    obtain ⟨t1, s1, hfk, h⟩ := Returns.of_bind h
    have hfirst := ensureIndex_changes hfk
    have hrest := foldlM_ensureIndex h
    exact ⟨hrest.info.trans hfirst.info, hrest.tree.trans hfirst.tree,
      fun hl => hrest.listed (hfirst.listed hl)⟩

/-- A loop that has returned has returned at each element. -/
theorem of_mapM {α β : Type} {f : α → PoolM β} : ∀ {l : List α} {bs : List β} {s : Inner},
    Returns (l.mapM f) s bs s' → ∀ b ∈ bs, ∃ a ∈ l, ∃ s1 s2, Returns (f a) s1 b s2
  | [], _, _, h, b, hb => by
    cases h
    cases hb
  | a :: l, _, _, h, b, hb => by
    rw [List.mapM_cons] at h
    obtain ⟨b', s1, ha, h⟩ := Returns.of_bind h
    obtain ⟨bs', s2, hl, h⟩ := Returns.of_bind h
    cases h
    rcases List.mem_cons.mp hb with rfl | hb
    · exact ⟨a, List.mem_cons_self, _, _, ha⟩
    · obtain ⟨a', ha', hrun⟩ := of_mapM hl b hb
      exact ⟨a', List.mem_cons_of_mem _ ha', hrun⟩

theorem AllSettled.fkEnsureAll (h : AllSettled c)
    (hrun : Returns (fkEnsureAllAutoIndexes current c) s c' s') : AllSettled c' := by
  obtain ⟨tables, s1, htables, hrun⟩ := Returns.of_bind hrun
  cases hrun
  intro n t' ht'
  rcases Entries.of_getElem?_foldl_insert ht' with hmem | hnone
  · obtain ⟨e, he, s1, s2, hrun⟩ := of_mapM htables _ hmem
    obtain ⟨t, s3, hensure, hrun⟩ := Returns.of_bind hrun
    cases hrun
    have ht := ExtTreeMap.mem_toList_iff_getElem?_eq_some.mp he
    exact (h e.1 e.2 ht).changed (foldlM_ensureIndex hensure) fun _ _ hraw => .inl hraw
  · rw [ExtTreeMap.getElem?_empty] at hnone
    cases hnone

theorem AllSettled.copied {p : Db} {a : Archive} {files : Files} (h : AllSettled p.catalog)
    (ha : dumpLive p = .ok a)
    (hrun : Returns (applyReplicaSnapshot files current a) d () d') : AllSettled d'.catalog := by
  obtain ⟨rfl, -⟩ := dumpLive_ok ha
  obtain ⟨c2, d3, hstaged, hrun⟩ := Returns.of_bind hrun
  obtain ⟨tables, d1, hstage, hstaged⟩ := Returns.of_bind hstaged
  obtain ⟨s1, hstage', rfl⟩ := of_onPool hstage
  obtain ⟨c1, d2, hrefresh, hensure⟩ := Returns.of_bind hstaged
  obtain ⟨hrefresh', rfl⟩ := of_settle hrefresh
  obtain ⟨s3, hensure', rfl⟩ := of_onPool hensure
  obtain ⟨_, d4, -, hrun⟩ := Returns.of_bind hrun
  obtain ⟨_, d5, -, hrun⟩ := Returns.of_bind hrun
  obtain ⟨_, d6, hmodify, hrun⟩ := Returns.of_bind hrun
  cases hmodify
  obtain ⟨_, d7, hcheckpoint, hrun⟩ := Returns.of_bind hrun
  cases hrun
  obtain ⟨_, d8, hget, hcheckpoint⟩ := Returns.of_bind hcheckpoint
  cases hget
  obtain ⟨bytes, d9, hencoded, hcheckpoint⟩ := Returns.of_bind hcheckpoint
  obtain ⟨-, rfl⟩ := of_settle hencoded
  split at hcheckpoint
  · cases hcheckpoint
    exact ((h.staged _ hstage').mapTables hrefresh').fkEnsureAll hensure'
  · cases hcheckpoint

/-- In every history of short rows under their own keys the tables are settled. -/
theorem History.settled (h : History (fun c r => Issued c r ∧ InPlace c r) d) :
    AllSettled d.catalog := by
  induction h with
  | opened _ =>
    intro n t ht
    simp [Catalog.empty] at ht
  | applied _ hr hrun ih => exact ih.applied hr.1 hr.2 hrun
  | restarted _ _ _ ih _ => exact ih
  | copied _ _ ha hrun ih _ => exact ih.copied ha hrun

end

end Check

end HenchDB
