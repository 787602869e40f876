import HenchDB.Lib.Outcome
import HenchDB.Wal.Log

/-!
# Recovery

`Database::open` reads the log, buffers the records of every transaction and
applies them when it meets the `Commit` record (`redo`); then it rebuilds the
`AUTO_INCREMENT` counters and adds the indexes that foreign keys need.

Redo cannot fail on what the engine logs: it panics only on a key that
`decode_key` panics on, and an index is missing only where `DROP INDEX` was
let through.  `Sound` is what every catalog on the way keeps, and `admits` are
the checks of the engine before it logs.
-/

namespace HenchDB

open Std (ExtTreeMap ExtTreeSet)

/-! ## Indexes of foreign keys -/

namespace Table

def covers (t : Table) (fk : ForeignKeyDef) : Bool :=
  t.schema.indexOf fk.column = some t.schema.pkIdx ||
    t.secondaryIndexes.any fun d => d.column = fk.column

/-- The first name of `fk_ensure_auto_indexes` that is not in use. -/
def autoIndexName (t : Table) (column : String) : String :=
  let names := s!"fk_{column}" ::
    (List.range (t.indexes.length + 1)).map fun n => s!"fk_{column}_{n + 2}"
  (names.find? fun name => !t.hasIndex name).getD ""

/-- One foreign key of `fk_ensure_auto_indexes`. -/
def ensureIndex (t : Table) (fk : ForeignKeyDef) : Except Fault Table :=
  if t.covers fk then .ok t else t.addIndex (t.autoIndexName fk.column) fk.column

def fkEnsureAutoIndexes (t : Table) : Except Fault Table := t.info.foreignKeys.foldlM ensureIndex t

def fkCheckDropIndex (t : Table) (name : String) : Bool :=
  match t.secondaryIndexes.find? fun d => d.name = name with
  | none => true
  | some d => t.info.foreignKeys.all fun fk =>
    fk.column ≠ d.column ||
      t.secondaryIndexes.any fun d' => d'.name ≠ name && d'.column = fk.column

end Table

namespace Catalog

/-- Change every table, unless the change of one of them fails. -/
def mapTables (c : Catalog) (f : Table → Except Fault Table) : Except Fault Catalog := do
  let _ ← c.tables.toList.mapM fun (_, t) => f t
  return { c with tables := c.tables.filterMap fun _ t => (f t).toOption }

end Catalog

/-! ## Redo -/

/-- The redo loop: buffered records by transaction, and the batches applied. -/
structure Redo where
  pending : ExtTreeMap Nat (List Record)
  applied : List (List Record)

namespace Redo

/-- Nothing read yet. -/
def start : Redo := { pending := ∅, applied := [] }

def step (s : Redo) (r : Record) : Redo :=
  match r with
  | .commit txn _ =>
    match s.pending[txn]? with
    | some batch => { pending := s.pending.erase txn, applied := s.applied ++ [batch] }
    | none => s
  | r => { s with pending := s.pending.insert r.txnOf (s.pending[r.txnOf]?.getD [] ++ [r]) }

def run (s : Redo) (rs : List Record) : Redo := rs.foldl step s

end Redo

/-- The batches that redo applies, and what stays buffered. -/
def redo (rs : List Record) : Redo := Redo.start.run rs

def recovered (file : Bytes) : Except Fault Catalog := do
  let rs ← (Wal.readAll file).mapError Fault.err
  Catalog.empty.applyRecords (redo rs).applied.flatten

/-- `Database::open` without a snapshot; a new log gets its header. -/
def openDb (file : Bytes) : Except Fault Catalog := do
  let c ← recovered (if file.isEmpty then Wal.header else file)
  let c ← c.mapTables Table.refreshAutoInc
  c.mapTables Table.fkEnsureAutoIndexes

/-! ## Transactions in the log -/

section Redo

variable {s : Redo} {txn : Nat} {rs : List Record}

/-- The records of a transaction are buffered. -/
theorem Redo.run_records (hrs : ∀ r ∈ rs, r.txnOf = txn ∧ r.isCommit = false) :
    (s.run rs).applied = s.applied ∧
      (∀ txn' : Nat, txn' ≠ txn → (s.run rs).pending[txn']? = s.pending[txn']?) ∧
      (rs ≠ [] → (s.run rs).pending[txn]? = some (s.pending[txn]?.getD [] ++ rs)) := by
  induction rs generalizing s with
  | nil => simp [Redo.run]
  | cons r rs ih =>
    obtain ⟨htxn, hcommit⟩ := hrs r (by simp)
    have hstep : s.step r =
        { s with pending := s.pending.insert txn (s.pending[txn]?.getD [] ++ [r]) } := by
      subst htxn
      cases r <;> first | rfl | cases hcommit
    obtain ⟨happlied, hother, hsame⟩ := ih (s := s.step r) fun r hr => hrs r (by simp [hr])
    have hrun : s.run (r :: rs) = (s.step r).run rs := rfl
    refine ⟨?_, fun txn' hne => ?_, fun _ => ?_⟩
    · rw [hrun, happlied, hstep]
    · rw [hrun, hother txn' hne, hstep, ExtTreeMap.getElem?_insert]
      simp [Ne.symm hne]
    · rw [hrun]
      cases rs with
      | nil => simp [Redo.run, hstep]
      | cons r' rs' =>
        rw [hsame (by simp), hstep]
        simp

theorem Redo.run_append (s : Redo) (rs rs' : List Record) :
    s.run (rs ++ rs') = (s.run rs).run rs' := List.foldl_append

theorem redo_append (rs rs' : List Record) : redo (rs ++ rs') = (redo rs).run rs' :=
  List.foldl_append

/-- The batches applied before play no part in the loop. -/
theorem Redo.run_frame (s : Redo) (rs : List Record) :
    (s.run rs).pending = (Redo.run { pending := s.pending, applied := [] } rs).pending ∧
      (s.run rs).applied =
        s.applied ++ (Redo.run { pending := s.pending, applied := [] } rs).applied := by
  induction rs using List.reverseRecOn with
  | nil => simp [Redo.run]
  | append_singleton rs r ih =>
    obtain ⟨hpending, happlied⟩ := ih
    have hlast : ∀ s : Redo, s.run (rs ++ [r]) = (s.run rs).step r := fun s =>
      Redo.run_append s rs [r]
    rw [hlast, hlast]
    cases r with
    | commit txn ts =>
      simp only [Redo.step, hpending]
      split
      · simp [happlied]
      · exact ⟨hpending, happlied⟩
    | _ => simp [Redo.step, hpending, happlied]

/-- A transaction that nothing is buffered for is applied by itself. -/
theorem Redo.run_txn {ts : Option Nat} (hpending : s.pending[txn]? = none) (hne : rs ≠ [])
    (hrs : ∀ r ∈ rs, r.txnOf = txn ∧ r.isCommit = false) :
    (s.run (rs ++ [.commit txn ts])).applied = s.applied ++ [rs] := by
  obtain ⟨happlied, -, hsame⟩ := Redo.run_records (s := s) hrs
  have hrun : s.run (rs ++ [.commit txn ts]) = (s.run rs).step (.commit txn ts) := by
    simp [Redo.run]
  have hbatch := hsame hne
  rw [hpending, Option.getD_none, List.nil_append] at hbatch
  rw [hrun, Redo.step, hbatch]
  simp [happlied]

/-- It leaves nothing buffered. -/
theorem Redo.pending_run_txn {ts : Option Nat} (hpending : s.pending[txn]? = none) (hne : rs ≠ [])
    (hrs : ∀ r ∈ rs, r.txnOf = txn ∧ r.isCommit = false) :
    (s.run (rs ++ [.commit txn ts])).pending = s.pending := by
  obtain ⟨-, hother, hsame⟩ := Redo.run_records (s := s) hrs
  have hrun : s.run (rs ++ [.commit txn ts]) = (s.run rs).step (.commit txn ts) := by
    simp [Redo.run]
  rw [hrun, Redo.step, hsame hne]
  refine ExtTreeMap.ext_getElem? fun txn' => ?_
  rw [ExtTreeMap.getElem?_erase]
  split
  · next heq => rw [← Std.compare_eq_iff_eq.mp heq, hpending]
  · next hne' => exact hother txn' fun heq => hne' (Std.compare_eq_iff_eq.mpr heq.symm)

/-- A log of whole batches: nothing stays buffered, and redo applies all of it. -/
structure Batched (log : List Record) : Prop where
  pending : (redo log).pending = ∅
  applied : ∀ c : Catalog, c.applyRecords (redo log).applied.flatten = c.applyRecords log

theorem Batched.append {log : List Record} {ts : Option Nat} (h : Batched log) (rs : List Record)
    (hrs : ∀ r ∈ rs, r.txnOf = txn ∧ r.isCommit = false) :
    Batched (log ++ (rs ++ [.commit txn ts])) := by
  have hnone : (redo log).pending[txn]? = none := by simp [h.pending]
  have hcommit : ∀ c : Catalog, c.applyRecords (log ++ (rs ++ [.commit txn ts])) =
      c.applyRecords log >>= fun c => c.applyRecords rs := by
    intro c
    rw [Catalog.applyRecords_append]
    refine congrArg _ (funext fun c => ?_)
    rw [Catalog.applyRecords_append]
    show (c.applyRecords rs >>= fun c => .ok c) = _
    cases c.applyRecords rs <;> rfl
  by_cases hne : rs = []
  · subst hne
    have hstep : redo (log ++ ([] ++ [.commit txn ts])) = redo log := by
      rw [redo_append]
      show (redo log).step (.commit txn ts) = _
      rw [Redo.step, hnone]
    refine ⟨hstep ▸ h.pending, fun c => ?_⟩
    rw [hstep, h.applied, hcommit]
    show _ = c.applyRecords log >>= fun c => .ok c
    cases c.applyRecords log <;> rfl
  · refine ⟨?_, fun c => ?_⟩
    · rw [redo_append, Redo.pending_run_txn hnone hne hrs, h.pending]
    · rw [redo_append, Redo.run_txn hnone hne hrs, List.flatten_append, List.flatten_singleton,
        Catalog.applyRecords_append, h.applied, hcommit]

end Redo

namespace Wal

/-- A transaction as it goes to the log. -/
structure Txn where
  id : Nat
  records : List Record
  /-- Time of the `Commit` record. -/
  ts : Nat

/-- The records that `append_records` is given. -/
def Txn.log (t : Txn) : List Record := t.records ++ [.commit t.id (some t.ts)]

/-- The records of a transaction: at least one, all under its id, no `Commit`. -/
def Txn.wellFormed (t : Txn) : Bool :=
  !t.records.isEmpty && t.records.all fun r => r.txnOf = t.id && !r.isCommit

section Txn

variable {t : Txn} {ts : List Txn} {s : Redo}

/-- The records of a transaction, as redo sees them. -/
theorem Txn.wellFormed_spec (h : t.wellFormed = true) :
    t.records ≠ [] ∧ ∀ r ∈ t.records, r.txnOf = t.id ∧ r.isCommit = false := by
  rw [Txn.wellFormed, Bool.and_eq_true] at h
  refine ⟨by simpa using h.1, fun r hr => ?_⟩
  simpa using List.all_eq_true.mp h.2 r hr

theorem Txn.txnOf_log (h : t.wellFormed = true) {r : Record} (hr : r ∈ t.log) : r.txnOf = t.id := by
  rcases List.mem_append.mp hr with hr | hr
  · exact ((Txn.wellFormed_spec h).2 r hr).1
  · rw [List.mem_singleton.mp hr]
    rfl

/-- A cut leaves a transaction whole or takes its `Commit` record. -/
theorem wholeRecords_log (t : Txn) (n : Nat) :
    if (frames t.log).length ≤ n then wholeRecords t.log n = t.log
    else wholeRecords t.log n <+: t.records := by
  split
  · next hle => exact wholeRecords_of_le hle
  · next hlt =>
    have hpre := wholeRecords_prefix t.log n
    rw [Txn.log, List.prefix_concat_iff] at hpre
    rcases hpre with hall | hpre
    · refine absurd ?_ hlt
      have := length_frames_whole t.log n
      rwa [Txn.log, hall] at this
    · exact hpre

/-- What a cut leaves of a transaction is applied only with its `Commit`, also
where the records come back as others of the same kind. -/
theorem run_whole_map {f : Record → Record} (hwf : t.wellFormed = true)
    (hf : ∀ r ∈ t.log, (f r).txnOf = r.txnOf ∧ (f r).isCommit = r.isCommit)
    (hpending : s.pending[t.id]? = none) (n : Nat) :
    (s.run ((wholeRecords t.log n).map f)).applied =
      if (frames t.log).length ≤ n then s.applied ++ [t.records.map f] else s.applied := by
  obtain ⟨hne, hrecords⟩ := Txn.wellFormed_spec hwf
  have hmapped : ∀ r ∈ t.records, (f r).txnOf = t.id ∧ (f r).isCommit = false := by
    intro r hr
    obtain ⟨htxn, hkind⟩ := hf r (List.mem_append_left _ hr)
    exact ⟨htxn.trans (hrecords r hr).1, hkind.trans (hrecords r hr).2⟩
  have hwhole := wholeRecords_log t n
  split at hwhole
  · next hle =>
    obtain ⟨ts', hcommit⟩ : ∃ ts', f (.commit t.id (some t.ts)) = .commit t.id ts' := by
      obtain ⟨htxn, hkind⟩ := hf (.commit t.id (some t.ts)) (by simp [Txn.log])
      cases hlast : f (.commit t.id (some t.ts)) with
      | commit txn ts' =>
        rw [hlast] at htxn
        obtain rfl : txn = t.id := htxn
        exact ⟨ts', rfl⟩
      | _ =>
        rw [hlast] at hkind
        cases hkind
    rw [hwhole, if_pos hle, Txn.log, List.map_append, List.map_singleton, hcommit]
    exact Redo.run_txn hpending (by simpa using hne) (by simpa using hmapped)
  · next hlt =>
    have hbuffered : ∀ r ∈ (wholeRecords t.log n).map f, r.txnOf = t.id ∧ r.isCommit = false := by
      intro r hr
      obtain ⟨r', hr', rfl⟩ := List.mem_map.mp hr
      exact hmapped r' ( hwhole.subset hr')
    rw [if_neg hlt]
    exact (Redo.run_records hbuffered).1

theorem run_whole (hwf : t.wellFormed = true) (hpending : s.pending[t.id]? = none) (n : Nat) :
    (s.run (wholeRecords t.log n)).applied =
      if (frames t.log).length ≤ n then s.applied ++ [t.records] else s.applied := by
  simpa using run_whole_map (f := id) hwf (fun _ _ => ⟨rfl, rfl⟩) hpending n

theorem pending_run_log (hwf : t.wellFormed = true) (hpending : s.pending[t.id]? = none) :
    (s.run t.log).pending = s.pending := by
  obtain ⟨hne, hrecords⟩ := Txn.wellFormed_spec hwf
  exact Redo.pending_run_txn hpending hne hrecords

/-- The transactions whose `Commit` record is in the first `n` bytes. -/
def wholeTxns : List Txn → Nat → List Txn
  | [], _ => []
  | t :: ts, n =>
    if (frames t.log).length ≤ n then t :: wholeTxns ts (n - (frames t.log).length) else []

/-- Redo of a log of whole transactions that was cut anywhere. -/
theorem run_wholeTxns (hwf : ∀ t ∈ ts, t.wellFormed = true) (hpending : s.pending = ∅) (n : Nat) :
    (s.run (wholeRecords (ts.flatMap Txn.log) n)).applied =
      s.applied ++ (wholeTxns ts n).map Txn.records := by
  induction ts generalizing s n with
  | nil => simp [wholeRecords, wholeTxns, Redo.run]
  | cons t ts ih =>
    have hnone : s.pending[t.id]? = none := by simp [hpending]
    have ht := hwf t (by simp)
    rw [List.flatMap_cons, wholeTxns]
    split
    · next hle =>
      have hlog := run_whole ht hnone n
      rw [if_pos hle, wholeRecords_of_le hle] at hlog
      rw [wholeRecords_append_of_ge _ hle, Redo.run_append,
        ih (fun t ht => hwf t (by simp [ht])) (by rw [pending_run_log ht hnone, hpending]), hlog]
      simp
    · next hlt =>
      rw [wholeRecords_append_of_le _ (by omega), run_whole ht hnone, if_neg hlt]
      simp

/-- Nothing is buffered behind whole transactions. -/
theorem pending_run_logs (hwf : ∀ t ∈ ts, t.wellFormed = true) (hpending : s.pending = ∅) :
    (s.run (ts.flatMap Txn.log)).pending = ∅ := by
  induction ts generalizing s with
  | nil => exact hpending
  | cons t ts ih =>
    rw [List.flatMap_cons, Redo.run_append]
    refine ih (fun t ht => hwf t (by simp [ht])) ?_
    rw [pending_run_log (hwf t (by simp)) (by simp [hpending]), hpending]

end Txn

end Wal

/-! ## What the engine logs -/

def TableDef.fkIndexed (x : TableDef) : Bool := (Table.new x).info.foreignKeys.all (Table.new x).covers

namespace Catalog

/-- The checks of the engine before it logs a record: keys come from
`encode_key`, a new table has its foreign keys indexed, and the last index of a
foreign key is not dropped. -/
def admitsRecord (c : Catalog) : Record → Bool
  | .put _ _ key _ => KeyOk key
  | .delete _ _ key => KeyOk key
  | .createTable _ x => x.fkIndexed
  | .dropIndex _ table name => (c.tables[table]?).all fun t => t.fkCheckDropIndex name
  | _ => true

def admits (c : Catalog) : List Record → Bool
  | [] => true
  | r :: rs =>
    c.admitsRecord r &&
      match c.applyRecord r with
      | .ok c' => c'.admits rs
      | .error _ => true

end Catalog

structure Table.Sound (t : Table) : Prop where
  keys : ∀ (k : Bytes) raw, t.tree[k]? = some raw → KeyOk k
  covered : ∀ fk ∈ t.info.foreignKeys, t.covers fk = true

def Catalog.Sound (c : Catalog) : Prop :=
  ∀ (name : String) t, c.tables[name]? = some t → t.Sound

namespace Table

variable {t t' : Table} {key : Bytes}

/-- Coverage depends on the definition and the index definitions. -/
theorem covers_congr (hinfo : t'.info = t.info) (hidx : t'.secondaryIndexes = t.secondaryIndexes)
    (fk : ForeignKeyDef) : t'.covers fk = t.covers fk := by
  rw [covers, covers, schema, schema, hinfo, hidx]

theorem Sound.congr (h : t.Sound) (hinfo : t'.info = t.info)
    (hidx : t'.secondaryIndexes = t.secondaryIndexes)
    (hkeys : ∀ (k : Bytes) raw, t'.tree[k]? = some raw → KeyOk k) : t'.Sound where
  keys := hkeys
  covered := by
    rw [hinfo]
    intro fk hfk
    rw [covers_congr hinfo hidx]
    exact h.covered fk hfk

theorem Sound.applyRaw (h : t.Sound) (hkey : KeyOk key) (full : Bytes) :
    ∃ t', t.applyRaw key full = .ok t' ∧ t'.Sound := by
  obtain ⟨t', ht', htree, hinfo, hidx, -⟩ := applyRaw_ok (t := t) hkey full
  refine ⟨t', ht', h.congr hinfo hidx fun k raw hk => ?_⟩
  rw [htree, ExtTreeMap.getElem?_insert] at hk
  split at hk
  · next heq => rwa [← Std.compare_eq_iff_eq.mp heq]
  · exact h.keys k raw hk

theorem Sound.removeRaw (h : t.Sound) (hkey : KeyOk key) :
    ∃ t', t.removeRaw key = .ok t' ∧ t'.Sound := by
  obtain ⟨t', ht', htree, hinfo, hidx, -⟩ := removeRaw_ok (t := t) hkey
  refine ⟨t', ht', h.congr hinfo hidx fun k raw hk => ?_⟩
  rw [htree, ExtTreeMap.getElem?_erase] at hk
  split at hk
  · cases hk
  · exact h.keys k raw hk

theorem Sound.scan (h : t.Sound) : NoPanic t.scan := by
  refine noPanic_mapM fun ⟨k, raw⟩ hk => ?_
  have hkey := h.keys k raw (ExtTreeMap.mem_toList_iff_getElem?_eq_some.mp hk)
  exact (noPanic_decodeKey hkey).bind fun pk _ =>
    (noPanic_mapError _).bind fun row _ => noPanic_ok _

theorem Sound.indexKeys (h : t.Sound) (colIdx : Nat) : NoPanic (t.indexKeys colIdx) :=
  h.scan.bind fun _ _ => noPanic_mapM fun _ _ => noPanic_mapError _

theorem Sound.addIndex_noPanic (h : t.Sound) (name column : String) :
    NoPanic (t.addIndex name column) := by
  unfold Table.addIndex
  split
  · simp [NoPanic]
  · split
    · simp [NoPanic]
    · split
      · simp [NoPanic]
      · exact (h.indexKeys _).map

variable {name : String}

theorem addIndex_spec {column : String} (h : t.addIndex name column = .ok t') :
    t'.tree = t.tree ∧ t'.info = t.info ∧ t'.autoInc = t.autoInc ∧
      ∃ d, t'.secondaryIndexes = t.secondaryIndexes ++ [d] := by
  unfold Table.addIndex at h
  split at h
  · cases h
  · next colIdx _ =>
    split at h
    · cases h
    · split at h
      · cases h
      · cases hk : t.indexKeys colIdx with
        | error e =>
          rw [hk] at h
          cases h
        | ok keys =>
          rw [hk] at h
          cases h
          exact ⟨rfl, rfl, rfl, { name := name, column := column }, by simp [secondaryIndexes]⟩

theorem Sound.addIndex {column : String} (h : t.Sound) (hadd : t.addIndex name column = .ok t') :
    t'.Sound := by
  obtain ⟨htree, hinfo, -, d, hidx⟩ := addIndex_spec hadd
  refine { keys := by rw [htree]; exact h.keys, covered := ?_ }
  rw [hinfo]
  intro fk hfk
  have hold := h.covered fk hfk
  rw [covers, Bool.or_eq_true] at hold ⊢
  rw [schema, hinfo, hidx, List.any_append]
  rcases hold with hold | hold
  · exact Or.inl hold
  · exact Or.inr (by rw [hold, Bool.true_or])

/-- The last index of a foreign key is not dropped. -/
theorem Sound.dropIndex (h : t.Sound) (hcheck : t.fkCheckDropIndex name = true)
    (hdrop : t.dropIndex name = .ok t') : t'.Sound := by
  unfold Table.dropIndex at hdrop
  split at hdrop
  · cases hdrop
  · next pos hpos =>
    cases hdrop
    obtain ⟨hlt, hname, hfirst⟩ := List.findIdx?_eq_some_iff_getElem.mp hpos
    -- Every index with another definition stays.
    have hstays : ∀ i ∈ t.indexes, i.info ≠ t.indexes[pos].info →
        i.info ∈ (t.indexes.eraseIdx pos).map SecondaryIndex.info := by
      intro i hi hne
      obtain ⟨j, hj⟩ := List.mem_iff_getElem?.mp hi
      refine List.mem_map_of_mem (List.mem_eraseIdx_iff_getElem?.mpr ⟨j, ?_, hj⟩)
      rintro rfl
      rw [List.getElem?_eq_getElem hlt] at hj
      exact hne (by rw [Option.some.inj hj])
    have hfind : t.secondaryIndexes.find? (fun d => d.name = name) = some t.indexes[pos].info := by
      have hthis : t.indexes.find? ((fun d => decide (d.name = name)) ∘ SecondaryIndex.info) =
          some t.indexes[pos] :=
        List.find?_eq_some_iff_getElem.mpr
          ⟨hname, pos, hlt, rfl, fun j hj => by simpa using hfirst j hj⟩
      rw [secondaryIndexes, List.find?_map, hthis]
      rfl
    rw [fkCheckDropIndex, hfind] at hcheck
    refine { keys := h.keys, covered := fun fk hfk => ?_ }
    have hold := h.covered fk hfk
    rw [covers, Bool.or_eq_true] at hold ⊢
    rcases hold with hold | hold
    · exact Or.inl hold
    · refine Or.inr (List.any_eq_true.mpr ?_)
      obtain ⟨d, hd, hcol⟩ := List.any_eq_true.mp hold
      obtain ⟨i, hi, rfl⟩ := List.mem_map.mp hd
      have hok := List.all_eq_true.mp hcheck fk hfk
      rw [Bool.or_eq_true] at hok
      rcases hok with hother | hother
      · refine ⟨i.info, hstays i hi fun heq => ?_, hcol⟩
        simp only [decide_eq_true_eq] at hcol hother
        exact hother (by rw [← hcol, heq])
      · obtain ⟨d', hd', hne⟩ := List.any_eq_true.mp hother
        obtain ⟨i', hi', rfl⟩ := List.mem_map.mp hd'
        rw [Bool.and_eq_true] at hne
        refine ⟨i'.info, hstays i' hi' fun heq => ?_, hne.2⟩
        simp only [decide_eq_true_eq] at hname hne
        exact hne.1 (by rw [heq]; exact hname)

end Table

namespace Catalog

variable {c c' : Catalog} {r : Record} {rs : List Record}

theorem sound_empty : empty.Sound := by
  intro name t ht
  simp [empty] at ht

variable {t : Table} {f : Table → Except Fault Table}

theorem Sound.insert {tables : ExtTreeMap String Table} {databases : ExtTreeSet String}
    {name : String} (h : c.Sound) (ht : t.Sound)
    (htables : ∀ name' : String, tables[name']? = if name = name' then some t else c.tables[name']?) :
    Sound { databases := databases, tables := tables } := by
  intro name' t' ht'
  have hlookup : tables[name']? = some t' := ht'
  rw [htables] at hlookup
  split at hlookup
  · rw [← Option.some.inj hlookup]
    exact ht
  · exact h name' t' hlookup

theorem Sound.onTable {name : String} (h : c.Sound)
    (hf : ∀ t, c.tables[name]? = some t → ∃ t', f t = .ok t' ∧ t'.Sound) :
    ∃ c', c.onTable name f = .ok c' ∧ c'.Sound := by
  unfold Catalog.onTable
  split
  · exact ⟨c, rfl, h⟩
  · next t ht =>
    obtain ⟨t', hft, ht'⟩ := hf t ht
    rw [hft]
    refine ⟨_, rfl, h.insert ht' fun name' => (?_ : _ = if name = name' then _ else _)⟩
    rw [ExtTreeMap.getElem?_insert]
    simp

/-- What the engine logs is redone without a fault. -/
theorem Sound.applyRecord (h : c.Sound) (hadmits : c.admitsRecord r = true) :
    ∃ c', c.applyRecord r = .ok c' ∧ c'.Sound := by
  cases r with
  | put txn table key row =>
    exact h.onTable fun t ht => (h table t ht).applyRaw hadmits row
  | delete txn table key => exact h.onTable fun t ht => (h table t ht).removeRaw hadmits
  | commit txn ts => exact ⟨c, rfl, h⟩
  | createTable txn x =>
    refine ⟨_, rfl, ?_⟩
    split
    · exact h
    · have hnew : (Table.new x).Sound → Sound { c with tables := c.tables.insert x.name (Table.new x) } :=
        fun ht => h.insert ht fun name' =>
          show (c.tables.insert x.name (Table.new x))[name']? =
              if x.name = name' then some (Table.new x) else c.tables[name']? by
            rw [ExtTreeMap.getElem?_insert]
            simp
      exact hnew
        { keys := by simp [Table.new]
          covered := fun fk hfk => List.all_eq_true.mp hadmits fk hfk }
  | dropTable txn name =>
    refine ⟨_, rfl, fun name' t ht => ?_⟩
    rw [ExtTreeMap.getElem?_erase] at ht
    split at ht
    · cases ht
    · exact h name' t ht
  | createIndex txn table name column =>
    refine h.onTable fun t ht => ?_
    have hpanic := (h table t ht).addIndex_noPanic name column
    cases hadd : t.addIndex name column with
    | ok t' => exact ⟨t', rfl, (h table t ht).addIndex hadd⟩
    | error e =>
      cases e with
      | err e => exact ⟨t, rfl, h table t ht⟩
      | panic => exact absurd hadd hpanic
  | dropIndex txn table name =>
    refine h.onTable fun t ht => ?_
    have hcheck : t.fkCheckDropIndex name = true := by
      simpa [admitsRecord, ht] using hadmits
    cases hdrop : t.dropIndex name with
    | ok t' => exact ⟨t', rfl, (h table t ht).dropIndex hcheck hdrop⟩
    | error e => exact ⟨t, rfl, h table t ht⟩
  | createDatabase txn name => exact ⟨_, rfl, h⟩
  | dropDatabase txn name =>
    refine ⟨_, rfl, fun name' t ht => ?_⟩
    rw [ExtTreeMap.getElem?_filter'] at ht
    exact h name' t (Option.filter_eq_some_iff.mp ht).1

theorem Sound.applyRecords (h : c.Sound) (hadmits : c.admits rs = true) :
    ∃ c', c.applyRecords rs = .ok c' ∧ c'.Sound := by
  induction rs generalizing c with
  | nil => exact ⟨c, rfl, h⟩
  | cons r rs ih =>
    rw [admits, Bool.and_eq_true] at hadmits
    obtain ⟨c₁, hc₁, h₁⟩ := h.applyRecord hadmits.1
    have hrest := hadmits.2
    rw [hc₁] at hrest
    obtain ⟨c₂, hc₂, h₂⟩ := ih h₁ hrest
    refine ⟨c₂, ?_, h₂⟩
    rw [Catalog.applyRecords, List.foldlM_cons, hc₁]
    exact hc₂

/-! ## The end of `Database::open` -/

/-- The catalog without its counters. -/
def contents (t : Table) : TableDef × ExtTreeMap Bytes Bytes × List SecondaryIndex :=
  (t.info, t.tree, t.indexes)

theorem mapTables_ok (hf : ∀ (name : String) t, c.tables[name]? = some t → ∃ t', f t = .ok t') :
    ∃ c', c.mapTables f = .ok c' ∧ c'.databases = c.databases ∧
      ∀ name : String, c'.tables[name]? = (c.tables[name]?).bind fun t => (f t).toOption := by
  have hall : ∀ e ∈ c.tables.toList, ∃ t', f e.2 = .ok t' := fun ⟨name, t⟩ he =>
    hf name t (ExtTreeMap.mem_toList_iff_getElem?_eq_some.mp he)
  obtain ⟨ts, hts⟩ := Outcome.exists_mapM_ok.mpr hall
  refine ⟨{ c with tables := c.tables.filterMap fun _ t => (f t).toOption }, ?_, rfl, fun name => ?_⟩
  · rw [mapTables]
    show (c.tables.toList.mapM fun e => f e.2) >>= _ = _
    rw [hts]
    rfl
  · rw [ExtTreeMap.getElem?_filterMap']

theorem maxKey_ok {key : Bytes} (h : NoPanic (decodeKey key)) (m : Option Nat) :
    ∃ m', Table.maxKey m key = .ok m' := by
  cases hdecode : decodeKey key with
  | error f =>
    cases f with
    | err e => exact ⟨m, by simp only [Table.maxKey, hdecode]⟩
    | panic => exact absurd hdecode h
  | ok d =>
    cases d with
    | int v =>
      by_cases hv : 0 ≤ v.toInt
      · exact ⟨some (m.elim v.toInt.toNat (Nat.max v.toInt.toNat)), by
          simp only [Table.maxKey, hdecode, if_pos hv]⟩
      · exact ⟨m, by simp only [Table.maxKey, hdecode, if_neg hv]⟩
    | _ => exact ⟨m, by simp only [Table.maxKey, hdecode]⟩

/-- The counter of a sound table is rebuilt. -/
theorem refreshAutoInc_ok (h : t.Sound) :
    ∃ t', t.refreshAutoInc = .ok t' ∧ contents t' = contents t := by
  unfold Table.refreshAutoInc
  split
  · exact ⟨t, rfl, rfl⟩
  · next st _ =>
    have hmax : ∀ (l : List (Bytes × Bytes)) (m : Option Nat), (∀ e ∈ l, KeyOk e.1) →
        ∃ m', l.foldlM (fun m e => Table.maxKey m e.1) m = .ok m' := by
      intro l
      induction l with
      | nil => exact fun m _ => ⟨m, rfl⟩
      | cons e l ih =>
        intro m hkeys
        obtain ⟨m', hm'⟩ := maxKey_ok (noPanic_decodeKey (hkeys e List.mem_cons_self)) m
        obtain ⟨m'', hm''⟩ := ih m' fun e he => hkeys e (by simp [he])
        refine ⟨m'', ?_⟩
        rw [List.foldlM_cons]
        show Table.maxKey m e.1 >>= _ = _
        rw [hm']
        exact hm''
    obtain ⟨m, hm⟩ := hmax t.tree.toList none fun e he =>
      h.keys e.1 e.2 (ExtTreeMap.mem_toList_iff_getElem?_eq_some.mp he)
    rw [hm]
    exact ⟨_, rfl, rfl⟩

theorem fkEnsureAutoIndexes_ok (h : ∀ fk ∈ t.info.foreignKeys, t.covers fk = true) :
    t.fkEnsureAutoIndexes = .ok t := by
  unfold Table.fkEnsureAutoIndexes
  generalize t.info.foreignKeys = fks at h
  induction fks with
  | nil => rfl
  | cons fk fks ih =>
    rw [List.foldlM_cons, Table.ensureIndex, if_pos (h fk (by simp))]
    exact ih fun fk hfk => h fk (by simp [hfk])

/-- `Database::open` succeeds on a log whose redo is sound, and changes nothing
but the counters. -/
theorem openDb_ok {file : Bytes} (hfile : file ≠ []) (hrec : recovered file = .ok c)
    (h : c.Sound) :
    ∃ c', openDb file = .ok c' ∧ c'.databases = c.databases ∧
      ∀ name : String, (c'.tables[name]?).map contents = (c.tables[name]?).map contents := by
  obtain ⟨c₁, hc₁, hdb₁, htab₁⟩ := mapTables_ok (f := Table.refreshAutoInc) fun name t ht =>
    (refreshAutoInc_ok (h name t ht)).imp fun _ ht' => ht'.1
  -- A table after the counters are rebuilt.
  have hback : ∀ (name : String) t₁, c₁.tables[name]? = some t₁ →
      ∃ t, c.tables[name]? = some t ∧ t.refreshAutoInc = .ok t₁ := by
    intro name t₁ ht₁
    rw [htab₁, Option.bind_eq_some_iff] at ht₁
    obtain ⟨t, ht, hopt⟩ := ht₁
    obtain ⟨t', ht', -⟩ := refreshAutoInc_ok (h name t ht)
    rw [ht'] at hopt
    exact ⟨t, ht, by rw [ht', Option.some.inj hopt]⟩
  have hcovered : ∀ (name : String) t₁, c₁.tables[name]? = some t₁ →
      t₁.fkEnsureAutoIndexes = .ok t₁ := by
    intro name t₁ ht₁
    obtain ⟨t, ht, href⟩ := hback name t₁ ht₁
    obtain ⟨t', ht', hcon⟩ := refreshAutoInc_ok (h name t ht)
    obtain rfl : t' = t₁ := Except.ok.inj (ht'.symm.trans href)
    simp only [contents, Prod.mk.injEq] at hcon
    refine fkEnsureAutoIndexes_ok fun fk hfk => ?_
    rw [Table.covers_congr hcon.1 (by rw [Table.secondaryIndexes, Table.secondaryIndexes, hcon.2.2])]
    rw [hcon.1] at hfk
    exact (h name t ht).covered fk hfk
  obtain ⟨c₂, hc₂, hdb₂, htab₂⟩ := mapTables_ok (f := Table.fkEnsureAutoIndexes)
    fun name t₁ ht₁ => ⟨t₁, hcovered name t₁ ht₁⟩
  refine ⟨c₂, ?_, hdb₂.trans hdb₁, fun name => ?_⟩
  · have hne : file.isEmpty = false := by simpa using hfile
    rw [openDb, hne]
    show recovered file >>= _ = _
    rw [hrec]
    show c.mapTables Table.refreshAutoInc >>= _ = _
    rw [hc₁]
    exact hc₂
  · rw [htab₂]
    rcases Option.eq_none_or_eq_some c.tables[name]? with hnone | ⟨t, ht⟩
    · simp [htab₁, hnone]
    · obtain ⟨t', ht', hcon⟩ := refreshAutoInc_ok (h name t ht)
      have ht₁ : c₁.tables[name]? = some t' := by
        rw [htab₁, ht, Option.bind_some, ht']
        rfl
      rw [ht₁, ht, Option.bind_some, hcovered name t' ht₁]
      exact congrArg some hcon

end Catalog

end HenchDB
