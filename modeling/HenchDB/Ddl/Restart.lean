import HenchDB.Ddl.Consistency
import HenchDB.Lib.Entries

/-!
# The catalog across restarts

A restart finds in the snapshot and the log the catalog of the last statement, or
an older one when torn bytes hide what was appended behind them.  Either was
consistent, so the catalog is consistent again, and the restart succeeds.
-/

namespace HenchDB

open Std (ExtTreeSet)

/-! ## What a restart does to the tables -/

namespace Table.Same

variable {t t' t'' : Table}

theorem symm (h : t.Same t') : t'.Same t := ⟨h.tableDef.symm, h.tree.symm, h.indexes.symm⟩

theorem trans (h : t.Same t') (h' : t'.Same t'') : t.Same t'' :=
  ⟨h.tableDef.trans h'.tableDef, h.tree.trans h'.tree, h.indexes.trans h'.indexes⟩

end Table.Same

namespace Catalog

variable {c rc : Catalog}

theorem Mirror.refl (c : Catalog) : Mirror c c where
  databases _ h := h
  tables n := by
    cases c.tables[n]? with
    | none => exact .none
    | some t => exact .some (Table.Same.refl t)

theorem Mirror.symm (h : Mirror c rc) (hdbs : ∀ db, db ∈ rc.databases → db ∈ c.databases) :
    Mirror rc c where
  databases := hdbs
  tables n := by
    cases hn : rc.tables[n]? with
    | none =>
      rw [(h.none_iff n).mpr hn]
      exact .none
    | some t' =>
      obtain ⟨t, ht, hsame⟩ := h.of_some hn
      rw [ht]
      exact .some hsame.symm

theorem Mirror.trans {c' : Catalog} (h : Mirror c rc) (h' : Mirror rc c') : Mirror c c' where
  databases db hdb := h'.databases db (h.databases db hdb)
  tables n := by
    cases hn : c.tables[n]? with
    | none =>
      rw [(h'.none_iff n).mp ((h.none_iff n).mp hn)]
      exact .none
    | some t =>
      obtain ⟨t', ht', hsame⟩ := h.some_of_some hn
      obtain ⟨t'', ht'', hsame'⟩ := h'.some_of_some ht'
      rw [ht'']
      exact .some (hsame.trans hsame')

theorem mapTables_same {f : Table → Except Fault Table}
    (hf : ∀ (name : String) t, c.tables[name]? = some t → ∃ t', f t = .ok t' ∧ t.Same t') :
    ∃ c', c.mapTables f = .ok c' ∧ c'.databases = c.databases ∧
      ∀ n : String, Option.Rel Table.Same c.tables[n]? c'.tables[n]? := by
  obtain ⟨c', hc', hdbs, htables⟩ := mapTables_ok fun name t ht => (hf name t ht).imp fun _ h => h.1
  refine ⟨c', hc', hdbs, fun n => ?_⟩
  rw [htables]
  rcases Option.eq_none_or_eq_some c.tables[n]? with hnone | ⟨t, ht⟩
  · rw [hnone]
    exact .none
  · obtain ⟨t', ht', hsame⟩ := hf n t ht
    rw [ht, Option.bind_some, ht']
    exact .some hsame

/-- A snapshot gives back the catalog that it was taken of. -/
theorem load_some (h : c.Kept) : ∃ c', load (some c) = .ok c' ∧ Mirror c c' := by
  obtain ⟨c', hc', -, htables⟩ := mapTables_same (c := c) (f := Table.restored) fun name t ht => by
    have hkept := h.tables name t ht
    refine ⟨Table.new t.tableDef, ?_, hkept.same_new⟩
    rw [Table.restored, hkept.empty]
    rfl
  refine ⟨{ c' with
    databases := c.databaseParts.foldl (fun dbs db => dbs.insert db) (c.databases.insert "default") },
    ?_, fun db hdb => ?_, htables⟩
  · rw [load, hc']
    rfl
  · exact (Entries.mem_foldl_insert _ _ _).mpr (.inr (ExtTreeSet.mem_insert.mpr (.inr hdb)))

theorem refreshAutoInc_same {t : Table} (h : t.tree = ∅) :
    ∃ t', t.refreshAutoInc = .ok t' ∧ t.Same t' := by
  unfold Table.refreshAutoInc
  split
  · exact ⟨t, rfl, Table.Same.refl t⟩
  · rw [h]
    exact ⟨_, rfl, rfl, h, rfl⟩

/-- The last steps of `open` leave the tables the same. -/
theorem settled (h : rc.Kept) : ∃ c',
    (rc.mapTables Table.refreshAutoInc >>= fun c => c.mapTables Table.fkEnsureAutoIndexes) = .ok c' ∧
      Mirror rc c' ∧ Mirror c' rc := by
  obtain ⟨c₁, hc₁, hdbs₁, htables₁⟩ := mapTables_same (c := rc) (f := Table.refreshAutoInc)
    fun name t ht => refreshAutoInc_same (h.tables name t ht).empty
  have hkept₁ : c₁.Kept := h.mirror ⟨fun db hdb => hdbs₁ ▸ hdb, htables₁⟩
  obtain ⟨c₂, hc₂, hdbs₂, htables₂⟩ := mapTables_same (c := c₁) (f := Table.fkEnsureAutoIndexes)
    fun name t ht => ⟨t, fkEnsureAutoIndexes_ok (hkept₁.tables name t ht).covered, Table.Same.refl t⟩
  have hm₁ : Mirror rc c₁ := ⟨fun db hdb => hdbs₁ ▸ hdb, htables₁⟩
  have hm₂ : Mirror c₁ c₂ := ⟨fun db hdb => hdbs₂ ▸ hdb, htables₂⟩
  have hm := hm₁.trans hm₂
  refine ⟨c₂, ?_, hm, hm.symm fun db hdb => ?_⟩
  · rw [hc₁]
    exact hc₂
  · rwa [hdbs₂, hdbs₁] at hdb

end Catalog

/-! ## Runs -/

namespace DdlServer

open Catalog (load reopen Mirror)

variable {s s' : DdlServer} {rc rc' : Catalog} {logs : Nat → Record} {stmt : DdlStatement} {r : Nat}

def Reads (s : DdlServer) (rc : Catalog) : Prop :=
  ∃ c₀, load s.snapshot = .ok c₀ ∧ c₀.applyRecords (redo s.log).applied.flatten = .ok rc

/-- The files hold a kept catalog, and the one that is there unless torn bytes
hide it. -/
structure Files (s : DdlServer) (c : Catalog) : Prop where
  pending : s.torn = false → (redo s.log).pending = ∅
  reads : ∃ rc, s.Reads rc ∧ rc.Kept ∧ (s.torn = false → Mirror c rc)

/-- The catalog is kept, and the files hold it. -/
structure Inv (s : DdlServer) : Prop where
  kept : s.catalog.Kept
  files : s.Files s.catalog

theorem inv_start : start.Inv where
  kept := Catalog.kept_empty
  files :=
    { pending := fun _ => rfl
      reads := ⟨Catalog.empty, ⟨_, rfl, rfl⟩, Catalog.kept_empty, fun _ => .refl _⟩ }

theorem Files.congr (h : s.Files rc) (hsnap : s'.snapshot = s.snapshot) (hlog : s'.log = s.log)
    (htorn : s'.torn = s.torn) : s'.Files rc := by
  obtain ⟨hpending, rc', ⟨c₀, hload, hreads⟩, hkept, hm⟩ := h
  refine ⟨fun ht => ?_, rc', ⟨c₀, ?_, ?_⟩, hkept, fun ht => hm (htorn ▸ ht)⟩
  · rw [hlog]
    exact hpending (htorn ▸ ht)
  · rw [hsnap]
    exact hload
  · rw [hlog]
    exact hreads

/-! ### Appends -/

variable {txn : Nat} {c : Catalog}

/-- The record and the `Commit` record of a statement are redone. -/
theorem applied_batch (hrec : (logs txn).txnOf = txn ∧ (logs txn).isCommit = false)
    {rs : List Record} (hpending : (redo rs).pending = ∅) :
    (redo (rs ++ batch logs txn)).applied = (redo rs).applied ++ [[logs txn]] ∧
      (redo (rs ++ batch logs txn)).pending = ∅ := by
  have hnone : (redo rs).pending[txn]? = none := by simp [hpending]
  have hall : ∀ q ∈ [logs txn], q.txnOf = txn ∧ q.isCommit = false := by
    intro q hq
    rw [List.mem_singleton.mp hq]
    exact hrec
  rw [redo_append]
  exact ⟨Redo.run_txn hnone (by simp) hall,
    (Redo.pending_run_txn hnone (by simp) hall).trans hpending⟩

@[simp]
theorem catalog_append (rs : List Record) : (s.append rs).catalog = s.catalog := by
  unfold DdlServer.append
  split <;> rfl

/-- What a statement appends is found by a restart. -/
theorem Files.append {c' : Catalog} (h : s.Files c) (hc' : c'.Kept)
    (hredo : Catalog.Redoes c c' logs) : (s.append (batch logs txn)).Files c' := by
  obtain ⟨hpending, rc, ⟨c₀, hload, hreads⟩, hkept, hm⟩ := h
  unfold DdlServer.append
  split
  · next htorn =>
    refine ⟨fun ht => ?_, rc, ⟨c₀, hload, hreads⟩, hkept, fun ht => ?_⟩ <;>
      · rw [htorn] at ht
        cases ht
  · next htorn =>
    rw [Bool.not_eq_true] at htorn
    obtain ⟨happlied, hempty⟩ := applied_batch (hredo.record txn) (hpending htorn)
    obtain ⟨rc', hrc', hm'⟩ := hredo.redo txn rc (hm htorn)
    refine ⟨fun _ => hempty, rc', ⟨c₀, hload, ?_⟩, hc'.mirror hm', fun _ => hm'⟩
    dsimp only
    rw [happlied, List.flatten_append, Catalog.applyRecords_append, hreads]
    show rc.applyRecords [logs txn] = _
    rw [Catalog.applyRecords, List.foldlM_cons, hrc']
    rfl

/-- A record that is left without its `Commit` record is not redone, and torn bytes
keep it so. -/
theorem Files.orphan (h : s.Files c) (hrec : (logs txn).txnOf = txn ∧ (logs txn).isCommit = false) :
    DdlServer.Files { s with log := s.log ++ [logs txn], torn := true } c := by
  obtain ⟨hpending, rc, ⟨c₀, hload, hreads⟩, hkept, hm⟩ := h
  refine ⟨fun ht => (nomatch ht), rc, ⟨c₀, hload, ?_⟩, hkept, fun ht => (nomatch ht)⟩
  have happlied : (redo (s.log ++ [logs txn])).applied = (redo s.log).applied := by
    rw [redo_append]
    have hall : ∀ q ∈ [logs txn], q.txnOf = txn ∧ q.isCommit = false := by
      intro q hq
      rw [List.mem_singleton.mp hq]
      exact hrec
    exact (Redo.run_records hall).1
  dsimp only
  rw [happlied]
  exact hreads

/-! ### Restarts -/

/-- A restart succeeds and finds a kept catalog. -/
theorem Files.restart (h : s.Files c) : ∃ s', s.restart = some s' ∧ s'.Inv := by
  obtain ⟨hpending, rc, ⟨c₀, hload, hreads⟩, hkept, hm⟩ := h
  obtain ⟨c', hc', hto, hfrom⟩ := Catalog.settled hkept
  have hopen : reopen s.snapshot s.log = .ok c' := by
    rw [reopen, hload]
    show (c₀.applyRecords _ >>= _) = _
    rw [hreads]
    exact hc'
  refine ⟨{ s with catalog := c', sessions := fun _ => defaultDb, nextTxn := 1 }, ?_,
    hkept.mirror hto, hpending, rc, ⟨c₀, hload, hreads⟩, hkept, fun _ => hfrom⟩
  rw [DdlServer.restart, hopen]

/-- More torn bytes only hide more. -/
theorem Files.tear (h : s.Files c) (torn : Bool) :
    DdlServer.Files { s with torn := s.torn || torn } c := by
  obtain ⟨hpending, rc, hreads, hkept, hm⟩ := h
  have hback : (s.torn || torn) = false → s.torn = false := fun ht => (Bool.or_eq_false_iff.mp ht).1
  exact ⟨fun ht => hpending (hback ht), rc, hreads, hkept, fun ht => hm (hback ht)⟩

/-! ### Events -/

/-- A statement that creates a table does it right, and a crash leaves no record
without its `Commit` record that could still be read. -/
def Clean (s : DdlServer) : DdlEvent → Prop
  | .execute r stmt => s.catalog.Clean (s.sessions r) stmt
  | .crash r stmt kept torn => s.torn = false →
      (kept = 1 → torn = true) ∧ (2 ≤ kept → s.catalog.Clean (s.sessions r) stmt)
  | _ => True

theorem clean_of_error {db : Ident} {e : Fault} (h : c.exec db stmt = .error e) :
    c.Clean db stmt := by
  cases stmt with
  | createTable name columns foreignKeys ifNotExists =>
    rintro ⟨hfree, t, ht⟩
    simp [Catalog.exec, Catalog.createTable, hfree, ht] at h
  | _ => trivial

theorem Inv.execute (h : s.Inv) (hclean : s.catalog.Clean (s.sessions r) stmt) :
    (s.execute r stmt).Inv := by
  unfold DdlServer.execute
  split
  · exact h
  · next d hd =>
    obtain ⟨hkept, hnone, hsome⟩ := Catalog.exec_kept h.kept hd hclean
    dsimp only
    split
    · next hlogs =>
      refine ⟨hkept, ?_⟩
      have hsame : d.catalog = s.catalog := hnone hlogs
      exact hsame ▸ h.files.congr rfl rfl rfl
    · next logs hlogs =>
      have hfiles : DdlServer.Files
          { s with catalog := d.catalog, sessions := Function.update s.sessions r d.db } s.catalog :=
        h.files.congr rfl rfl rfl
      have hredoes : s.catalog.Redoes d.catalog logs := hsome logs hlogs
      have happend : DdlServer.Files (DdlServer.append _ (batch logs s.nextTxn)) d.catalog :=
        hfiles.append hkept hredoes
      constructor
      · show (DdlServer.append _ _).catalog.Kept
        rw [catalog_append]
        exact hkept
      · show DdlServer.Files _ (DdlServer.append _ _).catalog
        rw [catalog_append]
        exact happend.congr rfl rfl rfl

/-- A crash that keeps the whole records, none, or one that torn bytes follow. -/
theorem Inv.crash {kept : Nat} {torn : Bool} (h : s.Inv) (hs : s.crash r stmt kept torn = some s')
    (hclean : s.Clean (.crash r stmt kept torn)) : s'.Inv := by
  -- the restart finds the files as they are left
  have hrestart : ∀ {s₁ : DdlServer} {c : Catalog}, s₁.Files c → s₁.restart = some s' → s'.Inv := by
    intro s₁ c hfiles hs
    obtain ⟨s₂, hs₂, hinv⟩ := hfiles.restart
    rw [hs] at hs₂
    cases hs₂
    exact hinv
  unfold DdlServer.crash at hs
  split at hs
  · next logs message hd =>
    dsimp only at hs
    cases htorn : s.torn with
    | true =>
      have happend : ∀ rs, s.append rs = s := fun rs => by rw [DdlServer.append, if_pos htorn]
      rw [happend] at hs
      exact hrestart (h.files.tear torn) hs
    | false =>
      obtain ⟨horphan, hwhole⟩ := hclean htorn
      cases kept with
      | zero =>
        have hfiles : DdlServer.Files (s.append []) s.catalog := by
          refine h.files.congr ?_ ?_ ?_ <;> simp [DdlServer.append]
        exact hrestart (hfiles.tear torn) hs
      | succ n =>
        cases n with
        | zero =>
          rw [horphan rfl] at hs
          have hfiles := h.files.orphan (Catalog.exec_record hd rfl s.nextTxn)
          refine hrestart (hfiles.congr ?_ ?_ ?_) hs <;> simp [DdlServer.append, htorn, batch]
        | succ n =>
          have hlen : (batch logs s.nextTxn).take (n + 1 + 1) = batch logs s.nextTxn := by
            simp [batch]
          obtain ⟨hkept, -, hredo⟩ := Catalog.exec_kept h.kept hd (hwhole (by omega))
          rw [hlen] at hs
          exact hrestart ((h.files.append hkept (hredo logs rfl)).tear torn) hs
  · cases hs

theorem Inv.step {e : DdlEvent} (h : s.Inv) (hs : s.step e = some s') (hclean : s.Clean e) : s'.Inv := by
  cases e with
  | connect r =>
    cases hs
    exact ⟨h.kept, h.files.congr rfl rfl rfl⟩
  | execute r stmt =>
    cases hs
    exact h.execute hclean
  | checkpoint =>
    cases hs
    obtain ⟨c', hload, hm⟩ := Catalog.load_some h.kept
    exact ⟨h.kept, fun _ => rfl, c', ⟨c', hload, rfl⟩, h.kept.mirror hm, fun _ => hm⟩
  | restart =>
    obtain ⟨s₁, hs₁, hinv⟩ := h.files.restart
    rw [DdlServer.step, hs₁] at hs
    cases hs
    exact hinv
  | crash r stmt kept torn => exact h.crash hs hclean

def Step (s s' : DdlServer) : Prop := ∃ e, s.step e = some s'

def CleanStep (s s' : DdlServer) : Prop := ∃ e, s.step e = some s' ∧ s.Clean e

theorem inv_of_clean (h : Relation.ReflTransGen CleanStep start s) : s.Inv :=
  Transition.invariant inv_start
    (by rintro a b hinv ⟨e, hstep, hclean⟩; exact hinv.step hstep hclean) h

/-- A statement leaves the catalog consistent if and only if it is clean. -/
theorem Inv.consistent_iff (h : s.Inv) :
    (s.execute r stmt).catalog.Consistent ↔ s.catalog.Clean (s.sessions r) stmt := by
  unfold DdlServer.execute
  split
  · next e he => exact iff_of_true h.kept.consistent (clean_of_error he)
  · next d hd =>
    rw [← Catalog.exec_consistent_iff h.kept hd]
    dsimp only
    split
    · rfl
    · rw [catalog_append]

/-- As long as all events are clean the catalog is consistent; a restart then
succeeds and finds it consistent, and a statement keeps it so only when it is clean. -/
theorem catalog_consistent (h : Relation.ReflTransGen CleanStep start s) :
    s.catalog.Consistent ∧ (∃ s', s.step .restart = some s' ∧ s'.catalog.Consistent) ∧
      ∀ r stmt, (s.execute r stmt).catalog.Consistent ↔ s.catalog.Clean (s.sessions r) stmt := by
  have hinv := inv_of_clean h
  obtain ⟨s', hs', hinv'⟩ := hinv.files.restart
  exact ⟨hinv.kept.consistent, ⟨s', hs', hinv'.kept.consistent⟩, fun _ _ => hinv.consistent_iff⟩

/-- `CREATE TABLE t` with a key column `id` and more columns. -/
def createT (more : List ColumnSpec) : DdlStatement :=
  .createTable ⟨"t", by decide⟩
    ({ name := "id", ctype := "INT", notNull := true, primaryKey := true
       autoIncrement := false, defaultValue := none } :: more) [] false

/-- A table in the database where a session starts. -/
theorem catalog_consistent_create : (start.execute 0 (createT [])).catalog.Consistent := by
  refine (catalog_consistent (.single ⟨.execute 0 (createT []), rfl, fun _ => ⟨?_, by decide⟩⟩)).1
  exact ExtTreeSet.mem_insert_self

/-- Two columns of one name. -/
theorem catalog_inconsistent : ¬∀ s, Relation.ReflTransGen Step start s → s.catalog.Consistent := by
  intro hall
  let twice : DdlStatement := createT [
    { name := "id", ctype := "TEXT", notNull := false, primaryKey := false
      autoIncrement := false, defaultValue := none }]
  have hclean := inv_start.consistent_iff.mp
    (hall (start.execute 0 twice) (.single ⟨.execute 0 twice, rfl⟩))
  have hdistinct := (hclean ⟨rfl, _, rfl⟩).2
  exact absurd hdistinct (by decide)

end DdlServer

end HenchDB
