import HenchDB.Ddl.Engine

/-!
# Rows and the table that accepted them

A write set is keyed by names.  A commit looks the names up again and installs
into whatever they denote then, and it appends without looking once more.  So a
row reaches the table whose schema accepted it as long as, when the commit
looks its name up, the name denotes that table or nothing, and the table is not
dropped between the look-up and the append.
-/

namespace HenchDB.Ddl

open Std (ExtTreeMap ExtTreeSet)

namespace Engine

variable {s s' : Engine} {c : Catalog} {r : Nat}

/-- Installed rows went into the table that accepted them, and whatever was
logged was logged while its names denoted those tables. -/
structure ReachesOrigin (s : Engine) : Prop where
  installs : ∀ i ∈ s.installs, i.target = i.origin
  commits : ∀ l ∈ s.commits, ∀ (k : TKey) (w : StagedWrite), l.staged[k]? = some w →
      l.catalog[k.1]? = some w.origin

def LookedUp (s : Engine) (n : String) : Prop :=
  ∃ r txn staged tables, (s.sessions r).doing = .resolving txn staged tables ∧ tables.contains n = true

/-- A step in which a name that is looked up denotes nothing or the table that
accepted the rows, and no table is dropped that a commit has looked up and not
yet appended to. -/
def SteadyStep (s s' : Engine) : Prop :=
  ∃ a, s.step a = some s' ∧
    (∀ r name txn staged tables, a = .lookup r name →
      (s.sessions r).doing = .resolving txn staged tables → ∀ id, s.tables[name]? = some id →
        ∀ (key : Bytes) (w : StagedWrite), staged[(name, key)]? = some w → w.origin = id) ∧
    (∀ r key table staged, a = .commitSingleUpdate r →
      (s.sessions r).doing = .running key table staged → s.tables[key]? = some table ∧
        ∀ (k : TKey) (w : StagedWrite), staged[k]? = some w → w.origin = table) ∧
    (∀ r key, a = .dropTable r key → ¬ s.LookedUp key) ∧
    ∀ r name, a = .dropTables r → (s.sessions r).doing = .dropping name →
      ∀ n, Catalog.inDatabase name n = true → ¬ s.LookedUp n

/-- What a commit has looked up is still there, and accepted the rows. -/
def ResolvedOk (catalog : ExtTreeMap String Nat) : Doing → Prop
  | .resolving _ staged tables => ∀ (n : String) (id : Nat), tables[n]? = some id →
      catalog[n]? = some id ∧ ∀ (key : Bytes) (w : StagedWrite), staged[(n, key)]? = some w → w.origin = id
  | _ => True

/-- Every reachable state. -/
structure OriginInv (s : Engine) : Prop extends ReachesOrigin s where
  resolved : ∀ r, ResolvedOk s.tables (s.sessions r).doing
  queue : ∀ f ∈ s.queue, ∀ i ∈ f.todo, i.target = i.origin

theorem OriginInv.setSession (h : OriginInv s) (r : Nat) {session : Session}
    (hdoing : ResolvedOk s.tables session.doing) : OriginInv (s.setSession r session) where
  installs := h.installs
  commits := h.commits
  resolved := by
    intro r'
    by_cases hr : r' = r
    · subst hr
      simpa [Engine.setSession] using hdoing
    · simpa [Engine.setSession, hr] using h.resolved r'
  queue := h.queue

theorem OriginInv.setDoing (h : OriginInv s) (r : Nat) {doing : Doing}
    (hdoing : ResolvedOk s.tables doing) : OriginInv (s.setDoing r doing) :=
  h.setSession r hdoing

/-- A change of the catalog that keeps what commits have looked up. -/
theorem OriginInv.setCatalog {databases : ExtTreeSet String} {tables : ExtTreeMap String Nat}
    {heap : Nat → Table} {fresh : Nat} (h : OriginInv s)
    (hkeeps : ∀ (n : String) (id : Nat), s.LookedUp n → s.tables[n]? = some id → tables[n]? = some id) :
    OriginInv { s with databases := databases, tables := tables, heap := heap, fresh := fresh } where
  installs := h.installs
  commits := h.commits
  resolved := by
    intro r
    have hresolved := h.resolved r
    dsimp only
    cases hdoing : (s.sessions r).doing with
    | resolving txn staged looked =>
      rw [hdoing] at hresolved
      intro n id hn
      obtain ⟨hcurrent, horigin⟩ := hresolved n id hn
      have hlooked : s.LookedUp n := by
        refine ⟨r, txn, staged, looked, hdoing, ?_⟩
        rw [ExtTreeMap.contains_eq_isSome_getElem?, hn]
        rfl
      exact ⟨hkeeps n id hlooked hcurrent, horigin⟩
    | _ => trivial
  queue := h.queue

theorem OriginInv.changed (h : OriginInv s) (r : Nat) (rec : Nat → Record) :
    OriginInv (s.changed r rec) := by
  have hdone : OriginInv (s.setDoing r (.logging (rec s.nextTxn))) := h.setDoing r trivial
  exact ⟨⟨hdone.installs, hdone.commits⟩, hdone.resolved, hdone.queue⟩

theorem OriginInv.lookup {name : String} (h : OriginInv s) (hs : s.lookup r name = some s')
    (hsteady : ∀ txn staged tables, (s.sessions r).doing = .resolving txn staged tables →
      ∀ id, s.tables[name]? = some id →
          ∀ (key : Bytes) (w : StagedWrite), staged[(name, key)]? = some w → w.origin = id) :
    OriginInv s' := by
  unfold Engine.lookup at hs
  split at hs
  · next txn staged tables hdoing =>
    have hresolved := h.resolved r
    rw [hdoing] at hresolved
    split at hs
    · cases hs
    · split at hs
      · cases hs
        exact h.setDoing r trivial
      · next id hid =>
        cases hs
        refine h.setDoing r fun n id' hn => ?_
        rw [ExtTreeMap.getElem?_insert] at hn
        split at hn
        · next heq =>
          cases Std.compare_eq_iff_eq.mp heq
          cases hn
          exact ⟨hid, hsteady txn staged tables hdoing id hid⟩
        · exact hresolved n id' hn
  · cases hs

theorem OriginInv.append {ts : Nat} (h : OriginInv s) (hs : s.append r ts = some s') :
    OriginInv s' := by
  unfold Engine.append at hs
  split at hs
  · next txn staged tables hdoing =>
    have hresolved := h.resolved r
    rw [hdoing] at hresolved
    split at hs
    · cases hs
    · next hall =>
      split at hs
      · cases hs
        exact h.setDoing r trivial
      · split at hs
        · cases hs
          exact h.setDoing r trivial
        · have hbusy : OriginInv (s.setDoing r .busy) := h.setDoing r trivial
          -- Every staged name is looked up.
          have horigin : ∀ (k : TKey) (w : StagedWrite), staged[k]? = some w →
              tables[k.1]? = some w.origin ∧ s.tables[k.1]? = some w.origin := by
            intro k w hw
            have hmem : k ∈ staged.keys := by
              rw [ExtTreeMap.mem_keys, ExtTreeMap.mem_iff_contains,
                ExtTreeMap.contains_eq_isSome_getElem?, hw]
              rfl
            have hcontains : tables.contains k.1 = true := by
              rw [Bool.not_eq_true, Bool.not_eq_false'] at hall
              exact List.all_eq_true.mp hall k hmem
            rw [ExtTreeMap.contains_eq_isSome_getElem?] at hcontains
            obtain ⟨id, hid⟩ := Option.isSome_iff_exists.mp hcontains
            obtain ⟨hcurrent, horigin⟩ := hresolved k.1 id hid
            rw [horigin k.2 w hw]
            exact ⟨hid, hcurrent⟩
          cases hs
          refine ⟨⟨h.installs, fun l hl => ?_⟩, hbusy.resolved, fun f hf => ?_⟩
          · rcases List.mem_append.mp hl with hl | hl
            · exact h.commits l hl
            · rw [List.mem_singleton.mp hl]
              exact fun k w hw => (horigin k w hw).2
          · rcases List.mem_append.mp hf with hf | hf
            · exact h.queue f hf
            · rw [List.mem_singleton.mp hf]
              intro i hi
              obtain ⟨⟨k, w⟩, hmem, rfl⟩ := List.mem_map.mp hi
              have hw := (horigin k w (ExtTreeMap.mem_toList_iff_getElem?_eq_some.mp hmem)).1
              simp [hw]
  · cases hs

theorem OriginInv.sync (h : OriginInv s) (n : Nat) : OriginInv (s.sync n) := by
  refine ⟨⟨h.installs, h.commits⟩, h.resolved, fun f hf => ?_⟩
  rcases List.mem_append.mp hf with hf | hf
  · obtain ⟨g, hg, rfl⟩ := List.mem_map.mp hf
    exact h.queue g (List.mem_of_mem_take hg)
  · exact h.queue f (List.mem_of_mem_drop hf)

theorem OriginInv.apply (h : OriginInv s) (hs : s.apply = some s') : OriginInv s' := by
  unfold Engine.apply at hs
  split at hs
  · cases hs
  · next f rest hqueue =>
    have hall := h.queue
    rw [hqueue] at hall
    split at hs
    · next i todo _ htodo =>
      split at hs
      · cases hs
        refine ⟨⟨fun j hj => ?_, h.commits⟩, h.resolved, fun g hg j hj => ?_⟩
        · rcases List.mem_append.mp hj with hj | hj
          · exact h.installs j hj
          · rw [List.mem_singleton.mp hj]
            exact hall f (by simp) i (by simp [htodo])
        · rcases List.mem_cons.mp hg with rfl | hg
          · exact hall f (by simp) j (by simp [htodo, show j ∈ todo from hj])
          · exact hall g (by simp [hg]) j hj
      · cases hs
    · cases hs

theorem OriginInv.finish (h : OriginInv s) (hs : s.finish = some s') : OriginInv s' := by
  unfold Engine.finish at hs
  split at hs
  · cases hs
  · next f rest hqueue =>
    have hall := h.queue
    rw [hqueue] at hall
    split at hs
    · have hidle : OriginInv (s.setDoing f.session .idle) := h.setDoing f.session trivial
      cases hs
      exact ⟨⟨h.installs, h.commits⟩, hidle.resolved, fun g hg => hall g (by simp [hg])⟩
    · cases hs

/-- A commit that has looked nothing up yet. -/
theorem resolvedOk_start {catalog : ExtTreeMap String Nat} {txn : Nat} {staged : Staged} :
    ResolvedOk catalog (if staged.isEmpty then .idle else .resolving txn staged ∅) := by
  split
  · trivial
  · intro n id hn
    simp at hn

theorem OriginInv.statement {a : Action} (h : OriginInv s) (hs : s.step a = some s')
    (ha : ∃ r, a = .begin r ∨ a = .rollback r ∨ a = .commit r ∨ (∃ db name, a = .openTable r db name) ∨
      a = .resolve r ∨ (∃ pk given isInsert, a = .write r pk given isInsert) ∨
      (∃ child pk given, a = .writeChild r child pk given) ∨
      (∃ autocommit, a = .commitStagedOrStage r autocommit) ∨ a = .fail r) : OriginInv s' := by
  obtain ⟨r, ha⟩ := ha
  rcases ha with rfl | rfl | rfl | ⟨db, name, rfl⟩ | rfl | ⟨pk, given, isInsert, rfl⟩ |
    ⟨child, pk, given, rfl⟩ | ⟨autocommit, rfl⟩ | rfl
  · simp only [step, Engine.begin] at hs
    split at hs
    · have hnext : OriginInv
          (s.setSession r { txn := some { id := s.nextTxn, staged := ∅ }, doing := .idle }) :=
        h.setSession r trivial
      cases hs
      exact ⟨⟨hnext.installs, hnext.commits⟩, hnext.resolved, hnext.queue⟩
    · cases hs
  · simp only [step, Engine.rollback] at hs
    split at hs
    · cases hs
      exact h.setSession r trivial
    · cases hs
  · simp only [step, Engine.commit] at hs
    split at hs
    · cases hs
      exact h.setSession r resolvedOk_start
    · cases hs
  · simp only [step, Engine.openTable] at hs
    split at hs
    · cases hs
      exact h.setDoing r trivial
    · cases hs
  · simp only [step, Engine.resolve] at hs
    split at hs
    · cases hs
      exact h.setDoing r trivial
    · cases hs
  · simp only [step, Engine.write] at hs
    split at hs
    · obtain ⟨k, -, hs⟩ := Option.bind_eq_some_iff.mp hs
      obtain ⟨row, -, hs⟩ := Option.bind_eq_some_iff.mp hs
      cases hs
      exact h.setDoing r trivial
    · cases hs
  · simp only [step, Engine.writeChild] at hs
    split at hs
    · obtain ⟨id, -, hs⟩ := Option.bind_eq_some_iff.mp hs
      obtain ⟨k, -, hs⟩ := Option.bind_eq_some_iff.mp hs
      obtain ⟨row, -, hs⟩ := Option.bind_eq_some_iff.mp hs
      cases hs
      exact h.setDoing r trivial
    · cases hs
  · simp only [step, Engine.commitStagedOrStage] at hs
    split at hs
    · cases hs
      exact h.setSession r trivial
    · have hnext : OriginInv { s with nextTxn := s.nextTxn + 1 } :=
        ⟨⟨h.installs, h.commits⟩, h.resolved, h.queue⟩
      cases hs
      split
      · exact hnext.setSession r resolvedOk_start
      · exact hnext.setSession r trivial
    · cases hs
  · simp only [step, Engine.fail] at hs
    split at hs
    · cases hs
      exact h.setDoing r trivial
    · cases hs
      exact h.setDoing r trivial
    · cases hs
      exact h.setDoing r trivial
    · cases hs

theorem OriginInv.commitSingleUpdate (h : OriginInv s) (hs : s.commitSingleUpdate r = some s')
    (hsteady : ∀ key table staged, (s.sessions r).doing = .running key table staged →
      s.tables[key]? = some table ∧ ∀ (k : TKey) (w : StagedWrite), staged[k]? = some w → w.origin = table) :
    OriginInv s' := by
  unfold Engine.commitSingleUpdate at hs
  split at hs
  · next key table staged hsession =>
    obtain ⟨hcurrent, horigin⟩ := hsteady key table staged (by rw [hsession])
    split at hs
    · have hresolved : ResolvedOk s.tables
          (.resolving s.nextTxn staged ((∅ : ExtTreeMap String Nat).insert key table)) := by
        intro n id hn
        rw [ExtTreeMap.getElem?_insert] at hn
        split at hn
        · next heq =>
          cases Std.compare_eq_iff_eq.mp heq
          cases hn
          exact ⟨hcurrent, fun k w => horigin (key, k) w⟩
        · simp at hn
      have hnext := h.setDoing r hresolved
      cases hs
      exact ⟨⟨hnext.installs, hnext.commits⟩, hnext.resolved, hnext.queue⟩
    · cases hs
  · cases hs

theorem OriginInv.changes {a : Action} (h : OriginInv s) (hs : s.step a = some s')
    (ha : a.changes = some r) (hdrop : ∀ r key, a = .dropTable r key → ¬ s.LookedUp key)
    (hdropAll : ∀ r name, a = .dropTables r → (s.sessions r).doing = .dropping name →
      ∀ n, Catalog.inDatabase name n = true → ¬ s.LookedUp n) : OriginInv s' := by
  obtain ⟨databases, heap, tables, fresh, rec, rfl, htables⟩ := changes_spec hs ha
  refine OriginInv.changed (h.setCatalog fun n id hlooked hn => ?_) r rec
  rcases htables n id hn with hkept | rfl | ⟨db, rfl, hdoing, hin⟩
  · exact hkept
  · exact absurd hlooked (hdrop r n rfl)
  · exact absurd hlooked (hdropAll r db rfl hdoing n hin)

theorem OriginInv.dropDatabase {name : String} (h : OriginInv s)
    (hs : s.dropDatabase r name = some s') : OriginInv s' := by
  unfold Engine.dropDatabase at hs
  split at hs
  · split at hs
    · have hnext : OriginInv { s with databases := s.databases.erase name } :=
        ⟨⟨h.installs, h.commits⟩, h.resolved, h.queue⟩
      cases hs
      exact hnext.setDoing r trivial
    · cases hs
  · cases hs

theorem OriginInv.walCommit {ts : Nat} (h : OriginInv s) (hs : s.walCommit r ts = some s') :
    OriginInv s' := by
  unfold Engine.walCommit at hs
  split at hs
  · have hbusy : OriginInv (s.setDoing r .busy) := h.setDoing r trivial
    cases hs
    refine ⟨⟨h.installs, h.commits⟩, hbusy.resolved, fun f hf => ?_⟩
    rcases List.mem_append.mp hf with hf | hf
    · exact h.queue f hf
    · rw [List.mem_singleton.mp hf]
      simp
  · cases hs

theorem OriginInv.step (h : OriginInv s) (hs : SteadyStep s s') : OriginInv s' := by
  obtain ⟨a, hstep, hlookup, hsingle, hdrop, hdropAll⟩ := hs
  cases a with
  | begin r => exact h.statement hstep ⟨r, by simp⟩
  | rollback r => exact h.statement hstep ⟨r, by simp⟩
  | commit r => exact h.statement hstep ⟨r, by simp⟩
  | openTable r db name => exact h.statement hstep ⟨r, by simp⟩
  | resolve r => exact h.statement hstep ⟨r, by simp⟩
  | write r pk given isInsert => exact h.statement hstep ⟨r, by simp⟩
  | writeChild r child pk given => exact h.statement hstep ⟨r, by simp⟩
  | commitStagedOrStage r autocommit => exact h.statement hstep ⟨r, by simp⟩
  | commitSingleUpdate r =>
    exact h.commitSingleUpdate hstep fun key table staged => hsingle r key table staged rfl
  | fail r => exact h.statement hstep ⟨r, by simp⟩
  | lookup r name => exact h.lookup hstep fun txn staged tables => hlookup r name txn staged tables rfl
  | append r ts => exact h.append hstep
  | sync n =>
    cases hstep
    exact h.sync n
  | apply => exact h.apply hstep
  | finish => exact h.finish hstep
  | createTable r name schema fks => exact h.changes hstep rfl hdrop hdropAll
  | dropTable r key => exact h.changes hstep rfl hdrop hdropAll
  | createIndex r name column => exact h.changes hstep rfl hdrop hdropAll
  | dropIndex r name => exact h.changes hstep rfl hdrop hdropAll
  | createDatabase r name => exact h.changes hstep rfl hdrop hdropAll
  | dropDatabase r name => exact h.dropDatabase hstep
  | dropTables r => exact h.changes hstep rfl hdrop hdropAll
  | walCommit r ts => exact h.walCommit hstep

theorem Opened.originInv (h : Opened c s) : OriginInv s where
  installs := by simp [h.installs]
  commits := by simp [h.commits]
  resolved := by
    intro r
    rw [h.sessions r]
    trivial
  queue := by simp [h.queue]

/-- In every run whose look-ups find the table that accepted the rows or none,
and whose drops spare what commits have looked up, every row reaches the table
that accepted it. -/
theorem steady_commits_reach_origin {s₀ : Engine} (hopened : Opened c s₀)
    (h : Relation.ReflTransGen SteadyStep s₀ s) : ReachesOrigin s :=
  (Transition.invariant (P := OriginInv) hopened.originInv (fun _ _ hi hs => hi.step hs)
    h).toReachesOrigin

/-! ## Examples of runs -/

/-- A table of an integer key and one more column. -/
def twoColumns (ctype : ColumnType) : Schema where
  columns :=
    [{ name := "id", ctype := .int, nullable := false, autoIncrement := false, defaultValue := none },
      { name := "v", ctype := ctype, nullable := true, autoIncrement := false, defaultValue := none }]
  pkIdx := 0

/-- An empty database with the table `default.t`. -/
def oneTable : Engine where
  databases := (∅ : ExtTreeSet String).insert "default"
  tables := (∅ : ExtTreeMap String Nat).insert "default.t" 0
  heap := fun _ => Table.new
    { name := "default.t", schema := twoColumns .int, indexes := [], foreignKeys := [], stats := none }
  fresh := 1
  nextTxn := 1
  sessions := fun _ => { txn := none, doing := .idle }
  inFlight := ∅
  queue := []
  log := []
  unlogged := []
  commits := []
  installs := []

def oneCatalog : Catalog where
  databases := oneTable.databases
  tables := (∅ : ExtTreeMap String Table).insert "default.t" (oneTable.heap 0)

theorem oneTable_opened : Opened oneCatalog oneTable where
  databases := rfl
  tables := by
    intro n
    rw [oneTable, oneCatalog, ExtTreeMap.getElem?_insert, ExtTreeMap.getElem?_insert]
    split
    · rfl
    · simp
  named := by
    intro n id hn
    rw [oneTable, ExtTreeMap.getElem?_insert] at hn
    split at hn
    · next heq =>
      cases Std.compare_eq_iff_eq.mp heq
      rfl
    · simp at hn
  unused := by
    intro n id hn
    rw [oneTable, ExtTreeMap.getElem?_insert] at hn
    split at hn
    · cases hn
      exact Nat.one_pos
    · simp at hn
  sessions := fun _ => rfl
  queue := rfl
  log := rfl
  unlogged := rfl
  commits := rfl
  installs := rfl

/-- `INSERT INTO t VALUES (1, 1)` in a transaction of session 0. -/
def stageRow : List Action :=
  [.begin 0, .openTable 0 "default" "t", .resolve 0, .write 0 (.int 1) (some [.int 1, .int 1]) true,
    .commitStagedOrStage 0 true]

/-- `COMMIT` of session 0. -/
def commitRow : List Action := [.commit 0, .lookup 0 "default.t", .append 0 0, .sync 1, .apply, .finish]

/-- A step that is not a drop, whose look-up finds the table that accepted the
rows or none. -/
def steadyStep (a : Action) (s : Engine) : Option Engine :=
  match a with
  | .lookup r name =>
    match (s.sessions r).doing with
    | .resolving _ staged _ =>
      if staged.toList.all fun (k, w) => k.1 ≠ name || s.tables[name]?.all (w.origin = ·) then
        s.lookup r name
      else none
    | _ => none
  | .commitSingleUpdate _ | .dropTable _ _ | .dropTables _ => none
  | a => s.step a

theorem steadyStep_spec (a : Action) (s s' : Engine) (h : steadyStep a s = some s') : SteadyStep s s' := by
  unfold steadyStep at h
  split at h
  · next r name =>
    split at h
    · next txn staged tables hdoing =>
      split at h
      · next hall =>
        refine ⟨.lookup r name, h, ?_, by simp, by simp, by simp⟩
        rintro r' name' txn' staged' tables' ⟨⟩ hdoing' id hid key w hw
        rw [hdoing] at hdoing'
        cases hdoing'
        have hrow := List.all_eq_true.mp hall _ (ExtTreeMap.mem_toList_iff_getElem?_eq_some.mpr hw)
        simpa [hid] using hrow
      · cases h
    · cases h
  · cases h
  · cases h
  · cases h
  · next hlookup hsingle hdrop hdropAll =>
    exact ⟨a, h, fun r name _ _ _ ha => absurd ha (hlookup r name),
      fun r _ _ _ ha => absurd ha (hsingle r), fun r key ha => absurd ha (hdrop r key),
      fun r _ ha => absurd ha (hdropAll r)⟩

/-- Another table is created between the statement and the `COMMIT`. -/
def besideCreate : List Action :=
  stageRow ++ [.createTable 1 "default.u" (twoColumns .text) [], .walCommit 1 0, .sync 1, .finish] ++
    commitRow

theorem besideCreate_runs :
    (Transition.exec steadyStep (fun _ => true) besideCreate oneTable).map
      (fun s => (s.commits.length, s.installs.map fun i => (i.target, i.origin))) = some (1, [(0, 0)]) := by
  decide +kernel

theorem steady_commits_reach_origin_besideCreate :
    ∃ s : Engine, Relation.ReflTransGen SteadyStep oneTable s ∧ s.commits.length = 1 ∧
      (s.installs.map fun i => (i.target, i.origin)) = [(0, 0)] ∧ ReachesOrigin s := by
  obtain ⟨s, hexec, hends⟩ := Option.map_eq_some_iff.mp besideCreate_runs
  have hrun := Transition.exec_runs steadyStep_spec hexec
  exact ⟨s, hrun, congrArg Prod.fst hends, congrArg Prod.snd hends,
    steady_commits_reach_origin oneTable_opened hrun⟩

/-- The table is dropped and created with another schema between the statement
and the `COMMIT`. -/
def replaced : List Action :=
  stageRow ++ [.dropTable 1 "default.t", .walCommit 1 0, .sync 1, .finish,
    .createTable 1 "default.t" (twoColumns .text) [], .walCommit 1 0, .sync 1, .finish] ++ commitRow

theorem replaced_runs :
    (Transition.exec (fun a s => s.step a) (fun _ => true) replaced oneTable).map
      (fun s => (s.commits.length, s.installs.map fun i => (i.target, i.origin))) = some (1, [(1, 0)]) := by
  decide +kernel

/-- The row that the old table accepted goes into the new one. -/
theorem commit_reaches_replaced_table :
    ¬ ∀ (c : Catalog) (s₀ s : Engine), Opened c s₀ → Relation.ReflTransGen Steps s₀ s →
      ReachesOrigin s := by
  intro horigin
  obtain ⟨s, hexec, hends⟩ := Option.map_eq_some_iff.mp replaced_runs
  have hrun : Relation.ReflTransGen Steps oneTable s :=
    Transition.exec_runs (fun a _ _ ha => ⟨a, ha⟩) hexec
  have hinstalls := (horigin _ _ s oneTable_opened hrun).installs
  have hmoved : (1, 0) ∈ s.installs.map fun i => (i.target, i.origin) := by
    rw [(Prod.mk.inj hends).2]
    simp
  obtain ⟨i, hi, heq⟩ := List.mem_map.mp hmoved
  have htarget := hinstalls i hi
  rw [(Prod.mk.inj heq).1, (Prod.mk.inj heq).2] at htarget
  cases htarget

end Engine

end HenchDB.Ddl
