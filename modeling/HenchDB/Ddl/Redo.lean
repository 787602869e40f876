import HenchDB.Ddl.Engine
import HenchDB.Ddl.Effect
import HenchDB.Wal.Recovery

/-!
# Redo beside catalog changes

Redo applies the records in the order of the log.  A DDL statement changes the
catalog before it appends its record, and a commit installs its rows after, so
what is there is the log followed by the records that are not yet appended, in
the order of their changes, once everything in flight is installed
(`Redo`).

Appending keeps this as long as a record does not overtake one that it cannot
change places with: of the DDL records about the same table or database, the
one whose change came first is appended first, and rows are appended while no
DDL record about their table is missing from the log other than a drop.  A
commit must also still install into the table that its records will be redone
on.
-/

namespace HenchDB.Ddl

open Std (ExtTreeMap ExtTreeSet)

/-! ## What the sessions hold -/

/-- The keys of a write set do not make `decode_key` panic. -/
def KeysOk (staged : Staged) : Prop :=
  ∀ (k : TKey) (w : StagedWrite), staged[k]? = some w → KeyOk k.2

/-- The session has changed nothing that others see. -/
def Doing.plain : Doing → Bool
  | .dropping _ | .logging _ | .busy => false
  | _ => true

/-- Every object held is in use, every key staged was encoded. -/
def DoingOk (fresh : Nat) : Doing → Prop
  | .held _ _ id => id < fresh
  | .running _ id staged => id < fresh ∧ KeysOk staged
  | .resolving _ staged tables => KeysOk staged ∧ ∀ (n : String) (id : Nat), tables[n]? = some id → id < fresh
  | _ => True

structure SessionOk (fresh : Nat) (session : Session) : Prop where
  txn : ∀ t, session.txn = some t → KeysOk t.staged
  doing : DoingOk fresh session.doing

theorem SessionOk.doing_of {m : Nat} {session : Session} {d : Doing} (h : SessionOk m session)
    (hd : session.doing = d) : DoingOk m d := hd ▸ h.doing

theorem keysOk_empty : KeysOk ∅ := by
  intro k w hw
  simp at hw

variable {staged : Staged}

theorem KeysOk.insert (h : KeysOk staged) {k : TKey} (hk : KeyOk k.2) (w : StagedWrite) :
    KeysOk (staged.insert k w) := by
  intro k' w' hw'
  rw [ExtTreeMap.getElem?_insert] at hw'
  split at hw'
  · next heq =>
    cases Std.compare_eq_iff_eq.mp heq
    exact hk
  · exact h k' w' hw'

theorem KeysOk.extend {more : Staged} (h : KeysOk staged) (hmore : KeysOk more) :
    KeysOk (staged.extend more) := by
  intro k w hw
  rw [Staged.extend, Overlay.getElem?_overlay, ExtTreeMap.getElem?_map] at hw
  rcases Option.eq_none_or_eq_some more[k]? with hnone | ⟨w', hw'⟩
  · rw [hnone] at hw
    exact h k w hw
  · exact hmore k w' hw'

theorem keyOk_of_attempt {pk : Datum} {k : Bytes} (h : attempt (encodeKey pk) = some k) : KeyOk k := by
  cases hkey : encodeKey pk with
  | error e =>
    rw [hkey] at h
    cases h
  | ok k' =>
    rw [hkey] at h
    cases h
    exact keyOk_encodeKey hkey

theorem DoingOk.mono {fresh fresh' : Nat} (hle : fresh ≤ fresh') {doing : Doing} (h : DoingOk fresh doing) :
    DoingOk fresh' doing := by
  cases doing with
  | held db name id => exact Nat.lt_of_lt_of_le h hle
  | running key id staged => exact ⟨Nat.lt_of_lt_of_le h.1 hle, h.2⟩
  | resolving txn staged tables => exact ⟨h.1, fun n id hn => Nat.lt_of_lt_of_le (h.2 n id hn) hle⟩
  | _ => trivial

theorem doingOk_start {fresh txn : Nat} (h : KeysOk staged) :
    DoingOk fresh (if staged.isEmpty then .idle else .resolving txn staged ∅) := by
  split
  · trivial
  · refine ⟨h, fun n id hn => ?_⟩
    simp at hn

theorem plain_start {txn : Nat} :
    (if staged.isEmpty then Doing.idle else .resolving txn staged ∅).plain = true := by
  split <;> rfl

/-- The session that a step of a statement moves. -/
def Action.statement : Action → Option Nat
  | .begin r | .rollback r | .commit r | .openTable r _ _ | .resolve r | .write r _ _ _ |
    .writeChild r _ _ _ | .commitStagedOrStage r _ | .commitSingleUpdate r | .fail r | .lookup r _ => some r
  | _ => none

namespace Engine

variable {s s' : Engine} {c₀ : Catalog} {r : Nat}

/-- The session moves on, from and to a state in which it owes nothing; whatever else there is
stays. -/
def Moves (r : Nat) (s s' : Engine) : Prop :=
  ∃ session m, s' = { s.setSession r session with nextTxn := m } ∧
    (s.sessions r).doing.plain = true ∧ session.doing.plain = true ∧
    ((∀ (n : String) id, s.tables[n]? = some id → id < s.fresh) → SessionOk s.fresh (s.sessions r) →
      SessionOk s.fresh session)

theorem commitStagedOrStage_moves {autocommit : Bool} (hs : s.commitStagedOrStage r autocommit = some s') :
    Moves r s s' := by
  simp only [Engine.commitStagedOrStage] at hs
  split at hs
  · next t key table staged hsession =>
    cases hs
    refine ⟨_, s.nextTxn, rfl, by rw [hsession]; rfl, rfl, fun _ hok => ⟨?_, trivial⟩⟩
    have hrunning := hok.doing_of (congrArg Session.doing hsession)
    have hkeys := hok.txn t (by rw [hsession])
    rintro t' ⟨⟩
    exact hkeys.extend hrunning.2
  · next key table staged hsession =>
    have hstaged : SessionOk s.fresh (s.sessions r) → KeysOk staged := fun hok =>
      (hok.doing_of (congrArg Session.doing hsession)).2
    cases hs
    split
    · exact ⟨_, _, rfl, by rw [hsession]; rfl, plain_start,
        fun _ hok => ⟨by simp, doingOk_start (hstaged hok)⟩⟩
    · refine ⟨_, _, rfl, by rw [hsession]; rfl, rfl, fun _ hok => ⟨?_, trivial⟩⟩
      rintro t' ⟨⟩
      exact hstaged hok
  · cases hs

theorem commitSingleUpdate_moves (hs : s.commitSingleUpdate r = some s') : Moves r s s' := by
  simp only [Engine.commitSingleUpdate] at hs
  split at hs
  · next key table staged hsession =>
    split at hs
    · cases hs
      refine ⟨_, _, rfl, by rw [hsession]; rfl, rfl, fun _ hok => ⟨hok.txn, ?_⟩⟩
      have hrunning := hok.doing_of (congrArg Session.doing hsession)
      refine ⟨hrunning.2, fun n id hn => ?_⟩
      rw [ExtTreeMap.getElem?_insert] at hn
      split at hn
      · cases hn
        exact hrunning.1
      · simp at hn
    · cases hs
  · cases hs

theorem lookup_moves {name : String} (hs : s.lookup r name = some s') : Moves r s s' := by
  simp only [Engine.lookup] at hs
  split at hs
  · next txn staged tables hdoing =>
    split at hs
    · cases hs
    · split at hs
      · cases hs
        exact ⟨_, s.nextTxn, rfl, by rw [hdoing]; rfl, rfl, fun _ hok => ⟨hok.txn, trivial⟩⟩
      · next id hid =>
        cases hs
        refine ⟨_, s.nextTxn, rfl, by rw [hdoing]; rfl, rfl, fun hused hok => ⟨hok.txn, ?_⟩⟩
        have hresolving := hok.doing_of hdoing
        refine ⟨hresolving.1, fun n id' hn => ?_⟩
        rw [ExtTreeMap.getElem?_insert] at hn
        split at hn
        · cases hn
          exact hused name id hid
        · exact hresolving.2 n id' hn
  · cases hs

/-- A statement moves its session and nothing else. -/
theorem statement_spec {a : Action} (hs : s.step a = some s') (ha : a.statement = some r) :
    Moves r s s' := by
  cases a with
  | begin r' =>
    cases ha
    simp only [step, Engine.begin] at hs
    split at hs
    · next hsession =>
      cases hs
      refine ⟨_, _, rfl, by rw [hsession]; rfl, rfl, fun _ _ => ⟨?_, trivial⟩⟩
      rintro t ⟨⟩
      exact keysOk_empty
    · cases hs
  | rollback r' =>
    cases ha
    simp only [step, Engine.rollback] at hs
    split at hs
    · next hsession =>
      cases hs
      exact ⟨_, s.nextTxn, rfl, by rw [hsession]; rfl, rfl, fun _ _ => ⟨by simp, trivial⟩⟩
    · cases hs
  | commit r' =>
    cases ha
    simp only [step, Engine.commit] at hs
    split at hs
    · next t hsession =>
      cases hs
      refine ⟨_, s.nextTxn, rfl, by rw [hsession]; rfl, plain_start, fun _ hok => ⟨by simp, ?_⟩⟩
      exact doingOk_start (hok.txn t (by rw [hsession]))
    · cases hs
  | openTable r' db name =>
    cases ha
    simp only [step, Engine.openTable] at hs
    split at hs
    · next table hdoing htable =>
      cases hs
      exact ⟨_, s.nextTxn, rfl, by rw [hdoing]; rfl, rfl, fun hused hok => ⟨hok.txn, hused _ _ htable⟩⟩
    · cases hs
  | resolve r' =>
    cases ha
    simp only [step, Engine.resolve] at hs
    split at hs
    · next db name table hdoing =>
      cases hs
      exact ⟨_, s.nextTxn, rfl, by rw [hdoing]; rfl, rfl,
        fun _ hok => ⟨hok.txn, hok.doing_of hdoing, keysOk_empty⟩⟩
    · cases hs
  | write r' pk given isInsert =>
    cases ha
    simp only [step, Engine.write] at hs
    split at hs
    · next key table staged hdoing =>
      obtain ⟨k, hk, hs⟩ := Option.bind_eq_some_iff.mp hs
      obtain ⟨row, -, hs⟩ := Option.bind_eq_some_iff.mp hs
      cases hs
      refine ⟨_, s.nextTxn, rfl, by rw [hdoing]; rfl, rfl, fun _ hok => ⟨hok.txn, ?_⟩⟩
      have hrunning := hok.doing_of hdoing
      exact ⟨hrunning.1, hrunning.2.insert (keyOk_of_attempt hk) _⟩
    · cases hs
  | writeChild r' child pk given =>
    cases ha
    simp only [step, Engine.writeChild] at hs
    split at hs
    · next key table staged hdoing =>
      obtain ⟨id, -, hs⟩ := Option.bind_eq_some_iff.mp hs
      obtain ⟨k, hk, hs⟩ := Option.bind_eq_some_iff.mp hs
      obtain ⟨row, -, hs⟩ := Option.bind_eq_some_iff.mp hs
      cases hs
      refine ⟨_, s.nextTxn, rfl, by rw [hdoing]; rfl, rfl, fun _ hok => ⟨hok.txn, ?_⟩⟩
      have hrunning := hok.doing_of hdoing
      exact ⟨hrunning.1, hrunning.2.insert (keyOk_of_attempt hk) _⟩
    · cases hs
  | commitStagedOrStage r' autocommit =>
    cases ha
    exact commitStagedOrStage_moves hs
  | commitSingleUpdate r' =>
    cases ha
    exact commitSingleUpdate_moves hs
  | fail r' =>
    cases ha
    simp only [step, Engine.fail] at hs
    split at hs
    iterate 3
      · next hdoing =>
        cases hs
        exact ⟨_, s.nextTxn, rfl, by rw [hdoing]; rfl, rfl, fun _ hok => ⟨hok.txn, trivial⟩⟩
    · cases hs
  | lookup r' name =>
    cases ha
    exact lookup_moves hs
  | _ => cases ha

/-! ## Who waits for what -/

/-- Every reachable state, as far as the sessions and the objects go. -/
structure Orderly (s : Engine) : Prop where
  logging : ∀ r rec, (s.sessions r).doing = .logging rec ↔ (r, rec) ∈ s.unlogged
  once : (s.unlogged.map Prod.fst).Nodup
  busy : ∀ f ∈ s.queue, (s.sessions f.session).doing = .busy
  flights : (s.queue.map Flight.session).Nodup
  sessions : ∀ r, SessionOk s.fresh (s.sessions r)
  named : ∀ (n : String) id, s.tables[n]? = some id → (s.heap id).info.name = n
  used : ∀ (n : String) id, s.tables[n]? = some id → id < s.fresh
  targets : ∀ f ∈ s.queue, ∀ i ∈ f.todo, i.target < s.fresh ∧ KeyOk i.key.2

variable {id m : Nat} {session : Session} {doing : Doing} {rec : Nat → Record}
  {tables : ExtTreeMap String Nat} {bare : TableDef} {t t' : Table} {name column key : String}

/-- A name has its own object. -/
theorem Orderly.inj {n m : String} (h : s.Orderly) (hn : s.tables[n]? = some id)
    (hm : s.tables[m]? = some id) : n = m := by
  rw [← h.named n id hn, h.named m id hm]

theorem doing_setSession (r' : Nat) :
    ((s.setSession r session).sessions r').doing =
      if r' = r then session.doing else (s.sessions r').doing := by
  by_cases hr : r' = r
  · subst hr
    simp [Engine.setSession]
  · simp [Engine.setSession, hr]

/-- A session moves that is neither logging nor behind an append. -/
theorem Orderly.setSession (h : s.Orderly) (hlogging : ∀ rec, (s.sessions r).doing ≠ .logging rec)
    (hbusy : (s.sessions r).doing ≠ .busy) (hnew : ∀ rec, session.doing ≠ .logging rec)
    (hok : SessionOk s.fresh session) :
    { s.setSession r session with nextTxn := m }.Orderly where
  logging := by
    intro r' rec
    show ((s.setSession r session).sessions r').doing = _ ↔ (r', rec) ∈ s.unlogged
    rw [doing_setSession]
    split
    · next heq =>
      subst heq
      rw [← h.logging r' rec]
      exact iff_of_false (hnew rec) (hlogging rec)
    · exact h.logging r' rec
  once := h.once
  busy := by
    intro f hf
    show ((s.setSession r session).sessions f.session).doing = _
    rw [doing_setSession, if_neg]
    · exact h.busy f hf
    · intro heq
      have hf' := h.busy f hf
      rw [heq] at hf'
      exact hbusy hf'
  flights := h.flights
  sessions := by
    intro r'
    by_cases hr : r' = r
    · subst hr
      simpa [Engine.setSession] using hok
    · simpa [Engine.setSession, hr] using h.sessions r'
  named := h.named
  used := h.used
  targets := h.targets

/-- A session moves that has changed nothing and does not after. -/
theorem Orderly.move (h : s.Orderly) (hold : (s.sessions r).doing.plain = true)
    (hnew : session.doing.plain = true) (hok : SessionOk s.fresh session) :
    { s.setSession r session with nextTxn := m }.Orderly := by
  refine h.setSession (fun rec hbad => ?_) (fun hbad => ?_) (fun rec hbad => ?_) hok
  · rw [hbad] at hold
    cases hold
  · rw [hbad] at hold
    cases hold
  · rw [hbad] at hnew
    cases hnew

/-! ## Redo and the tables -/

def todo (s : Engine) : List Install := s.queue.flatMap Flight.todo

def settle (heap : Nat → Table) (todo : List Install) (id : Nat) : Except Fault Table :=
  (todo.filter fun i => i.target = id).foldlM (fun t i => Install.run i t) (heap id)

def Denotes (tables : ExtTreeMap String Nat) (heap : Nat → Table) (todo : List Install) (n : String)
    (x : Option Table) : Prop :=
  (tables[n]? = none → x = none) ∧
    ∀ id, tables[n]? = some id → ∃ t y, settle heap todo id = .ok t ∧ x = some y ∧ t.Same y

/-- The records of the log and those to be appended, in the order of their
changes. -/
def pendingLog (s : Engine) : List Record := s.log ++ s.unlogged.map Prod.snd

/-- Redo of all of them leaves what is there. -/
structure Redo (c₀ : Catalog) (s : Engine) : Prop where
  tables : ∀ n : String, ∃ x, s.pendingLog.foldlM (Record.effect n) c₀.tables[n]? = .ok x ∧
    Denotes s.tables s.heap s.todo n x
  databases : ∀ db : String, s.pendingLog.foldl (Record.dbEffect db) (c₀.databases.contains db) = true ↔
    s.databases.contains db = true ∨ ∃ r, (s.sessions r).doing = .dropping db

/-- The records are about different tables and different databases. -/
def Apart (q q' : Record) : Prop :=
  (∀ n, q.concerns n = false ∨ q'.concerns n = false) ∧
    ∀ db, q.concernsDb db = false ∨ q'.concernsDb db = false

/-- Nothing denotes the object any more. -/
def Gone (s : Engine) (key : String) (id : Nat) : Prop :=
  s.tables[key]? = none ∧ ∀ m : String, s.tables[m]? ≠ some id

/-- The records that a step appends, if it appends. -/
def appended (s : Engine) : Action → List Record
  | .append r ts =>
    match (s.sessions r).doing with
    | .resolving txn staged _ => records txn staged ts
    | _ => []
  | .walCommit r ts =>
    match (s.sessions r).doing with
    | .logging rec => [rec, .commit rec.txnOf (some ts)]
    | _ => []
  | _ => []

/-- A step that overtakes nothing it cannot change places with. -/
structure Quiet (s : Engine) (a : Action) : Prop where
  /-- Of two DDL records about the same, the earlier change is appended first. -/
  walCommit : ∀ r ts rec pre post, a = .walCommit r ts → s.unlogged = pre ++ (r, rec) :: post →
    ∀ q ∈ pre, Apart q.2 rec
  /-- Rows are appended while their names denote the tables they go to, or
  nothing, and only drops of them are missing from the log. -/
  append : ∀ r ts txn staged tables, a = .append r ts →
    (s.sessions r).doing = .resolving txn staged tables → ∀ (k : TKey) (w : StagedWrite) (id : Nat),
      staged[k]? = some w → tables[k.1]? = some id → (s.tables[k.1]? = some id ∨ s.Gone k.1 id) ∧
        ∀ q ∈ s.unlogged, q.2.concerns k.1 = true → q.2.isDrop = true
  createIndex : ∀ r name column key id staged, a = .createIndex r name column →
    (s.sessions r).doing = .running key id staged →
      (s.tables[key]? = some id ∧ ∀ i ∈ s.todo, i.target ≠ id) ∨ s.Gone key id
  dropIndex : ∀ r name key id staged, a = .dropIndex r name →
    (s.sessions r).doing = .running key id staged → s.tables[key]? = some id ∨ s.Gone key id
  createDatabase : ∀ r name, a = .createDatabase r name → ∀ r', (s.sessions r').doing ≠ .dropping name
  /-- What is appended is read back as it is. -/
  kept : ∀ rec ∈ s.appended a, Wal.RecordKept rec

def QuietStep (s s' : Engine) : Prop := ∃ a, s.step a = some s' ∧ Quiet s a

/-- Redo of `wal.log` over the catalog of the snapshot. -/
def redone (c₀ : Catalog) (s : Engine) : Except Fault Catalog := do
  let rs ← (Wal.readAll (Wal.header ++ Wal.frames s.log)).mapError Fault.err
  c₀.applyRecords (redo rs).applied.flatten

/-- When every statement has returned, redo of `wal.log` gives the databases and
tables that are there. -/
def RedoesLive (c₀ : Catalog) (s : Engine) : Prop :=
  s.queue = [] → (∀ r, (s.sessions r).doing = .idle) → ∃ c, redone c₀ s = .ok c ∧
    (∀ db : String, c.databases.contains db = s.databases.contains db) ∧
    ∀ n : String, (s.tables[n]? = none ↔ c.tables[n]? = none) ∧
      ∀ id t, s.tables[n]? = some id → c.tables[n]? = some t → (s.heap id).Same t

/-! ## Steps that change neither the catalog nor the log -/

theorem Redo.of_same (h : Redo c₀ s) (htables : s'.tables = s.tables) (hheap : s'.heap = s.heap)
    (htodo : s'.todo = s.todo) (hlog : s'.log = s.log) (hunlogged : s'.unlogged = s.unlogged)
    (hdatabases : s'.databases = s.databases)
    (hdropping : ∀ db, (∃ r, (s'.sessions r).doing = .dropping db) ↔
      ∃ r, (s.sessions r).doing = .dropping db) : Redo c₀ s' where
  tables := by
    rw [pendingLog, hlog, hunlogged, htables, hheap, htodo]
    exact h.tables
  databases := by
    intro db
    rw [pendingLog, hlog, hunlogged, hdatabases, hdropping db]
    exact h.databases db

/-- Who is dropping a database, when a session moves that is not. -/
theorem dropping_setSession {db : String} (hold : (s.sessions r).doing ≠ .dropping db)
    (hnew : session.doing ≠ .dropping db) :
    (∃ r', ((s.setSession r session).sessions r').doing = .dropping db) ↔
      ∃ r', (s.sessions r').doing = .dropping db := by
  constructor
  · rintro ⟨r', hr'⟩
    rw [doing_setSession] at hr'
    split at hr'
    · exact absurd hr' hnew
    · exact ⟨r', hr'⟩
  · rintro ⟨r', hr'⟩
    refine ⟨r', ?_⟩
    rw [doing_setSession, if_neg]
    · exact hr'
    · rintro rfl
      exact hold hr'

theorem plain_ne_dropping (h : doing.plain = true) (db : String) : doing ≠ .dropping db := by
  rintro rfl
  cases h

theorem Redo.move (h : Redo c₀ s) (hold : (s.sessions r).doing.plain = true)
    (hnew : session.doing.plain = true) :
    Redo c₀ { s.setSession r session with nextTxn := m } :=
  h.of_same rfl rfl rfl rfl rfl rfl fun db =>
    dropping_setSession (plain_ne_dropping hold db) (plain_ne_dropping hnew db)

/-! ## DDL -/

theorem pendingLog_changed {s₁ : Engine} (hlog : s₁.log = s.log)
    (hunlogged : s₁.unlogged = s.unlogged) :
    (s₁.changed r rec).pendingLog = s.pendingLog ++ [rec s₁.nextTxn] := by
  show s₁.log ++ (s₁.unlogged ++ [(r, rec s₁.nextTxn)]).map Prod.snd = _
  rw [hlog, hunlogged, List.map_append, ← List.append_assoc]
  rfl

theorem Redo.changed {s₁ : Engine} (h : Redo c₀ s) (hlog : s₁.log = s.log)
    (hunlogged : s₁.unlogged = s.unlogged)
    (htables : ∀ (n : String) x, Denotes s.tables s.heap s.todo n x →
      ∃ y, (rec s₁.nextTxn).effect n x = .ok y ∧ Denotes s₁.tables s₁.heap s₁.todo n y)
    (hdatabases : ∀ (db : String) (b : Bool), (b = true ↔ s.databases.contains db = true ∨
      ∃ r, (s.sessions r).doing = .dropping db) →
      ((rec s₁.nextTxn).dbEffect db b = true ↔ s₁.databases.contains db = true ∨
      ∃ r', ((s₁.changed r rec).sessions r').doing = .dropping db)) :
    Redo c₀ (s₁.changed r rec) where
  tables := by
    intro n
    obtain ⟨x, hx, hdenotes⟩ := h.tables n
    obtain ⟨y, hy, hdenotes'⟩ := htables n x hdenotes
    refine ⟨y, ?_, hdenotes'⟩
    rw [pendingLog_changed hlog hunlogged, List.foldlM_append, hx]
    simp only [List.foldlM_cons, List.foldlM_nil]
    show (rec s₁.nextTxn).effect n x >>= pure = _
    rw [hy]
    rfl
  databases := by
    intro db
    rw [pendingLog_changed hlog hunlogged, List.foldl_append]
    exact hdatabases db _ (h.databases db)

/-- A session that has nothing else to log and is in no queue logs its change. -/
theorem Orderly.changed (h : s.Orderly) (hlogging : ∀ rec, (s.sessions r).doing ≠ .logging rec)
    (hbusy : (s.sessions r).doing ≠ .busy) :
    (s.changed r rec).Orderly where
  logging := by
    intro r' rec'
    show ((s.setSession r _).sessions r').doing = _ ↔ (r', rec') ∈ s.unlogged ++ [(r, rec s.nextTxn)]
    rw [doing_setSession, List.mem_append, List.mem_singleton]
    split
    · next heq =>
      subst heq
      constructor
      · rintro ⟨⟩
        exact Or.inr rfl
      · rintro (hmem | heq)
        · exact absurd ((h.logging r' rec').mpr hmem) (hlogging rec')
        · cases heq
          rfl
    · next hne =>
      rw [h.logging r' rec']
      constructor
      · exact Or.inl
      · rintro (hmem | heq)
        · exact hmem
        · exact absurd (Prod.mk.inj heq).1 hne
  once := by
    show ((s.unlogged ++ [(r, rec s.nextTxn)]).map Prod.fst).Nodup
    rw [List.map_append, List.nodup_append]
    refine ⟨h.once, by simp, ?_⟩
    rintro r' hr' r'' hr''
    rw [List.map_singleton, List.mem_singleton] at hr''
    subst hr''
    rintro rfl
    obtain ⟨⟨r'', rec'⟩, hmem, rfl⟩ := List.mem_map.mp hr'
    exact hlogging rec' ((h.logging r'' rec').mpr hmem)
  busy := by
    intro f hf
    show ((s.setSession r _).sessions f.session).doing = _
    rw [doing_setSession, if_neg]
    · exact h.busy f hf
    · intro heq
      have hf' := h.busy f hf
      rw [heq] at hf'
      exact hbusy hf'
  flights := h.flights
  sessions := by
    intro r'
    by_cases hr : r' = r
    · subst hr
      refine ⟨?_, ?_⟩
      · intro t ht
        exact (h.sessions r').txn t (by simpa [Engine.changed, setDoing, Engine.setSession] using ht)
      · show DoingOk s.fresh ((s.setSession r' _).sessions r').doing
        rw [doing_setSession, if_pos rfl]
        trivial
    · simpa [Engine.changed, setDoing, Engine.setSession, hr] using h.sessions r'
  named := h.named
  used := h.used
  targets := h.targets

/-- Changed tables with names and objects in order. -/
theorem Orderly.setCatalog {databases : ExtTreeSet String} {heap : Nat → Table} {fresh : Nat}
    (h : s.Orderly) (hfresh : s.fresh ≤ fresh)
    (hnamed : ∀ (n : String) id, tables[n]? = some id → (heap id).info.name = n ∧ id < fresh) :
    { s with databases := databases, tables := tables, heap := heap, fresh := fresh }.Orderly where
  logging := h.logging
  once := h.once
  busy := h.busy
  flights := h.flights
  sessions := fun r => ⟨(h.sessions r).txn, (h.sessions r).doing.mono hfresh⟩
  named := fun n id hn => (hnamed n id hn).1
  used := fun n id hn => (hnamed n id hn).2
  targets := fun f hf i hi => ⟨Nat.lt_of_lt_of_le (h.targets f hf i hi).1 hfresh, (h.targets f hf i hi).2⟩

/-! ## New tables -/

/-- A table without rows whose indexes are its own and empty. -/
structure Unfilled (bare : TableDef) (t : Table) : Prop where
  info : t.info = bare
  tree : t.tree = ∅
  stats : t.stats = bare.stats
  indexes : ∀ i ∈ t.indexes, bare.schema.indexOf i.info.column = some i.colIdx ∧ i.tree = ∅

theorem Unfilled.addIndex (h : Unfilled bare t) (ht : t.addIndex name column = .ok t') :
    Unfilled bare t' := by
  unfold Table.addIndex at ht
  split at ht
  · cases ht
  · next i hi =>
    split at ht
    · cases ht
    · split at ht
      · cases ht
      · have hkeys : t.indexKeys i = .ok [] := by
          rw [Table.indexKeys, Table.scan, h.tree]
          rfl
        rw [hkeys] at ht
        cases ht
        refine ⟨h.info, h.tree, h.stats, fun j hj => ?_⟩
        rcases List.mem_append.mp hj with hj | hj
        · exact h.indexes j hj
        · rw [List.mem_singleton.mp hj]
          rw [Table.schema, h.info] at hi
          exact ⟨hi, rfl⟩

theorem Unfilled.ensureAutoIndexes : ∀ {fks : List ForeignKeyDef} {t t' : Table},
    Unfilled bare t → fks.foldlM ensureAutoIndex t = .ok t' → Unfilled bare t'
  | [], t, t', h, ht => by
    cases ht
    exact h
  | fk :: fks, t, t', h, ht => by
    rw [List.foldlM_cons] at ht
    cases hone : ensureAutoIndex t fk with
    | error e =>
      rw [hone] at ht
      cases ht
    | ok t₁ =>
      rw [hone] at ht
      refine Unfilled.ensureAutoIndexes ?_ ht
      unfold ensureAutoIndex at hone
      split at hone
      · cases hone
        exact h
      · split at hone
        · cases hone
          exact h
        · exact h.addIndex hone

theorem filterMap_self {α : Type} {g : α → Option α} : ∀ {l : List α}, (∀ a ∈ l, g a = some a) →
    l.filterMap g = l
  | [], _ => rfl
  | a :: l, h => by
    rw [List.filterMap_cons_some (h a (by simp)), filterMap_self fun b hb => h b (by simp [hb])]

theorem Unfilled.same (h : Unfilled bare t) :
    t.Same (Table.new { bare with indexes := t.secondaryIndexes }) := by
  have hindexes : t.indexes = (Table.new { bare with indexes := t.secondaryIndexes }).indexes := by
    show _ = (t.indexes.map SecondaryIndex.info).filterMap _
    rw [List.filterMap_map]
    refine (filterMap_self fun i hi => ?_).symm
    obtain ⟨hcolumn, htree⟩ := h.indexes i hi
    obtain ⟨info, colIdx, tree⟩ := i
    dsimp only at htree
    subst htree
    simp only [Function.comp_apply]
    rw [hcolumn]
    rfl
  have hnames : (Table.new { bare with indexes := t.secondaryIndexes }).secondaryIndexes =
      t.secondaryIndexes := congrArg (List.map SecondaryIndex.info) hindexes.symm
  refine ⟨?_, h.tree, hindexes⟩
  rw [Table.tableDef, Table.tableDef, hnames, h.info, h.stats]
  rfl

/-! ## Settled tables -/

section Settle

variable {tables tables' : ExtTreeMap String Nat} {heap heap' : Nat → Table} {todo todo' : List Install}
  {n : String} {x : Option Table} {id : Nat} {t : Table}

theorem settle_update_of_ne {j : Nat} (h : id ≠ j) :
    settle (Function.update heap j t) todo id = settle heap todo id := by
  rw [settle, settle, Function.update_of_ne h]

theorem settle_of_none (h : ∀ i ∈ todo, i.target ≠ id) : settle heap todo id = .ok (heap id) := by
  rw [settle, List.filter_eq_nil_iff.mpr fun i hi => by simpa using h i hi]
  rfl

theorem Denotes.congr (h : Denotes tables heap todo n x) (htables : tables'[n]? = tables[n]?)
    (hsettle : ∀ id, tables[n]? = some id → settle heap' todo' id = settle heap todo id) :
    Denotes tables' heap' todo' n x := by
  refine ⟨fun hnone => h.1 (htables ▸ hnone), fun id hid => ?_⟩
  rw [htables] at hid
  rw [hsettle id hid]
  exact h.2 id hid

theorem denotes_none (h : tables[n]? = none) : Denotes tables heap todo n none := by
  refine ⟨fun _ => rfl, fun id hid => ?_⟩
  rw [h] at hid
  cases hid

end Settle

/-- At most one session drops a database, which is then no longer listed. -/
def DropsOnce (s : Engine) : Prop :=
  ∀ r db, (s.sessions r).doing = .dropping db → s.databases.contains db = false ∧
    ∀ r', (s.sessions r').doing = .dropping db → r' = r

/-- Every reachable state. -/
structure RedoInv (c₀ : Catalog) (s : Engine) : Prop where
  orderly : s.Orderly
  redo : Redo c₀ s
  drops : s.DropsOnce

theorem DropsOnce.of_sessions (h : s.DropsOnce)
    (hsessions : ∀ r db, (s'.sessions r).doing = .dropping db → (s.sessions r).doing = .dropping db)
    (hdatabases : ∀ r db, (s.sessions r).doing = .dropping db →
      s'.databases.contains db = s.databases.contains db) : s'.DropsOnce := by
  intro r db hr
  obtain ⟨hcontains, honce⟩ := h r db (hsessions r db hr)
  refine ⟨?_, fun r' hr' => honce r' (hsessions r' db hr')⟩
  rw [hdatabases r db (hsessions r db hr)]
  exact hcontains

/-- A session that does not drop a database after its step. -/
theorem dropping_of_setSession (hnew : ∀ db, session.doing ≠ .dropping db) (r' : Nat) (db : String)
    (h : ((s.setSession r session).sessions r').doing = .dropping db) :
    (s.sessions r').doing = .dropping db := by
  rw [doing_setSession] at h
  split at h
  · exact absurd h (hnew db)
  · exact h

/-- A DDL change of a session that was not dropping a database, on the tables
or on other databases. -/
theorem dropping_changed (s₁ : Engine) (hsessions : s₁.sessions = s.sessions)
    (hold : ∀ db, (s.sessions r).doing ≠ .dropping db) (db : String) :
    (∃ r', ((s₁.changed r rec).sessions r').doing = .dropping db) ↔
      ∃ r', (s.sessions r').doing = .dropping db := by
  rw [← hsessions] at hold ⊢
  exact dropping_setSession (hold db) (by simp)

/-! ## Steps of DDL -/

theorem idle_ne (h : doing = .idle) :
    (∀ rec, doing ≠ .logging rec) ∧ doing ≠ .busy ∧ ∀ db, doing ≠ .dropping db := by
  subst h
  simp

theorem running_ne (h : doing = .running key id staged) :
    (∀ rec, doing ≠ .logging rec) ∧ doing ≠ .busy ∧ ∀ db, doing ≠ .dropping db := by
  subst h
  simp

/-- A change of tables by a session that was not dropping a database. -/
theorem RedoInv.changed {heap : Nat → Table} {fresh : Nat} (h : RedoInv c₀ s)
    (hold : (∀ rec, (s.sessions r).doing ≠ .logging rec) ∧ (s.sessions r).doing ≠ .busy ∧
      ∀ db, (s.sessions r).doing ≠ .dropping db)
    (hfresh : s.fresh ≤ fresh)
    (hnamed : ∀ (n : String) id, tables[n]? = some id → (heap id).info.name = n ∧ id < fresh)
    (hrec : ∀ txn db b, (rec txn).dbEffect db b = b)
    (htables : ∀ (n : String) x, Denotes s.tables s.heap s.todo n x →
      ∃ y, (rec s.nextTxn).effect n x = .ok y ∧ Denotes tables heap s.todo n y) :
    RedoInv c₀ ({ s with tables := tables, heap := heap, fresh := fresh }.changed r rec) where
  orderly := (h.orderly.setCatalog hfresh hnamed).changed hold.1 hold.2.1
  redo := by
    refine h.redo.changed rfl rfl htables fun db b hb => ?_
    rw [hrec, hb]
    exact or_congr Iff.rfl (dropping_changed _ rfl hold.2.2 db).symm
  drops := by
    refine h.drops.of_sessions (fun r' db hr' => ?_) fun _ _ _ => rfl
    exact dropping_of_setSession (s := { s with tables := tables, heap := heap, fresh := fresh })
      (by simp) r' db hr'

theorem RedoInv.createTable {schema : Schema} {fks : List ForeignKeyDef} (h : RedoInv c₀ s)
    (hs : s.createTable r name schema fks = some s') : RedoInv c₀ s' := by
  unfold Engine.createTable at hs
  dsimp only at hs
  split at hs
  · next t hdoing ht =>
    split at hs
    · cases hs
    · next hfree =>
      have hunfilled := Unfilled.ensureAutoIndexes ⟨rfl, rfl, rfl, by simp [Table.new]⟩ ht
      have hnone : s.tables[name]? = none := by
        rw [ExtTreeMap.contains_eq_isSome_getElem?] at hfree
        simpa using hfree
      have hfreshTodo : ∀ i ∈ s.todo, i.target ≠ s.fresh := by
        intro i hi
        obtain ⟨f, hf, hi⟩ := List.mem_flatMap.mp hi
        exact Nat.ne_of_lt (h.orderly.targets f hf i hi).1
      cases hs
      dsimp only [Engine.setTable]
      refine h.changed (idle_ne hdoing) (Nat.le_succ _) (fun n id hn => ?_) (fun _ _ _ => rfl)
        fun n x hx => ?_
      · rw [ExtTreeMap.getElem?_insert] at hn
        split at hn
        · next heq =>
          cases Std.compare_eq_iff_eq.mp heq
          cases hn
          refine ⟨?_, Nat.lt_succ_self _⟩
          rw [Function.update_self, hunfilled.info]
          rfl
        · have hlt := h.orderly.used n id hn
          rw [Function.update_of_ne (Nat.ne_of_lt hlt)]
          exact ⟨h.orderly.named n id hn, Nat.lt_succ_of_lt hlt⟩
      · by_cases hname : name = n
        · subst hname
          refine ⟨some (Table.new
            { name := name
              schema := schema
              indexes := t.secondaryIndexes
              foreignKeys := fks
              stats := none }), ?_, ?_⟩
          · rw [hx.1 hnone, Record.effect, if_pos rfl]
            rfl
          · refine ⟨fun hbad => ?_, fun id hid => ?_⟩
            · simp at hbad
            · obtain rfl : s.fresh = id := by simpa using hid
              refine ⟨t, _, ?_, rfl, hunfilled.same⟩
              rw [settle_of_none hfreshTodo, Function.update_self]
        · refine ⟨x, congrArg Except.ok (if_neg hname), hx.congr ?_ fun id hid => ?_⟩
          · rw [ExtTreeMap.getElem?_insert, if_neg]
            exact fun heq => hname (Std.compare_eq_iff_eq.mp heq)
          · exact settle_update_of_ne (Nat.ne_of_lt (h.orderly.used n id hid))
  · cases hs

theorem RedoInv.dropTable (h : RedoInv c₀ s) (hs : s.dropTable r key = some s') :
    RedoInv c₀ s' := by
  unfold Engine.dropTable at hs
  split at hs
  · next hdoing =>
    split at hs
    · cases hs
      refine h.changed (idle_ne hdoing) (Nat.le_refl _) (fun n id hn => ?_) (fun _ _ _ => rfl)
        fun n x hx => ?_
      · rw [ExtTreeMap.getElem?_erase] at hn
        split at hn
        · cases hn
        · exact ⟨h.orderly.named n id hn, h.orderly.used n id hn⟩
      · by_cases hkey : key = n
        · subst hkey
          exact ⟨none, congrArg Except.ok (if_pos rfl), denotes_none (by simp)⟩
        · refine ⟨x, congrArg Except.ok (if_neg hkey), hx.congr ?_ fun _ _ => rfl⟩
          rw [ExtTreeMap.getElem?_erase, if_neg]
          exact fun heq => hkey (Std.compare_eq_iff_eq.mp heq)
    · cases hs
  · cases hs

/-- An index operation on the table that the statement has opened. -/
theorem RedoInv.onIndex (h : RedoInv c₀ s) (hdoing : (s.sessions r).doing = .running key id staged)
    (hinfo : t.info = (s.heap id).info) (hkey : s.tables[key]? = some id ∨ s.Gone key id)
    (hrec : ∀ txn db b, (rec txn).dbEffect db b = b)
    (hother : ∀ txn n, key ≠ n → (rec txn).concerns n = false)
    (hnone : ∀ txn, (rec txn).effect key none = .ok none)
    (hsame : ∀ t₁ y, s.tables[key]? = some id → settle s.heap s.todo id = .ok t₁ → t₁.Same y →
      ∃ t₂ y₂, settle (Function.update s.heap id t) s.todo id = .ok t₂ ∧
        (rec s.nextTxn).effect key (some y) = .ok (some y₂) ∧ t₂.Same y₂) :
    RedoInv c₀ ((s.setTable id t).changed r rec) := by
  refine h.changed (running_ne hdoing) (Nat.le_refl _) (fun n id' hn => ?_) hrec fun n x hx => ?_
  · refine ⟨?_, h.orderly.used n id' hn⟩
    by_cases hid : id' = id
    · subst hid
      rw [Function.update_self, hinfo]
      exact h.orderly.named n id' hn
    · rw [Function.update_of_ne hid]
      exact h.orderly.named n id' hn
  · have hkeep : (∀ id', s.tables[n]? = some id' → id' ≠ id) →
        Denotes s.tables (Function.update s.heap id t) s.todo n x :=
      fun hne => hx.congr rfl fun id' hid' => settle_update_of_ne (hne id' hid')
    by_cases hn : key = n
    · subst hn
      rcases hkey with hcurrent | hgone
      · obtain ⟨t₁, y, hsettle, rfl, hty⟩ := hx.2 id hcurrent
        obtain ⟨t₂, y₂, hsettle₂, heffect, hsame₂⟩ := hsame t₁ y hcurrent hsettle hty
        refine ⟨some y₂, heffect, fun hbad => ?_, fun id' hid' => ?_⟩
        · rw [hcurrent] at hbad
          cases hbad
        · rw [hcurrent] at hid'
          cases hid'
          exact ⟨t₂, y₂, hsettle₂, rfl, hsame₂⟩
      · have hx' := hx.1 hgone.1
        subst hx'
        exact ⟨none, hnone _, denotes_none hgone.1⟩
    · refine ⟨x, Record.effect_of_not_concerns (hother _ n hn), hkeep fun id' hid' => ?_⟩
      rintro rfl
      rcases hkey with hcurrent | hgone
      · exact hn (h.orderly.inj hcurrent hid')
      · exact hgone.2 n hid'

theorem addIndex_info (h : t.addIndex name column = .ok t') :
    t'.info = t.info := by
  unfold Table.addIndex at h
  split at h
  · cases h
  · next i _ =>
    split at h
    · cases h
    · split at h
      · cases h
      · cases hkeys : t.indexKeys i with
        | error e =>
          rw [hkeys] at h
          cases h
        | ok keys =>
          rw [hkeys] at h
          cases h
          rfl

theorem dropIndex_info (h : t.dropIndex name = .ok t') :
    t'.info = t.info := by
  unfold Table.dropIndex at h
  split at h
  · cases h
  · cases h
    rfl

theorem RedoInv.createIndex (h : RedoInv c₀ s) (hs : s.createIndex r name column = some s')
    (hquiet : ∀ key id staged, (s.sessions r).doing = .running key id staged →
      (s.tables[key]? = some id ∧ ∀ i ∈ s.todo, i.target ≠ id) ∨ s.Gone key id) :
    RedoInv c₀ s' := by
  unfold Engine.createIndex at hs
  split at hs
  · next key id staged hdoing =>
    split at hs
    · next t ht =>
      have hquiet := hquiet key id staged hdoing
      cases hs
      refine h.onIndex hdoing (addIndex_info ht) (hquiet.imp And.left fun hg => hg) (fun _ _ _ => rfl)
        (fun _ n hn => by simpa [Record.concerns] using hn)
        (fun _ => if_pos rfl) fun t₁ y hcurrent hsettle hty => ?_
      rcases hquiet with ⟨-, hnone⟩ | hgone
      · rw [settle_of_none hnone] at hsettle ⊢
        cases hsettle
        obtain ⟨y₂, hy₂, hsame⟩ := hty.addIndex ht
        refine ⟨t, y₂, by rw [Function.update_self], ?_, hsame⟩
        rw [Record.effect, if_pos rfl, Record.onRow, hy₂]
        rfl
      · rw [hgone.1] at hcurrent
        cases hcurrent
    · cases hs
  · cases hs

/-- Rows in flight may be installed before or after an index is dropped. -/
theorem foldlM_dropIndex : ∀ {todo : List Install} {t t₁ d : Table},
    (∀ i ∈ todo, KeyOk i.key.2) → todo.foldlM (fun t i => Install.run i t) t = .ok t₁ →
    t.dropIndex name = .ok d →
      ∃ d₁, todo.foldlM (fun t i => Install.run i t) d = .ok d₁ ∧ t₁.dropIndex name = .ok d₁
  | [], t, t₁, d, _, h, hdrop => by
    cases h
    exact ⟨d, rfl, hdrop⟩
  | i :: todo, t, t₁, d, hkeys, h, hdrop => by
    rw [List.foldlM_cons] at h ⊢
    cases hrun : Install.run i t with
    | error e =>
      rw [hrun] at h
      cases h
    | ok p =>
      rw [hrun] at h
      have hkey := hkeys i (by simp)
      have hswap : ∃ q, Install.run i d = .ok q ∧ p.dropIndex name = .ok q := by
        unfold Install.run at hrun ⊢
        split at hrun
        · exact Table.applyRaw_dropIndex hkey hdrop hrun
        · exact Table.removeRaw_dropIndex hkey hdrop hrun
      obtain ⟨q, hq, hdropped⟩ := hswap
      obtain ⟨d₁, hd₁, hend⟩ := foldlM_dropIndex (fun j hj => hkeys j (by simp [hj])) h hdropped
      refine ⟨d₁, ?_, hend⟩
      rw [hq]
      exact hd₁

theorem Orderly.keyOk (h : s.Orderly) {i : Install} (hi : i ∈ s.todo) : KeyOk i.key.2 := by
  obtain ⟨f, hf, hi⟩ := List.mem_flatMap.mp hi
  exact (h.targets f hf i hi).2

theorem RedoInv.dropIndex (h : RedoInv c₀ s) (hs : s.dropIndex r name = some s')
    (hquiet : ∀ key id staged, (s.sessions r).doing = .running key id staged → s.tables[key]? = some id ∨
      s.Gone key id) :
    RedoInv c₀ s' := by
  unfold Engine.dropIndex at hs
  split at hs
  · next key id staged hdoing =>
    split at hs
    · next t ht =>
      cases hs
      refine h.onIndex hdoing (dropIndex_info ht) (hquiet key id staged hdoing) (fun _ _ _ => rfl)
        (fun _ n hn => by simpa [Record.concerns] using hn)
        (fun _ => if_pos rfl) fun t₁ y _ hsettle hty => ?_
      obtain ⟨t₂, hsettle₂, hdrop⟩ := foldlM_dropIndex
        (fun i hi => h.orderly.keyOk (List.mem_of_mem_filter hi)) hsettle ht
      obtain ⟨y₂, hy₂, hsame⟩ := hty.dropIndex hdrop
      refine ⟨t₂, y₂, ?_, ?_, hsame⟩
      · rw [settle, Function.update_self]
        exact hsettle₂
      · rw [Record.effect, if_pos rfl, Record.onRow, hy₂]
        rfl
    · cases hs
  · cases hs

/-! ## Databases -/

theorem RedoInv.createDatabase (h : RedoInv c₀ s) (hs : s.createDatabase r name = some s')
    (hquiet : ∀ r', (s.sessions r').doing ≠ .dropping name) : RedoInv c₀ s' := by
  unfold Engine.createDatabase at hs
  split at hs
  · next hdoing =>
    split at hs
    · cases hs
    · obtain ⟨hlogging, hbusy, hdropping⟩ := idle_ne hdoing
      have hordered : { s with databases := s.databases.insert name }.Orderly :=
        h.orderly.setCatalog (Nat.le_refl _) fun n id hn => ⟨h.orderly.named n id hn, h.orderly.used n id hn⟩
      cases hs
      refine ⟨hordered.changed hlogging hbusy, ?_, ?_⟩
      · refine h.redo.changed rfl rfl (fun n x hx => ⟨x, rfl, hx⟩) fun db b hb => ?_
        rw [dropping_changed { s with databases := s.databases.insert name } rfl hdropping db,
          Record.dbEffect, Bool.or_eq_true, decide_eq_true_eq, hb, ExtTreeSet.contains_insert,
          Catalog.compare_beq_eq, Bool.or_eq_true, decide_eq_true_eq, or_assoc]
      · refine h.drops.of_sessions (fun r' db hr' => ?_) fun r' db hr' => ?_
        · exact dropping_of_setSession (s := { s with databases := s.databases.insert name })
            (by simp) r' db hr'
        · show (s.databases.insert name).contains db = _
          rw [ExtTreeSet.contains_insert, Catalog.compare_beq_eq]
          have hne : name ≠ db := by
            rintro rfl
            exact hquiet r' hr'
          simp [hne]
  · cases hs

theorem RedoInv.dropDatabase (h : RedoInv c₀ s) (hs : s.dropDatabase r name = some s') :
    RedoInv c₀ s' := by
  unfold Engine.dropDatabase at hs
  split at hs
  · next hdoing =>
    split at hs
    · next hlisted =>
      obtain ⟨hlogging, hbusy, hdropping⟩ := idle_ne hdoing
      have hordered : { s with databases := s.databases.erase name }.Orderly :=
        h.orderly.setCatalog (Nat.le_refl _) fun n id hn =>
          ⟨h.orderly.named n id hn, h.orderly.used n id hn⟩
      -- Nobody else drops a database that is still listed.
      have hfirst : ∀ r', (s.sessions r').doing ≠ .dropping name := by
        intro r' hr'
        rw [(h.drops r' name hr').1] at hlisted
        cases hlisted
      have hnew : ∀ r' db, (s'.sessions r').doing = .dropping db ↔
          (r' = r ∧ name = db) ∨ (s.sessions r').doing = .dropping db := by
        intro r' db
        cases hs
        rw [setDoing, doing_setSession]
        split
        · next heq => simp [heq, hdropping db]
        · next hne => simp [hne]
      cases hs
      refine ⟨hordered.setSession hlogging hbusy (by simp) ⟨(h.orderly.sessions r).txn, trivial⟩,
        ⟨h.redo.tables, fun db => ?_⟩, fun r' db hr' => ?_⟩
      · refine (h.redo.databases db).trans ?_
        simp only [hnew]
        show _ ↔ (s.databases.erase name).contains db = true ∨ _
        rw [ExtTreeSet.contains_erase, bne, Catalog.compare_beq_eq]
        by_cases hname : name = db
        · subst hname
          simp [hlisted]
        · simp [hname]
      · show (s.databases.erase name).contains db = false ∧ _
        rw [ExtTreeSet.contains_erase, bne, Catalog.compare_beq_eq]
        rcases (hnew r' db).mp hr' with ⟨rfl, rfl⟩ | hold
        · refine ⟨by simp, fun r'' hr'' => ?_⟩
          rcases (hnew r'' name).mp hr'' with ⟨rfl, -⟩ | hold
          · rfl
          · exact absurd hold (hfirst r'')
        · refine ⟨by simp [(h.drops r' db hold).1], fun r'' hr'' => ?_⟩
          rcases (hnew r'' db).mp hr'' with ⟨-, rfl⟩ | hold'
          · exact absurd hold (hfirst r')
          · exact (h.drops r' db hold).2 r'' hold'
    · cases hs
  · cases hs

theorem RedoInv.dropTables (h : RedoInv c₀ s) (hs : s.dropTables r = some s') : RedoInv c₀ s' := by
  unfold Engine.dropTables at hs
  split at hs
  · next name hdoing =>
    obtain ⟨hunlisted, honce⟩ := h.drops r name hdoing
    have hkept : ∀ (n : String) (id : Nat),
        (s.tables.filter fun k _ => !Catalog.inDatabase name k)[n]? = some id → s.tables[n]? = some id := by
      intro n id hn
      rw [ExtTreeMap.getElem?_filter'] at hn
      exact (Option.filter_eq_some_iff.mp hn).1
    have hordered : { s with tables := s.tables.filter fun k _ => !Catalog.inDatabase name k }.Orderly :=
      h.orderly.setCatalog (Nat.le_refl _) fun n id hn =>
        ⟨h.orderly.named n id (hkept n id hn), h.orderly.used n id (hkept n id hn)⟩
    cases hs
    refine ⟨hordered.changed (by simp [hdoing]) (by simp [hdoing]), ?_, ?_⟩
    · refine h.redo.changed rfl rfl (fun n x hx => ?_) fun db b hb => ?_
      · refine ⟨_, rfl, ?_⟩
        split
        · next hin =>
          refine denotes_none ?_
          show (s.tables.filter fun k _ => !Catalog.inDatabase name k)[n]? = none
          rw [ExtTreeMap.getElem?_filter']
          simp [hin]
        · next hout =>
          refine hx.congr ?_ fun _ _ => rfl
          show (s.tables.filter fun k _ => !Catalog.inDatabase name k)[n]? = s.tables[n]?
          rw [ExtTreeMap.getElem?_filter']
          cases s.tables[n]? <;> simp [hout]
      · rw [Record.dbEffect, Bool.and_eq_true, decide_eq_true_eq, hb]
        by_cases hname : name = db
        · subst hname
          refine iff_of_false (fun hbad => hbad.1 rfl) ?_
          rintro (hbad | ⟨r', hr'⟩)
          · rw [hunlisted] at hbad
            cases hbad
          · have hr := honce r' (dropping_of_setSession (by simp) r' name hr')
            subst hr
            simp [Engine.changed, setDoing, Engine.setSession] at hr'
        · refine (and_iff_right hname).trans (or_congr Iff.rfl ?_)
          refine (dropping_setSession ?_ (by simp)).symm
          simp [hdoing, hname]
    · refine h.drops.of_sessions (fun r' db hr' => ?_) fun _ _ _ => rfl
      exact dropping_of_setSession
        (s := { s with tables := s.tables.filter fun k _ => !Catalog.inDatabase name k }) (by simp) r' db hr'
  · cases hs

end Engine

end HenchDB.Ddl
