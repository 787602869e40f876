import HenchDB.Session.Unique

/-!
# Sessions without autocommit

A session may switch autocommit off; its statements then open a transaction of
their own and stage what they write.  Switching it on again commits an open
transaction first, as `COMMIT` does.

What other sessions and a restart see of a session are its transactions in the
log: the rows are always those of a prefix of the log (`Clients.replays`).  A
session without autocommit adds nothing to the log, if none of its statements
outside a transaction is taken by `try_fast_point_update` and changes a row:
that path commits whatever the flag says (`staged_statements_hidden`).
-/

namespace HenchDB.Session

open Std (ExtTreeMap)
open Relation (ReflTransGen)

/-- The engine with the flags of the sessions. -/
structure Clients where
  engine : Engine
  autocommit : Nat → Bool
  /-- Ghost: the appended transactions with their sessions. -/
  logged : List (Nat × Txn)

/-- The steps of the sessions and of the engine. -/
inductive ClientAction where
  | execute (r : Nat) (stmt : Stmt) (snap : Option Nat)
  /-- `SET autocommit`, of a session that has committed. -/
  | set (r : Nat) (enabled : Bool)
  | begin (r : Nat)
  | commit (r : Nat)
  | rollback (r : Nat)
  | append (r : Nat)
  | sync (n : Nat)
  | install
  | finish (i : Nat)

def ClientAction.session : ClientAction → Option Nat
  | .execute r _ _ => some r
  | .set r _ => some r
  | .begin r => some r
  | .commit r => some r
  | .rollback r => some r
  | .append r => some r
  | .sync _ => none
  | .install => none
  | .finish _ => none

namespace Clients

/-- A database with the given tables; autocommit is on. -/
def start (schemas : Schemas) (autoIncs : AutoIncs) (rows : Rows) : Clients where
  engine := Engine.start schemas autoIncs rows
  autocommit := fun _ => true
  logged := []

def run (s : Clients) (next : Option Engine) : Option Clients :=
  next.map fun e => { s with engine := e }

/-- `SET autocommit`; to switch it on, an open transaction is committed first. -/
def set (s : Clients) (r : Nat) (enabled : Bool) : Option Clients :=
  match s.engine.sessions r with
  | .idle => some { s with autocommit := Function.update s.autocommit r enabled }
  | .active _ =>
    if enabled && !s.autocommit r then none
    else some { s with autocommit := Function.update s.autocommit r enabled }
  | _ => none

/-- Phase A of a commit, which the ghost log records. -/
def append (s : Clients) (r : Nat) : Option Clients :=
  (s.engine.append r).map fun e =>
    { s with
      engine := e
      logged := s.logged ++ (e.log.drop s.engine.log.length).map fun t => (r, t) }

def step (s : Clients) : ClientAction → Option Clients
  | .execute r stmt snap => s.run (s.engine.execute r stmt (s.autocommit r) snap)
  | .set r enabled => s.set r enabled
  | .begin r => s.run (s.engine.begin r)
  | .commit r => s.run (s.engine.commit r)
  | .rollback r => s.run (s.engine.rollback r)
  | .append r => s.append r
  | .sync n => s.run (some (s.engine.sync n))
  | .install => s.run s.engine.install
  | .finish i => s.run (s.engine.finish i)

def Steps (s s' : Clients) : Prop := ∃ a, s.step a = some s'

/-- The transactions of a session that other sessions or a restart can see. -/
def ownLog (s : Clients) (r : Nat) : List Txn :=
  (s.logged.filter fun e => e.1 = r).map Prod.snd

def replay (rows : Rows) (log : List (Nat × Txn)) : Rows :=
  log.foldl (fun rows e => view rows e.2.staged) rows

/-- Everything that is or was in the trees is what a prefix of the log leaves. -/
def Replays (rows : Rows) (s : Clients) : Prop :=
  ∀ seen ∈ s.engine.rows :: s.engine.past, ∃ n, seen = replay rows (s.logged.take n)

/-- The session is not in a commit. -/
def resting (s : Clients) (r : Nat) : Prop :=
  s.engine.sessions r = .idle ∨ ∃ t, s.engine.sessions r = .active t

/-- A step in which a session at most executes a statement, or goes on with the
commit that its statement has started. -/
def StatementStep (r : Nat) (s s' : Clients) : Prop :=
  ∃ a, s.step a = some s' ∧
    (a.session = some r → (∃ stmt snap, a = .execute r stmt snap) ∨ a = .append r)

/-- A statement outside a transaction is taken by the text fast path and changes
a row. -/
def commitsFast (s : Clients) (r : Nat) (stmt : Stmt) (snap : Option Nat) : Bool :=
  match s.engine.sessions r, stmt, s.engine.base snap with
  | .idle, .updatePoint _ _ _, some rows => !(s.engine.attempt r stmt rows).2.staged.isEmpty
  | _, _, _ => false

/-- Such a step whose statement the text fast path does not commit. -/
def SlowStep (r : Nat) (s s' : Clients) : Prop :=
  ∃ a, s.step a = some s' ∧
    (a.session = some r → (∃ stmt snap, a = .execute r stmt snap) ∨ a = .append r) ∧
    ∀ stmt snap, a = .execute r stmt snap → s.commitsFast r stmt snap = false

/-! ## The rows are those of the log -/

variable {s s' : Clients} {r : Nat} {rows : Rows}

theorem replay_concat (rows : Rows) (log : List (Nat × Txn)) (e : Nat × Txn) :
    replay rows (log ++ [e]) = view (replay rows log) e.2.staged := List.foldl_append

/-- What a step of the engine does to the ghost log: what it does to the log. -/
theorem run_spec {next : Option Engine} (hs : s.run next = some s') :
    ∃ e, next = some e ∧ s' = { s with engine := e } := by
  obtain ⟨e, he, rfl⟩ := Option.map_eq_some_iff.mp hs
  exact ⟨e, he, rfl⟩

/-- `SET autocommit` changes a flag. -/
theorem set_spec {enabled : Bool} (hs : s.set r enabled = some s') :
    s' = { s with autocommit := Function.update s.autocommit r enabled } := by
  unfold set at hs
  split at hs
  · exact (Option.some.inj hs).symm
  · split at hs
    · cases hs
    · exact (Option.some.inj hs).symm
  · cases hs

variable {a : ClientAction} {e : Engine} {r' : Nat}

/-- Every step is a step of the engine, or changes a flag. -/
theorem step_spec (hs : s.step a = some s') :
    (s'.engine = s.engine ∧ s'.logged = s.logged) ∨
      ∃ act, s.engine.step act = some s'.engine ∧
        (∀ r, act = .append r → a = .append r ∧
          s'.logged = s.logged ++ (s'.engine.log.drop s.engine.log.length).map fun t => (r, t)) ∧
        ((∀ r, act ≠ .append r) → s'.logged = s.logged) := by
  -- a step of the engine that appends nothing
  have hrun : ∀ act, (∀ r, act ≠ .append r) → s.run (s.engine.step act) = some s' →
      ∃ act, s.engine.step act = some s'.engine ∧
        (∀ r, act = .append r → a = .append r ∧
          s'.logged = s.logged ++ (s'.engine.log.drop s.engine.log.length).map fun t => (r, t)) ∧
        ((∀ r, act ≠ .append r) → s'.logged = s.logged) := by
    intro act hact hs
    obtain ⟨e, he, rfl⟩ := run_spec hs
    exact ⟨act, he, fun r hr => absurd hr (hact r), fun _ => rfl⟩
  cases a with
  | execute r stmt snap =>
    exact .inr (hrun (.execute r stmt (s.autocommit r) snap) (by simp) hs)
  | set r enabled =>
    obtain rfl := set_spec hs
    exact .inl ⟨rfl, rfl⟩
  | begin r => exact .inr (hrun (.begin r) (by simp) hs)
  | commit r => exact .inr (hrun (.commit r) (by simp) hs)
  | rollback r => exact .inr (hrun (.rollback r) (by simp) hs)
  | append r =>
    obtain ⟨e, he, rfl⟩ := Option.map_eq_some_iff.mp hs
    refine .inr ⟨.append r, he, ?_, fun h => absurd rfl (h r)⟩
    intro r' hr'
    cases hr'
    exact ⟨rfl, rfl⟩
  | sync n => exact .inr (hrun (.sync n) (by simp) hs)
  | install => exact .inr (hrun .install (by simp) hs)
  | finish i => exact .inr (hrun (.finish i) (by simp) hs)

/-- The ghost log is the log, and what is not in flight is in the trees. -/
structure LogInv (rows : Rows) (s : Clients) : Prop where
  log : s.logged.map Prod.snd = s.engine.log
  installed : ∃ done, s.engine.log = done ++ s.engine.flights.map Flight.txn ∧
    s.engine.rows = replay rows (s.logged.take done.length)
  replays : s.Replays rows

theorem LogInv.step (h : LogInv rows s) (hs : s.step a = some s') :
    LogInv rows s' := by
  obtain ⟨done, hdone, hrows⟩ := h.installed
  rcases step_spec hs with ⟨hengine, hlogged⟩ | ⟨act, hact, happend, hother⟩
  · constructor
    · rw [hlogged, hengine]
      exact h.log
    · rw [hlogged, hengine]
      exact h.installed
    · rw [Replays, hlogged, hengine]
      exact h.replays
  have hsame : (∀ r, act ≠ .append r) → s'.logged = s.logged := hother
  rcases Engine.data_cases hact with hdata | ⟨r, t, rfl, -, -, hrows', hpast, hflights, hlog⟩ |
    ⟨t, rest, rfl, hfirst, -, hrows', hpast, hflights, hlog⟩
  · -- an append that fails appends nothing
    have hlogged : s'.logged = s.logged := by
      by_cases hap : ∃ r, act = .append r
      · obtain ⟨r, rfl⟩ := hap
        rw [(happend r rfl).2, hdata.log, List.drop_length]
        simp
      · exact hsame fun r hr => hap ⟨r, hr⟩
    constructor
    · rw [hlogged, hdata.log]
      exact h.log
    · rw [hlogged, hdata.log, hdata.flights, hdata.rows]
      exact h.installed
    · rw [Replays, hlogged, hdata.rows, hdata.past]
      exact h.replays
  · have hlogged : s'.logged = s.logged ++ [(r, t)] := by
      rw [(happend r rfl).2, hlog, List.drop_left]
      rfl
    have hle : done.length ≤ s.logged.length := by
      have := congrArg List.length (h.log.trans hdone)
      rw [List.length_map, List.length_append] at this
      omega
    constructor
    · rw [hlogged, hlog, List.map_append, h.log]
      rfl
    · refine ⟨done, ?_, ?_⟩
      · rw [hlog, hflights, hdone, List.append_assoc]
      · rw [hlogged, hrows', List.take_append_of_le_length hle]
        exact hrows
    · rw [Replays, hlogged, hrows', hpast]
      intro seen hseen
      obtain ⟨n, hn⟩ := h.replays seen hseen
      refine ⟨min n s.logged.length, ?_⟩
      rw [List.take_append_of_le_length (Nat.min_le_right _ _), hn, ← List.take_take,
        List.take_length]
  · have hlogged : s'.logged = s.logged := hsame (by simp)
    -- the installed transaction is the next one of the log
    obtain ⟨e, he, rfl⟩ : ∃ e, s.logged[done.length]? = some e ∧ e.2 = t := by
      have hget : (s.logged.map Prod.snd)[done.length]? = some t := by
        rw [h.log, hdone, hfirst, List.getElem?_append_right le_rfl, Nat.sub_self]
        rfl
      rw [List.getElem?_map] at hget
      exact Option.map_eq_some_iff.mp hget
    have hinstalled : s'.engine.rows = replay rows (s'.logged.take (done.length + 1)) := by
      rw [hlogged, hrows', List.take_add_one, he, Option.toList_some, replay_concat, ← hrows]
    constructor
    · rw [hlogged, hlog]
      exact h.log
    · refine ⟨done ++ [e.2], ?_, ?_⟩
      · rw [hlog, hdone, hfirst, hflights, List.append_assoc]
        rfl
      · rw [List.length_append]
        exact hinstalled
    · intro seen hseen
      rcases List.mem_cons.mp hseen with rfl | hseen
      · exact ⟨_, hinstalled⟩
      · rw [hpast] at hseen
        rw [hlogged]
        exact h.replays seen hseen

theorem logInv_start (schemas : Schemas) (autoIncs : AutoIncs) (rows : Rows) :
    LogInv rows (start schemas autoIncs rows) where
  log := rfl
  installed := ⟨[], rfl, rfl⟩
  replays := by
    intro seen hseen
    exact ⟨0, List.mem_singleton.mp hseen⟩

/-- In every run the rows are those of a prefix of the log. -/
theorem replays {schemas : Schemas} {autoIncs : AutoIncs}
    (hrun : ReflTransGen Steps (start schemas autoIncs rows) s) : s.Replays rows := by
  have hinv : LogInv rows s :=
    Transition.invariant (logInv_start schemas autoIncs rows)
      (fun _ _ h ⟨_, hs⟩ => h.step hs) hrun
  exact hinv.replays

/-! ## A session without autocommit -/

/-- What such a session keeps: its writes are staged, and none of them is in
the log. -/
structure Hidden (r : Nat) (before : List Txn) (s : Clients) : Prop where
  off : s.autocommit r = false
  resting : s.resting r
  own : s.ownLog r = before

variable {before : List Txn}

/-- A transaction of one statement that staged nothing is over at once. -/
theorem commitTxn_idle {ex : Executed} (h : ex.staged.isEmpty = true) :
    (e.commitTxn r (Txn.empty.run ex)).sessions r = .idle := by
  have hnone : (Txn.empty.run ex).staged.isEmpty = true := by
    rw [Txn.run, Txn.empty, empty_extend]
    exact h
  rw [Engine.commitTxn, if_pos hnone]
  exact Function.update_self ..

/-- Where a statement leaves a session without autocommit. -/
theorem execute_resting {stmt : Stmt} {snap : Option Nat}
    (hslow : s.commitsFast r stmt snap = false) (hs : s.engine.execute r stmt false snap = some e) :
    e.sessions r = .idle ∨ ∃ t, e.sessions r = .active t := by
  obtain ⟨seen, hseen, incs, ex, hattempt, hend⟩ := Engine.execute_cases hs
  rcases hend with ⟨hidle, rfl, -⟩ | hstage
  · exact .inl hidle
  obtain ⟨hstmt, -, hexec⟩ := Engine.attempt_spec hattempt
  unfold Engine.commitStagedOrStage at hstage
  split at hstage
  · cases hstage
  · cases hstage
    exact .inr ⟨_, Function.update_self ..⟩
  · next table key set hidle hpoint =>
    cases hstage
    refine .inl (commitTxn_idle ?_)
    have hidle : s.engine.sessions r = .idle := hidle
    rw [← hstmt, hpoint] at hslow hattempt
    simp only [commitsFast, hidle, hseen, hattempt, Bool.not_eq_false'] at hslow
    exact hslow
  · next query hidle hselect =>
    cases hstage
    refine .inl (commitTxn_idle ?_)
    rw [← hstmt, hselect, Stmt.exec] at hexec
    rw [Executed.staged, ← (Prod.mk.inj hexec).2]
    exact ExtTreeMap.isEmpty_empty
  · cases hstage
    exact .inr ⟨_, Function.update_self ..⟩
  · cases hstage

theorem setSession_of_ne {state : SessionState} (hne : r' ≠ r) :
    (e.setSession r' state).sessions r = e.sessions r :=
  Function.update_of_ne hne.symm ..

theorem commitTxn_of_ne {t : Txn} (hne : r' ≠ r) :
    (e.commitTxn r' t).sessions r = e.sessions r := by
  unfold Engine.commitTxn
  split
  · exact setSession_of_ne hne
  · exact setSession_of_ne hne

theorem execute_of_ne {e' : Engine} {stmt : Stmt} {autocommit : Bool} {snap : Option Nat}
    (hne : r' ≠ r) (hs : e.execute r' stmt autocommit snap = some e') :
    e'.sessions r = e.sessions r := by
  obtain ⟨-, -, incs, ex, -, ⟨-, rfl, -⟩ | hstage⟩ := Engine.execute_cases hs
  · rfl
  rcases Engine.commitStagedOrStage_cases hstage with ⟨t, -, rfl⟩ | ⟨-, rfl | ⟨-, rfl⟩⟩
  · exact setSession_of_ne hne
  · exact commitTxn_of_ne hne
  · exact setSession_of_ne hne

/-- A step of another session, or of the engine, leaves a session where it is;
a commit that returns leaves its session idle. -/
theorem sessions_other (hs : s.step a = some s') (hne : a.session ≠ some r) :
    s'.engine.sessions r = s.engine.sessions r ∨ s'.engine.sessions r = .idle := by
  cases a with
  | execute r' stmt snap =>
    obtain ⟨e, he, rfl⟩ := run_spec hs
    exact .inl (execute_of_ne (fun heq => hne (by rw [← heq]; rfl)) he)
  | set r' enabled =>
    obtain rfl := set_spec hs
    exact .inl rfl
  | begin r' =>
    obtain ⟨e, he, rfl⟩ := run_spec hs
    simp only [Engine.begin] at he
    split at he
    · cases he
      exact .inl (setSession_of_ne fun heq => hne (by rw [← heq]; rfl))
    · cases he
  | commit r' =>
    obtain ⟨e, he, rfl⟩ := run_spec hs
    simp only [Engine.commit] at he
    split at he
    · cases he
      exact .inl (commitTxn_of_ne fun heq => hne (by rw [← heq]; rfl))
    · cases he
  | rollback r' =>
    obtain ⟨e, he, rfl⟩ := run_spec hs
    simp only [Engine.rollback] at he
    split at he
    · cases he
      exact .inl (setSession_of_ne fun heq => hne (by rw [← heq]; rfl))
    · cases he
      exact .inl (setSession_of_ne fun heq => hne (by rw [← heq]; rfl))
    · cases he
  | append r' =>
    obtain ⟨e, he, rfl⟩ := Option.map_eq_some_iff.mp hs
    simp only [Engine.append] at he
    split at he
    · split at he
      · cases he
        exact .inl (setSession_of_ne fun heq => hne (by rw [← heq]; rfl))
      · cases he
        exact .inl (setSession_of_ne fun heq => hne (by rw [← heq]; rfl))
    · cases he
  | sync n =>
    obtain ⟨e, he, rfl⟩ := run_spec hs
    cases he
    exact .inl rfl
  | install =>
    obtain ⟨e, he, rfl⟩ := run_spec hs
    simp only [Engine.install] at he
    split at he
    · split at he
      · cases he
        exact .inl rfl
      · cases he
    · cases he
  | finish i =>
    obtain ⟨e, he, rfl⟩ := run_spec hs
    simp only [Engine.finish] at he
    split at he
    · next f _ =>
      cases he
      rcases eq_or_ne f.session r with heq | hsession
      · right
        rw [← heq]
        exact Function.update_self ..
      · exact .inl (setSession_of_ne hsession)
    · cases he

/-- Only a session itself changes its flag. -/
theorem autocommit_other (hs : s.step a = some s') (hne : ∀ enabled, a ≠ .set r enabled) :
    s'.autocommit r = s.autocommit r := by
  cases a with
  | set r' enabled =>
    have hr : r' ≠ r := fun heq => hne enabled (by rw [heq])
    obtain rfl := set_spec hs
    exact Function.update_of_ne hr.symm ..
  | append r' =>
    obtain ⟨e, -, rfl⟩ := Option.map_eq_some_iff.mp hs
    rfl
  | execute r' stmt snap => obtain ⟨e, -, rfl⟩ := run_spec hs; rfl
  | begin r' => obtain ⟨e, -, rfl⟩ := run_spec hs; rfl
  | commit r' => obtain ⟨e, -, rfl⟩ := run_spec hs; rfl
  | rollback r' => obtain ⟨e, -, rfl⟩ := run_spec hs; rfl
  | sync n => obtain ⟨e, -, rfl⟩ := run_spec hs; rfl
  | install => obtain ⟨e, -, rfl⟩ := run_spec hs; rfl
  | finish i => obtain ⟨e, -, rfl⟩ := run_spec hs; rfl

/-- Only the append of a session adds to its part of the log. -/
theorem ownLog_other (hs : s.step a = some s') (hne : a ≠ .append r) :
    s'.ownLog r = s.ownLog r := by
  rcases step_spec hs with ⟨-, hlogged⟩ | ⟨act, -, happend, hother⟩
  · rw [ownLog, hlogged]
    rfl
  by_cases hap : ∃ r', act = .append r'
  · obtain ⟨r', rfl⟩ := hap
    obtain ⟨rfl, hlogged⟩ := happend r' rfl
    have hr : r' ≠ r := fun heq => hne (by rw [heq])
    have hnone : ((s'.engine.log.drop s.engine.log.length).map fun t => (r', t)).filter
        (fun e => e.1 = r) = [] := by
      rw [List.filter_eq_nil_iff]
      intro e he
      obtain ⟨t, -, rfl⟩ := List.mem_map.mp he
      simpa using hr
    rw [ownLog, hlogged, List.filter_append, hnone, List.append_nil]
    rfl
  · rw [ownLog, hother fun r' hr' => hap ⟨r', hr'⟩]
    rfl

theorem Hidden.slowStep (h : Hidden r before s) (hs : SlowStep r s s') : Hidden r before s' := by
  obtain ⟨a, ha, hown, hslow⟩ := hs
  by_cases hr : a.session = some r
  · rcases hown hr with ⟨stmt, snap, rfl⟩ | rfl
    · refine ⟨?_, ?_, ?_⟩
      · rw [autocommit_other ha (by simp), h.off]
      · have hfast := hslow stmt snap rfl
        obtain ⟨e, he, rfl⟩ := run_spec ha
        rw [h.off] at he
        exact execute_resting hfast he
      · rw [ownLog_other ha (by simp), h.own]
    · -- the session has no commit to go on with
      obtain ⟨e, he, -⟩ := Option.map_eq_some_iff.mp ha
      simp only [Engine.append] at he
      rcases h.resting with hidle | ⟨t, hactive⟩
      · rw [hidle] at he
        cases he
      · rw [hactive] at he
        cases he
  · refine ⟨?_, ?_, ?_⟩
    · rw [autocommit_other ha (fun enabled heq => hr (by rw [heq]; rfl)), h.off]
    · rcases sessions_other ha hr with hsame | hidle
      · rw [Clients.resting, hsame]
        exact h.resting
      · exact .inl hidle
    · rw [ownLog_other ha (fun heq => hr (by rw [heq]; rfl)), h.own]

/-- What a session without autocommit writes is in no state that others see,
and `ROLLBACK` discards it. -/
theorem staged_statements_hidden (schemas : Schemas) (autoIncs : AutoIncs) (rows : Rows)
    (s₀ s : Clients) (r : Nat)
    (hreach : ReflTransGen Steps (start schemas autoIncs rows) s₀)
    (hoff : s₀.autocommit r = false) (hrest : s₀.resting r)
    (hrun : ReflTransGen (SlowStep r) s₀ s) :
    s.ownLog r = s₀.ownLog r ∧ s.Replays rows ∧
      (s.engine.sessions r = .idle ∨
        s.step (.rollback r) = some { s with engine := s.engine.setSession r .idle }) := by
  have hhidden : Hidden r (s₀.ownLog r) s :=
    Transition.invariant ⟨hoff, hrest, rfl⟩ (fun _ _ h hs => h.slowStep hs) hrun
  refine ⟨hhidden.own, ?_, ?_⟩
  · refine replays (hreach.trans ?_)
    exact ReflTransGen.mono (fun _ _ ⟨a, ha, _⟩ => ⟨a, ha⟩) _ _ hrun
  · rcases hhidden.resting with hidle | ⟨t, hactive⟩
    · exact .inl hidle
    · right
      simp [step, run, Engine.rollback, hactive]

/-! ## Two runs -/

/-- `UPDATE counters SET n = ... WHERE id = ...`, in the form that the text fast
path takes. -/
def setCounter (id n : Int64) : Stmt :=
  .updatePoint "default.counters" (1 :: keyInt id) [(1, .int n)]

/-- A counter is there, and session 0 has switched autocommit off. -/
def switchedOff : List ClientAction :=
  [.execute 0 (Engine.insertCounter 7 0) none, .append 0, .sync 1, .install, .finish 0,
    .set 0 false]

/-- The condition of a slow step of session 0, as a check. -/
def slowNext (a : ClientAction) (s : Clients) : Option Clients :=
  match a with
  | .execute 0 stmt snap => if s.commitsFast 0 stmt snap then none else s.step (.execute 0 stmt snap)
  | .append 0 => s.step (.append 0)
  | a => if a.session = some 0 then none else s.step a

theorem slowStep_of_slowNext (a : ClientAction) (s s' : Clients) (hs : slowNext a s = some s') :
    SlowStep 0 s s' := by
  unfold slowNext at hs
  split at hs
  · next stmt snap =>
    split at hs
    · cases hs
    · next hfast =>
      refine ⟨_, hs, fun _ => .inl ⟨stmt, snap, rfl⟩, ?_⟩
      intro stmt' snap' heq
      cases heq
      simpa using hfast
  · exact ⟨_, hs, fun _ => .inr rfl, fun stmt snap heq => by cases heq⟩
  · next hexec _ =>
    split at hs
    · cases hs
    · next hsession =>
      refine ⟨a, hs, fun heq => absurd heq hsession, ?_⟩
      rintro stmt snap rfl
      exact absurd rfl (hexec stmt snap)

/-- Session 0 updates its counter, first by an `UPDATE` that the text fast path
does not take, and session 1 writes another one. -/
def updatesStaged : List ClientAction :=
  [.execute 0 (Engine.updateCounter 7 1) none, .execute 1 (Engine.insertCounter 8 5) none, .append 1,
    .sync 1, .install, .execute 0 (Engine.updateCounter 7 2) none, .finish 0]

def counterSeen (s : Clients) (id : Int64) : Option Row := s.engine.rows[Engine.counterKey id]?

/-- The session has no transaction. -/
def isIdle (s : Clients) (r : Nat) : Bool :=
  match s.engine.sessions r with
  | .idle => true
  | _ => false

theorem resting_of_isIdle (h : s.isIdle r = true) : s.resting r := by
  left
  unfold isIdle at h
  split at h
  · assumption
  · cases h

/-- The state in which session 0 has switched autocommit off, and the state
behind a schedule from there. -/
def fromSwitchedOff (next : ClientAction → Clients → Option Clients) (cs : List ClientAction) :
    Option (Clients × Clients) :=
  (Transition.exec (fun a s => s.step a) (fun _ => true) switchedOff
    (start Engine.counterSchemas ∅ ∅)).bind fun s₀ =>
      (Transition.exec next (fun _ => true) cs s₀).map fun s => (s₀, s)

theorem fromSwitchedOff_spec {next : ClientAction → Clients → Option Clients}
    {cs : List ClientAction} {step : Clients → Clients → Prop} {s₀ : Clients}
    (hnext : ∀ a s s', next a s = some s' → step s s') (h : fromSwitchedOff next cs = some (s₀, s)) :
    ReflTransGen Steps (start Engine.counterSchemas ∅ ∅) s₀ ∧
      ReflTransGen step s₀ s := by
  obtain ⟨s₁, hs₁, hs⟩ := Option.bind_eq_some_iff.mp h
  obtain ⟨s₂, hs₂, heq⟩ := Option.map_eq_some_iff.mp hs
  cases heq
  exact ⟨Transition.exec_runs (fun a _ _ hs => ⟨a, hs⟩) hs₁, Transition.exec_runs hnext hs₂⟩

theorem updatesStaged_runs :
    (fromSwitchedOff slowNext updatesStaged).map (fun (s₀, s) =>
      (s₀.autocommit 0, s₀.isIdle 0, s.counterSeen 7, s.counterSeen 8)) =
        some (false, true, some [.int 7, .int 0], some [.int 8, .int 5]) := by
  decide +kernel

theorem staged_statements_hidden_updates :
    ∃ s₀ s : Clients, s.counterSeen 7 = some [.int 7, .int 0] ∧ s.ownLog 0 = s₀.ownLog 0 := by
  obtain ⟨⟨s₀, s⟩, hexec, hends⟩ := Option.map_eq_some_iff.mp updatesStaged_runs
  simp only [Prod.mk.injEq] at hends
  obtain ⟨hoff, hidle, hseen, -⟩ := hends
  obtain ⟨hreach, hrun⟩ := fromSwitchedOff_spec slowStep_of_slowNext hexec
  exact ⟨s₀, s, hseen,
    (staged_statements_hidden _ _ _ s₀ s 0 hreach hoff (resting_of_isIdle hidle) hrun).1⟩

/-- Session 0 updates its counter by the text fast path. -/
def updatesFast : List ClientAction :=
  [.execute 0 (setCounter 7 1) none, .append 0, .sync 1, .install]

theorem updatesFast_runs :
    (fromSwitchedOff (fun a s => s.step a) updatesFast).map (fun (s₀, s) =>
      (s₀.autocommit 0, s₀.isIdle 0, [s₀.ownLog 0, s.ownLog 0].map List.length,
        s.counterSeen 7)) = some (false, true, [1, 2], some [.int 7, .int 1]) := by
  decide +kernel

/-- The first steps of session 0 behind the switch are one statement and the
commit it starts. -/
theorem statementStep_of_updatesFast :
    ∀ a ∈ updatesFast, ∀ s s' : Clients, s.step a = some s' → StatementStep 0 s s' := by
  intro a ha s s' hs
  refine ⟨a, hs, fun _ => ?_⟩
  simp only [updatesFast, List.mem_cons, List.not_mem_nil, or_false] at ha
  rcases ha with rfl | rfl | rfl | rfl
  · exact .inl ⟨_, _, rfl⟩
  · exact .inr rfl
  · contradiction
  · contradiction

/-- An update without autocommit is in the log, and others see it. -/
theorem fast_update_ignores_autocommit :
    ¬ ∀ (schemas : Schemas) (autoIncs : AutoIncs) (rows : Rows) (s₀ s : Clients) (r : Nat),
      ReflTransGen Steps (start schemas autoIncs rows) s₀ →
      s₀.autocommit r = false → s₀.resting r →
      ReflTransGen (StatementStep r) s₀ s →
        s.ownLog r = s₀.ownLog r ∧ s.Replays rows ∧
          (s.engine.sessions r = .idle ∨
            s.step (.rollback r) = some { s with engine := s.engine.setSession r .idle }) := by
  intro hinside
  obtain ⟨⟨s₀, s⟩, hexec, hends⟩ := Option.map_eq_some_iff.mp updatesFast_runs
  simp only [Prod.mk.injEq] at hends
  obtain ⟨hoff, hidle, hlengths, -⟩ := hends
  obtain ⟨s₁, hs₁, hs⟩ := Option.bind_eq_some_iff.mp hexec
  obtain ⟨s₂, hs₂, heq⟩ := Option.map_eq_some_iff.mp hs
  cases heq
  have hsame := (hinside _ _ _ s₀ s 0 (Transition.exec_runs (fun a _ _ hs => ⟨a, hs⟩) hs₁) hoff
    (resting_of_isIdle hidle)
    (Transition.exec_runs_of_mem statementStep_of_updatesFast hs₂)).1
  simp only [List.map_cons, hsame, List.cons.injEq] at hlengths
  omega

end Clients

end HenchDB.Session
