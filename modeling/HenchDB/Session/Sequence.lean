import HenchDB.Session.Engine

/-!
# The values of a sequence over restarts

An `AUTO_INCREMENT` counter lives in memory.  It grows with every value that it gives
out and with every explicit one behind it, also in statements that fail and in
transactions that are rolled back.  `Database::open` rebuilds it from the keys of the
rows that are left: past the largest of them, and past nothing else.

A checkpoint writes the rows to the snapshot and empties the log; a restart redoes what
is left of the log over the snapshot.  As long as every restart finds a row at or behind
each value that was given out and committed, no such value is given out again
(`never_reissued`).
-/

namespace HenchDB

open Relation (ReflTransGen)

/-- `Table::refresh_auto_inc` on the keys of the table. -/
def AutoIncState.refresh (st : AutoIncState) (keys : List Bytes) : Except Fault AutoIncState := do
  let max ← keys.foldlM Table.maxKey none
  return { st with next := max.elim 1 fun m => Nat.min (m + 1) Table.u64Max }

/-- The value that `assign_auto_inc` puts in the place of `NULL`. -/
def AutoIncState.generated (st : AutoIncState) (row : List Datum) : Option Nat :=
  if row[st.colIdx]? = some .null ∧ st.next ≤ 2 ^ 63 - 1 then some st.next else none

namespace Session

open Std (ExtTreeMap)

/-! ## What a statement gives out -/

/-- The values that the loop of `exec_insert` generates before it ends or fails. -/
def generatedRows (schema : Schema) (text table : String) (rows : Rows) :
    Option AutoIncState → List Row → Staged → List Nat
  | _, [], _ => []
  | inc, row :: rest, staged =>
    (inc.bind fun st => st.generated row).toList ++
      match assignAutoInc inc row with
      | .error _ => []
      | .ok (inc, row) =>
        match schema.validateRow row with
        | .error _ => []
        | .ok row =>
          match rowKey schema row with
          | .error _ => []
          | .ok key =>
            if staged.contains (text, key) || rows.contains (table, key) then []
            else
              generatedRows schema text table rows inc rest
                (staged.insert (table, key) { row := some row, isInsert := true })

def Stmt.generated (schemas : Schemas) (incs : AutoIncs) (rows : Rows) (table : String) :
    Stmt → List Nat
  | .insert text name new _ =>
    if name = table then
      match schemaOf schemas name with
      | .error _ => []
      | .ok schema => generatedRows schema text name rows incs[name]? new ∅
    else []
  | _ => []

theorem assign_spec {st st' : AutoIncState} {row row' : Row} (h : st.assign row = .ok (st', row')) :
    st.next ≤ st'.next ∧ ∀ v, st.generated row = some v → v = st.next ∧ v < st'.next := by
  rw [AutoIncState.assign] at h
  rw [AutoIncState.generated]
  split at h
  · cases h
  · next hnull =>
    split at h
    · cases h
    · cases h
      refine ⟨Nat.le_succ _, fun v hv => ?_⟩
      split at hv
      · cases hv
        exact ⟨rfl, Nat.lt_succ_self _⟩
      · cases hv
  · next v hint =>
    have hnone : ¬ (row[st.colIdx]? = some .null ∧ st.next ≤ 2 ^ 63 - 1) := by
      rw [hint]
      simp
    rw [if_neg hnone]
    split at h
    · next hlarge =>
      cases h
      have hmax : st.next ≤ Table.u64Max := by
        have hlt := v.toInt_lt
        rw [Table.u64Max]
        omega
      exact ⟨Nat.le_min.mpr ⟨hlarge.2.trans (Nat.le_succ _), hmax⟩, fun v hv => by cases hv⟩
    · cases h
      exact ⟨le_rfl, fun v hv => by cases hv⟩
  · next d hnull hint hd =>
    cases h
    refine ⟨le_rfl, fun v hv => ?_⟩
    split at hv
    · next hboth =>
      rw [hboth.1] at hd
      exact absurd (Option.some.inj hd).symm hnull
    · cases hv

theorem generated_of_error {st : AutoIncState} {row : Row} {e : Error}
    (h : st.assign row = .error e) : st.generated row = none := by
  rw [AutoIncState.assign] at h
  rw [AutoIncState.generated]
  refine if_neg fun hboth => ?_
  rw [hboth.1] at h
  dsimp only at h
  rw [if_neg (by omega)] at h
  cases h

/-- The values that are generated lie between the counter before and behind. -/
theorem generatedRows_spec (schema : Schema) (text table : String) (rows : Rows) :
    ∀ (new : List Row) (st : AutoIncState) (staged : Staged),
      ∃ st', (insertRows schema text table rows (some st) new staged).1 = some st' ∧
        st.next ≤ st'.next ∧
        ∀ v ∈ generatedRows schema text table rows (some st) new staged,
          st.next ≤ v ∧ v < st'.next
  | [], st, staged => ⟨st, rfl, le_rfl, fun v hv => by cases hv⟩
  | row :: rest, st, staged => by
    rw [insertRows, generatedRows, assignAutoInc]
    dsimp only [Option.bind_some]
    cases hassign : st.assign row with
    | error e =>
      rw [generated_of_error hassign]
      exact ⟨st, rfl, le_rfl, fun v hv => by cases hv⟩
    | ok assigned =>
      obtain ⟨st', row'⟩ := assigned
      obtain ⟨hle, hvalue⟩ := assign_spec hassign
      have hhead : ∀ v ∈ (st.generated row).toList, st.next ≤ v ∧ v < st'.next := by
        intro v hv
        obtain ⟨rfl, hlt⟩ := hvalue v (Option.mem_toList.mp hv)
        exact ⟨le_rfl, hlt⟩
      have hstop : ∃ st'', some st' = some st'' ∧ st.next ≤ st''.next ∧
          ∀ v ∈ (st.generated row).toList ++ [], st.next ≤ v ∧ v < st''.next :=
        ⟨st', rfl, hle, by rwa [List.append_nil]⟩
      dsimp only [Except.mapError, Except.map]
      cases hvalid : schema.validateRow row' with
      | error e => exact hstop
      | ok row'' =>
      dsimp only
      cases hkey : rowKey schema row'' with
      | error e => exact hstop
      | ok key =>
      dsimp only
      by_cases hdup : (staged.contains (text, key) || rows.contains (table, key)) = true
      · rw [if_pos hdup, if_pos hdup]
        exact hstop
      · rw [if_neg hdup, if_neg hdup]
        obtain ⟨st'', hst'', hle', hrest⟩ := generatedRows_spec schema text table rows rest st'
          (staged.insert (table, key) { row := some row'', isInsert := true })
        refine ⟨st'', hst'', hle.trans hle', fun v hv => ?_⟩
        rcases List.mem_append.mp hv with hv | hv
        · exact ⟨(hhead v hv).1, (hhead v hv).2.trans_le hle'⟩
        · exact ⟨hle.trans (hrest v hv).1, (hrest v hv).2⟩

theorem generatedRows_none (schema : Schema) (text table : String) (rows : Rows) :
    ∀ (new : List Row) (staged : Staged),
      (insertRows schema text table rows none new staged).1 = none ∧
        generatedRows schema text table rows none new staged = []
  | [], staged => ⟨rfl, rfl⟩
  | row :: rest, staged => by
    rw [insertRows, generatedRows, assignAutoInc]
    dsimp only [Option.bind_none, Option.toList_none, List.nil_append]
    cases schema.validateRow row with
    | error e => exact ⟨rfl, rfl⟩
    | ok row' =>
    dsimp only
    cases rowKey schema row' with
    | error e => exact ⟨rfl, rfl⟩
    | ok key =>
    dsimp only
    by_cases hdup : (staged.contains (text, key) || rows.contains (table, key)) = true
    · rw [if_pos hdup, if_pos hdup]
      exact ⟨rfl, rfl⟩
    · rw [if_neg hdup, if_neg hdup]
      exact generatedRows_none schema text table rows rest _

/-- A statement never lowers a counter, and what it generates lies behind it. -/
theorem generated_spec (schemas : Schemas) (incs : AutoIncs) (rows : Rows) (table : String)
    (stmt : Stmt) :
    (incs[table]? = none →
      (stmt.exec schemas incs rows).1[table]? = none ∧ stmt.generated schemas incs rows table = []) ∧
    ∀ st, incs[table]? = some st →
      ∃ st', (stmt.exec schemas incs rows).1[table]? = some st' ∧ st.next ≤ st'.next ∧
        ∀ v ∈ stmt.generated schemas incs rows table, st.next ≤ v ∧ v < st'.next := by
  have hsame : ∀ st, incs[table]? = some st → ∃ st', incs[table]? = some st' ∧
      st.next ≤ st'.next ∧ ∀ v ∈ ([] : List Nat), st.next ≤ v ∧ v < st'.next :=
    fun st hst => ⟨st, hst, le_rfl, fun v hv => by cases hv⟩
  cases stmt with
  | insert text name new fk =>
    rw [Stmt.exec, Stmt.generated]
    cases schemaOf schemas name with
    | error e =>
      dsimp only
      split <;> exact ⟨fun hnone => ⟨hnone, rfl⟩, hsame⟩
    | ok schema =>
      dsimp only
      by_cases hname : name = table
      · subst hname
        rw [if_pos rfl]
        refine ⟨fun hnone => ?_, fun st hst => ?_⟩
        · rw [hnone]
          obtain ⟨hinc, hvalues⟩ := generatedRows_none schema text name rows new ∅
          rw [hinc]
          exact ⟨hnone, hvalues⟩
        · rw [hst]
          obtain ⟨st', hst', hle, hvalues⟩ := generatedRows_spec schema text name
            rows new st ∅
          rw [hst']
          exact ⟨st', by simp, hle, hvalues⟩
      · rw [if_neg hname]
        have hother : ((insertRows schema text name rows incs[name]? new ∅).1.elim incs
            (incs.insert name))[table]? = incs[table]? := by
          cases (insertRows schema text name rows incs[name]? new ∅).1 with
          | none => rfl
          | some st => exact (ExtTreeMap.getElem?_insert ..).trans (by simp [hname])
        rw [hother]
        exact ⟨fun hnone => ⟨hnone, rfl⟩, hsame⟩
  | update | updatePoint | delete | select => exact ⟨fun hnone => ⟨hnone, rfl⟩, hsame⟩

/-! ## Restarts -/

def tableKeys (rows : Rows) (table : String) : List Bytes :=
  (rows.keys.filter fun k => k.1 = table).map Prod.snd

def intKey (key : Bytes) : Option Int64 :=
  match decodeKey key with
  | .ok (.int w) => some w
  | _ => none

/-- The engine and its files.  What concerns values is a ghost: those of one table that
were generated in the open transaction of a session, in the commits in flight, in the
entries of the log, and in the transactions that took effect. -/
structure Life where
  engine : Engine
  /-- The rows of `snapshot.bin`. -/
  image : Rows
  /-- The log since the snapshot. -/
  wal : List (Txn × List Nat)
  drafts : Nat → List Nat
  flown : List (List Nat)
  committed : List Nat

namespace Life

/-- A database that was opened. -/
def start (schemas : Schemas) (incs : AutoIncs) (rows : Rows) : Life where
  engine := Engine.start schemas incs rows
  image := rows
  wal := []
  drafts := fun _ => []
  flown := []
  committed := []

/-- The value is that of a transaction that took effect, or may still. -/
def Live (l : Life) (v : Nat) : Prop :=
  v ∈ l.committed ∨ (∃ r, v ∈ l.drafts r) ∨ ∃ values ∈ l.flown, v ∈ values

/-- The rows that are redone from the first `n` entries of the log. -/
def recovered (l : Life) (n : Nat) : Rows :=
  (l.wal.take n).foldl (fun rows e => view rows e.1.staged) l.image

/-- The values of the transactions that took effect, with those entries redone. -/
def settled (l : Life) (n : Nat) : List Nat := l.committed ++ (l.wal.take n).flatMap Prod.snd

def durable (l : Life) : Nat := l.wal.length - (l.engine.flights.filter fun f => !f.durable).length

/-- `Table::refresh_auto_inc` of every table. -/
def refreshed (l : Life) (n : Nat) : AutoIncs :=
  l.engine.autoIncs.map fun table st =>
    match st.refresh (tableKeys (l.recovered n) table) with
    | .ok st => st
    | .error _ => st

/-- `Database::open` after a crash that leaves the first `n` entries of the log. -/
def restart (l : Life) (n : Nat) : Option Life :=
  if l.durable ≤ n ∧ n ≤ l.wal.length ∧ l.engine.autoIncs.toList.all fun e =>
      (e.2.refresh (tableKeys (l.recovered n) e.1)).isOk then
    some
      { engine := Engine.start l.engine.schemas (l.refreshed n) (l.recovered n)
        image := l.image
        wal := l.wal.take n
        drafts := fun _ => []
        flown := []
        committed := l.settled n }
  else none

/-- `checkpoint`, whose scan is one step here. -/
def checkpoint (l : Life) : Life := { l with image := l.engine.rows, wal := [] }

section
variable (table : String)

/-- The values that a step of a session generates for the table. -/
def issued (l : Life) : Action → List Nat
  | .execute r stmt _ snap =>
    match l.engine.base snap with
    | none => []
    | some rows =>
      stmt.generated l.engine.schemas l.engine.autoIncs (view rows (l.engine.txnOf r).staged)
        table
  | _ => []

/-- The values of a statement that succeeds go to the transaction of its session. -/
def drafted (l : Life) (r : Nat) (stmt : Stmt) (autocommit : Bool) (snap : Option Nat) : List Nat :=
  let kept := match l.engine.sessions r with
    | .active _ => l.drafts r
    | _ => []
  match l.engine.base snap with
  | none => kept
  | some rows =>
    match (l.engine.attempt r stmt rows).2.result with
    | .error _ => kept
    | .ok _ => kept ++ l.issued table (.execute r stmt autocommit snap)

def session (l : Life) (a : Action) : Option Life :=
  (l.engine.step a).map fun engine =>
    match a with
    | .execute r stmt autocommit snap =>
      { l with
        engine := engine
        drafts := Function.update l.drafts r (l.drafted table r stmt autocommit snap) }
    | .begin r | .rollback r => { l with engine := engine, drafts := Function.update l.drafts r [] }
    | .append r =>
      let new := engine.flights.drop l.engine.flights.length
      { l with
        engine := engine
        wal := l.wal ++ new.map fun f => (f.txn, l.drafts r)
        flown := l.flown ++ new.map fun _ => l.drafts r
        drafts := Function.update l.drafts r [] }
    | .install =>
      { l with
        engine := engine
        flown := l.flown.tail
        committed := l.committed ++ l.flown.headD [] }
    | .commit _ | .sync _ | .finish _ => { l with engine := engine }

end

/-- What happens to a database. -/
inductive Event where
  | session (a : Action)
  | checkpoint
  | restart (n : Nat)

section
variable (table : String)

def step (l : Life) : Event → Option Life
  | .session a => l.session table a
  | .checkpoint => some l.checkpoint
  | .restart n => l.restart n

/-- Each value that was generated in a transaction that took effect is at most the key of a
row that is left. -/
def Spares (l : Life) (n : Nat) : Prop :=
  ∀ v ∈ l.settled n, ∃ w ∈ (tableKeys (l.recovered n) table).filterMap intKey, (v : Int) ≤ w.toInt

instance (l : Life) (n : Nat) : Decidable (l.Spares table n) :=
  inferInstanceAs (Decidable (∀ v ∈ _, ∃ w ∈ _, _))

def SparingStep (l l' : Life) : Prop :=
  ∃ event, l.step table event = some l' ∧ ∀ n, event = .restart n → l.Spares table n

/-- Every live value lies before the counter. -/
def Inv (l : Life) : Prop :=
  ∀ st, l.engine.autoIncs[table]? = some st → ∀ v, l.Live v → v < st.next

end

/-! ## What a step does to the counter -/

theorem commitTxn_autoIncs (s : Engine) (r : Nat) (t : Txn) :
    (s.commitTxn r t).autoIncs = s.autoIncs := by
  rw [Engine.commitTxn]
  split <;> rfl

theorem execute_autoIncs {s s' : Engine} {r : Nat} {stmt : Stmt} {autocommit : Bool}
    {snap : Option Nat} (h : s.execute r stmt autocommit snap = some s') :
    ∃ rows, s.base snap = some rows ∧
      s'.autoIncs = (stmt.exec s.schemas s.autoIncs (view rows (s.txnOf r).staged)).1 := by
  obtain ⟨rows, hrows, incs, e, hattempt, hend⟩ := Engine.execute_cases h
  refine ⟨rows, hrows, ?_⟩
  have hincs : (stmt.exec s.schemas s.autoIncs (view rows (s.txnOf r).staged)).1 = incs :=
    congrArg Prod.fst hattempt
  rw [hincs]
  rcases hend with ⟨-, rfl, -⟩ | hstage
  · rfl
  · rcases Engine.commitStagedOrStage_cases hstage with ⟨t, -, rfl⟩ | ⟨-, rfl | ⟨-, rfl⟩⟩
    · rfl
    · exact commitTxn_autoIncs ..
    · rfl

/-- Only statements move the counters. -/
theorem step_autoIncs {s s' : Engine} {a : Action} (h : s.step a = some s')
    (ha : ∀ r stmt autocommit snap, a ≠ .execute r stmt autocommit snap) :
    s'.autoIncs = s.autoIncs := by
  cases a with
  | execute r stmt autocommit snap => exact absurd rfl (ha r stmt autocommit snap)
  | begin r =>
    simp only [Engine.step, Engine.begin] at h
    split at h
    · cases h
      rfl
    · cases h
  | commit r =>
    simp only [Engine.step, Engine.commit] at h
    split at h
    · cases h
      exact commitTxn_autoIncs ..
    · cases h
  | rollback r =>
    simp only [Engine.step, Engine.rollback] at h
    split at h
    · cases h
      rfl
    · cases h
      rfl
    · cases h
  | append r =>
    simp only [Engine.step, Engine.append] at h
    split at h
    · split at h
      · cases h
        rfl
      · cases h
        rfl
    · cases h
  | sync n =>
    cases h
    rfl
  | install =>
    simp only [Engine.step, Engine.install] at h
    split at h
    · split at h
      · cases h
        rfl
      · cases h
    · cases h
  | finish i =>
    simp only [Engine.step, Engine.finish] at h
    split at h
    · cases h
      rfl
    · cases h

/-- The largest key is at least every key that was read. -/
theorem foldlM_maxKey : ∀ {keys : List Bytes} {m max : Option Nat},
    keys.foldlM Table.maxKey m = .ok max →
      (∀ a, m = some a → ∃ b, max = some b ∧ a ≤ b) ∧
      ∀ key ∈ keys, ∀ w : Int64, decodeKey key = .ok (.int w) → 0 ≤ w.toInt →
        ∃ b, max = some b ∧ w.toInt.toNat ≤ b
  | [], m, max, h => by
    cases h
    exact ⟨fun a ha => ⟨a, ha, le_rfl⟩, fun key hkey => absurd hkey List.not_mem_nil⟩
  | key :: keys, m, max, h => by
    rw [List.foldlM_cons] at h
    obtain ⟨m', hm', hrest⟩ := Outcome.bind_ok h
    obtain ⟨hgrows, hkeys⟩ := foldlM_maxKey hrest
    have hstep : (∀ a, m = some a → ∃ b, m' = some b ∧ a ≤ b) ∧
        ∀ w : Int64, decodeKey key = .ok (.int w) → 0 ≤ w.toInt →
          ∃ b, m' = some b ∧ w.toInt.toNat ≤ b := by
      rw [Table.maxKey] at hm'
      cases hv : decodeKey key with
      | error e =>
        rw [hv] at hm'
        cases e with
        | panic => cases hm'
        | err _ =>
          cases hm'
          exact ⟨fun a ha => ⟨a, ha, le_rfl⟩, fun w hw => nomatch hw⟩
      | ok d =>
        rw [hv] at hm'
        cases d with
        | int v =>
          dsimp only at hm'
          split at hm'
          · cases hm'
            refine ⟨fun a ha => ?_, fun w hw _ => ?_⟩
            · subst ha
              exact ⟨_, rfl, Nat.le_max_right ..⟩
            · obtain rfl := Datum.int.inj (Except.ok.inj hw)
              cases m with
              | none => exact ⟨_, rfl, le_rfl⟩
              | some a => exact ⟨_, rfl, Nat.le_max_left ..⟩
          · next hneg =>
            cases hm'
            refine ⟨fun a ha => ⟨a, ha, le_rfl⟩, fun w hw hw0 => ?_⟩
            obtain rfl := Datum.int.inj (Except.ok.inj hw)
            exact absurd hw0 hneg
        | _ =>
          cases hm'
          exact ⟨fun a ha => ⟨a, ha, le_rfl⟩, fun w hw => nomatch hw⟩
    refine ⟨fun a ha => ?_, fun key' hkey' w hw hw0 => ?_⟩
    · obtain ⟨b, hb, hab⟩ := hstep.1 a ha
      obtain ⟨c, hc, hbc⟩ := hgrows b hb
      exact ⟨c, hc, hab.trans hbc⟩
    · rcases List.mem_cons.mp hkey' with rfl | hkey'
      · obtain ⟨b, hb, hwb⟩ := hstep.2 w hw hw0
        obtain ⟨c, hc, hbc⟩ := hgrows b hb
        exact ⟨c, hc, hwb.trans hbc⟩
      · exact hkeys key' hkey' w hw hw0

theorem decodeKey_of_intKey {key : Bytes} {w : Int64} (h : intKey key = some w) :
    decodeKey key = .ok (.int w) := by
  rw [intKey] at h
  split at h
  · next v hv =>
    cases h
    exact hv
  · cases h

/-- The counter that is rebuilt lies behind every key. -/
theorem lt_refresh {st st' : AutoIncState} {keys : List Bytes} (h : st.refresh keys = .ok st')
    {key : Bytes} (hkey : key ∈ keys) {w : Int64} (hw : decodeKey key = .ok (.int w)) {v : Nat}
    (hv : (v : Int) ≤ w.toInt) : v < st'.next := by
  rw [AutoIncState.refresh] at h
  obtain ⟨max, hmax, h⟩ := Outcome.bind_ok h
  cases h
  obtain ⟨b, rfl, hb⟩ := (foldlM_maxKey hmax).2 key hkey w hw (by omega)
  have hlt := w.toInt_lt
  rw [Option.elim_some, Nat.lt_iff_add_one_le]
  exact Nat.le_min.mpr ⟨by omega, by rw [Table.u64Max]; omega⟩

section
variable {table : String} {l l' : Life}

theorem Inv.of_autoIncs (h : l.Inv table) (hincs : l'.engine.autoIncs = l.engine.autoIncs)
    (hlive : ∀ v, l'.Live v → l.Live v) : l'.Inv table := by
  intro st hst v hv
  rw [hincs] at hst
  exact h st hst v (hlive v hv)

theorem mem_update {r : Nat} {values : List Nat} {v : Nat}
    (h : ∃ r', v ∈ Function.update l.drafts r values r') :
    v ∈ values ∨ ∃ r', v ∈ l.drafts r' := by
  obtain ⟨r', hr'⟩ := h
  rw [Function.update_apply] at hr'
  split at hr'
  · exact .inl hr'
  · exact .inr ⟨r', hr'⟩

/-- What the transaction of a session has after a statement. -/
theorem mem_drafted {r : Nat} {stmt : Stmt} {autocommit : Bool} {snap : Option Nat} {v : Nat}
    (h : v ∈ l.drafted table r stmt autocommit snap) :
    v ∈ l.drafts r ∨ v ∈ l.issued table (.execute r stmt autocommit snap) := by
  have hkept : ∀ {v : Nat}, (v ∈ match l.engine.sessions r with
      | .active _ => l.drafts r
      | _ => []) → v ∈ l.drafts r := by
    intro v hv
    split at hv
    · exact hv
    · cases hv
  rw [drafted] at h
  split at h
  · exact .inl (hkept h)
  · split at h
    · exact .inl (hkept h)
    · rcases List.mem_append.mp h with h | h
      · exact .inl (hkept h)
      · exact .inr h

/-- A statement generates values behind the counter and moves it past them. -/
theorem Inv.execute {r : Nat} {stmt : Stmt} {autocommit : Bool} {snap : Option Nat}
    (h : l.Inv table) (hs : l.session table (.execute r stmt autocommit snap) = some l') :
    l'.Inv table := by
  obtain ⟨engine, hengine, rfl⟩ := Option.map_eq_some_iff.mp hs
  obtain ⟨rows, hrows, hincs⟩ := execute_autoIncs hengine
  obtain ⟨hnone, hsome⟩ := generated_spec l.engine.schemas l.engine.autoIncs
    (view rows (l.engine.txnOf r).staged) table stmt
  intro st hst v hv
  dsimp only at hst
  rw [hincs] at hst
  cases hold : l.engine.autoIncs[table]? with
  | none =>
    rw [(hnone hold).1] at hst
    cases hst
  | some st₀ =>
    obtain ⟨st', hst', hle, hvalues⟩ := hsome st₀ hold
    obtain rfl := Option.some.inj (hst'.symm.trans hst)
    have hbefore : ∀ {v : Nat}, l.Live v → v < st'.next := fun hv => (h st₀ hold _ hv).trans_le hle
    rcases hv with hv | hv | hv
    · exact hbefore (.inl hv)
    · rcases mem_update hv with hv | hv
      · rcases mem_drafted hv with hv | hv
        · exact hbefore (.inr (.inl ⟨r, hv⟩))
        · rw [issued, hrows] at hv
          exact (hvalues v hv).2
      · exact hbefore (.inr (.inl hv))
    · exact hbefore (.inr (.inr hv))

theorem Inv.session {a : Action} (h : l.Inv table) (hs : l.session table a = some l') :
    l'.Inv table := by
  have hrest : (∀ r stmt autocommit snap, a ≠ .execute r stmt autocommit snap) →
      (∀ v, l'.Live v → l.Live v) → l'.Inv table := by
    intro ha hlive
    obtain ⟨engine, hengine, hl'⟩ := Option.map_eq_some_iff.mp hs
    refine h.of_autoIncs ?_ hlive
    rw [← step_autoIncs hengine ha, ← hl']
    cases a <;> rfl
  obtain ⟨engine, hengine, hl'⟩ := Option.map_eq_some_iff.mp hs
  cases a with
  | execute r stmt autocommit snap => exact h.execute hs
  | begin r | rollback r =>
    subst hl'
    refine hrest (fun _ _ _ _ => by simp) fun v hv => ?_
    rcases hv with hv | hv | hv
    · exact .inl hv
    · rcases mem_update hv with hv | hv
      · cases hv
      · exact .inr (.inl hv)
    · exact .inr (.inr hv)
  | append r =>
    subst hl'
    refine hrest (fun _ _ _ _ => by simp) fun v hv => ?_
    rcases hv with hv | hv | ⟨values, hvalues, hv⟩
    · exact .inl hv
    · rcases mem_update hv with hv | hv
      · cases hv
      · exact .inr (.inl hv)
    · rcases List.mem_append.mp hvalues with hvalues | hvalues
      · exact .inr (.inr ⟨values, hvalues, hv⟩)
      · obtain ⟨_, -, rfl⟩ := List.mem_map.mp hvalues
        exact .inr (.inl ⟨r, hv⟩)
  | install =>
    subst hl'
    refine hrest (fun _ _ _ _ => by simp) fun v hv => ?_
    rcases hv with hv | hv | ⟨values, hvalues, hv⟩
    · rcases List.mem_append.mp hv with hv | hv
      · exact .inl hv
      · cases hflown : l.flown with
        | nil =>
          rw [hflown] at hv
          cases hv
        | cons values rest =>
          rw [hflown] at hv
          exact .inr (.inr ⟨values, by rw [hflown]; exact List.mem_cons_self .., hv⟩)
    · exact .inr (.inl hv)
    · exact .inr (.inr ⟨values, List.mem_of_mem_tail hvalues, hv⟩)
  | commit r | sync n | finish i =>
    subst hl'
    exact hrest (fun _ _ _ _ => by simp) fun v hv => hv

/-- The counter that a restart rebuilds lies behind the values of what took effect, if rows
at or behind them are left. -/
theorem Inv.restart {n : Nat} (hs : l.restart n = some l') (hspares : l.Spares table n) :
    l'.Inv table := by
  rw [Life.restart] at hs
  split at hs
  · next hall =>
    cases hs
    intro st hst v hv
    have hsettled : v ∈ l.settled n := by
      rcases hv with hv | ⟨r, hv⟩ | ⟨values, hvalues, -⟩
      · exact hv
      · cases hv
      · cases hvalues
    obtain ⟨w, hw, hle⟩ := hspares v hsettled
    obtain ⟨key, hkey, hw⟩ := List.mem_filterMap.mp hw
    change (l.refreshed n)[table]? = some st at hst
    rw [refreshed, ExtTreeMap.getElem?_map, Option.map_eq_some_iff] at hst
    obtain ⟨st₀, hst₀, rfl⟩ := hst
    have hok := List.all_eq_true.mp hall.2.2 (table, st₀)
      (ExtTreeMap.mem_toList_iff_getElem?_eq_some.mpr hst₀)
    dsimp only at hok
    cases hrefresh : st₀.refresh (tableKeys (l.recovered n) table) with
    | error e =>
      rw [hrefresh] at hok
      cases hok
    | ok st' => exact lt_refresh hrefresh hkey (decodeKey_of_intKey hw) hle
  · cases hs

theorem inv_start (schemas : Schemas) (incs : AutoIncs) (rows : Rows) :
    (start schemas incs rows).Inv table := by
  rintro st - v (hv | ⟨r, hv⟩ | ⟨values, hvalues, -⟩)
  · cases hv
  · cases hv
  · cases hvalues

theorem Inv.sparingStep (h : l.Inv table) (hs : l.SparingStep table l') : l'.Inv table := by
  obtain ⟨event, hstep, hspares⟩ := hs
  cases event with
  | session a => exact h.session hstep
  | checkpoint =>
    cases hstep
    exact h
  | restart n => exact Inv.restart hstep (hspares n rfl)

/-- In every run in which each restart finds a row at or behind every value that was
generated and committed, no step generates such a value again, nor one of a transaction
that may still commit. -/
theorem never_reissued (schemas : Schemas) (incs : AutoIncs) (rows : Rows)
    (h : ReflTransGen (SparingStep table) (start schemas incs rows) l) (a : Action) :
    ∀ v ∈ l.issued table a, ¬ l.Live v := by
  have hinv : l.Inv table := Transition.invariant (P := Inv table) (inv_start schemas incs rows)
    (fun _ _ hi hs => hi.sparingStep hs) h
  intro v hv hlive
  cases a with
  | execute r stmt autocommit snap =>
    rw [issued] at hv
    split at hv
    · cases hv
    · next rows' hrows =>
      obtain ⟨hnone, hsome⟩ := generated_spec l.engine.schemas l.engine.autoIncs
        (view rows' (l.engine.txnOf r).staged) table stmt
      cases hst : l.engine.autoIncs[table]? with
      | none =>
        rw [(hnone hst).2] at hv
        cases hv
      | some st =>
        obtain ⟨st', -, -, hvalues⟩ := hsome st hst
        have hlt := hinv st hst v hlive
        have hle := (hvalues v hv).1
        omega
  | begin | commit | rollback | append | sync | install | finish => cases hv

end

/-! ## Two restarts -/

/-- A table with a sequence. -/
def orders : Schema where
  columns :=
    [{ name := "id", ctype := .int, nullable := false, autoIncrement := true, defaultValue := none }]
  pkIdx := 0

/-- A database with that table. -/
def ordersLife : Life :=
  start ((∅ : Schemas).insert "default.orders" orders)
    ((∅ : AutoIncs).insert "default.orders" { colIdx := 0, next := 1 }) ∅

/-- `INSERT INTO orders VALUES (NULL)`. -/
def insertOrder : Action :=
  .execute 0 (.insert "orders" "default.orders" [[.null]] fun _ => .ok ()) true none

def deleteOrders : Action :=
  .execute 0 (.delete "default.orders" (fun _ _ => true) fun _ => .ok []) true none

/-- A statement with its commit. -/
def committing (a : Action) : List Event :=
  [.session a, .session (.append 0), .session (.sync 1), .session .install, .session (.finish 0)]

/-- A step of `SparingStep`. -/
def sparingNext (table : String) (event : Event) (l : Life) : Option Life :=
  match event with
  | .restart n => if l.Spares table n then l.restart n else none
  | event => l.step table event

theorem sparingStep_of_next (table : String) (event : Event) (l l' : Life)
    (h : sparingNext table event l = some l') : SparingStep table l l' := by
  cases event with
  | restart n =>
    rw [sparingNext] at h
    split at h
    · next hspares =>
      refine ⟨.restart n, h, fun m hm => ?_⟩
      obtain rfl := Event.restart.inj hm
      exact hspares
    · cases h
  | session a => exact ⟨.session a, h, fun n hn => by cases hn⟩
  | checkpoint => exact ⟨.checkpoint, h, fun n hn => by cases hn⟩

/-- The values that took effect, and those of the next order. -/
def givenAndNext (l : Life) : List Nat × List Nat :=
  (l.committed, l.issued "default.orders" insertOrder)

theorem keptOrder_runs :
    (Transition.exec (sparingNext "default.orders") (fun _ => true)
      (committing insertOrder ++ [.checkpoint, .restart 0]) ordersLife).map givenAndNext =
        some ([1], [2]) := by
  decide +kernel

/-- An order survives a checkpoint and a restart; the next one has another number. -/
theorem kept_order_never_reissued :
    ∃ l, ReflTransGen (SparingStep "default.orders") ordersLife l ∧
      1 ∈ l.committed ∧ l.issued "default.orders" insertOrder = [2] ∧
        ∀ v ∈ l.issued "default.orders" insertOrder, ¬ l.Live v := by
  obtain ⟨l, hexec, hends⟩ := Option.map_eq_some_iff.mp keptOrder_runs
  have hrun : ReflTransGen (SparingStep "default.orders") ordersLife l :=
    Transition.exec_runs (sparingStep_of_next "default.orders") hexec
  obtain ⟨hcommitted, hissued⟩ := Prod.mk.inj hends
  exact ⟨l, hrun, by rw [hcommitted]; exact List.mem_singleton_self 1, hissued,
    never_reissued _ _ _ hrun insertOrder⟩

theorem deletedOrder_runs :
    (Transition.exec (fun event l => step "default.orders" l event) (fun _ => true)
      (committing insertOrder ++ committing deleteOrders ++ [.restart 2]) ordersLife).map
        givenAndNext = some ([1, 1], [1]) := by
  decide +kernel

/-- An order is deleted before the restart: the next one has its number again. -/
theorem deleted_order_reissued :
    ¬ ∀ (table : String) (schemas : Schemas) (incs : AutoIncs) (rows : Rows) (l : Life),
      ReflTransGen (fun l l' => ∃ event, l.step table event = some l')
        (start schemas incs rows) l → ∀ a, ∀ v ∈ l.issued table a, v ∉ l.committed := by
  intro hfresh
  obtain ⟨l, hexec, hends⟩ := Option.map_eq_some_iff.mp deletedOrder_runs
  have hrun : ReflTransGen (fun l l' => ∃ event, l.step "default.orders" event = some l')
      ordersLife l := Transition.exec_runs (fun event l l' h => ⟨event, h⟩) hexec
  obtain ⟨hcommitted, hissued⟩ := Prod.mk.inj hends
  have hnew := hfresh _ _ _ _ l hrun insertOrder 1 (by
    rw [hissued]
    exact List.mem_singleton_self 1)
  rw [hcommitted] at hnew
  exact hnew (List.mem_cons_self ..)

end Life

end Session
end HenchDB
