import HenchDB.Session.Columns
import HenchDB.Session.Isolation

/-!
# The last assignment of a column

A commit installs the rows that an `UPDATE` staged over whatever they are by
then.  So the columns that it did not set go back to what the `UPDATE` read,
and a row that it left alone, because it read the values that it was to set,
is not written at all.

What a column holds is compared with the value of the last transaction in the
log that assigned it (`lastAssigned`).  They agree as long as every `UPDATE`
has, when its transaction is appended, read the columns it writes back as they
are in the rows it will be installed over (`Current`).
-/

namespace HenchDB.Session

open Std (ExtTreeMap)
open Relation (ReflTransGen)

/-! ## Statements and transactions column by column -/

namespace Executed

variable {schemas : Schemas} {e : Executed} {rows : Rows} {k : TKey} {i : Nat}

/-- What a statement other than an `INSERT` stages, key by key. -/
theorem Ran.update (h : e.Ran schemas) (hstmt : ∀ text table new fk, e.stmt ≠ .insert text table new fk)
    (k : TKey) :
    if e.updates k = true then
      ∃ schema row, schemas[k.1]? = some schema ∧ lastLiteral e.stmt.set schema.pkIdx = none ∧
        e.seen[k]? = some row ∧ StagesUpdate schema e.stmt.set row e.staged[k]?
    else e.staged[k]? = none := by
  obtain ⟨incs, hresult⟩ := h.result
  have hassigns := h.assigns
  have hkept := h.seen
  obtain ⟨stmt, seen, result⟩ := e
  dsimp only at hresult hassigns hkept hstmt ⊢
  cases result with
  | error err =>
    have hnone : updates ⟨stmt, seen, .error err⟩ k = false := by
      cases stmt <;> rfl
    rw [hnone, if_neg (by simp)]
    simp [staged]
  | ok p =>
    obtain ⟨st, output⟩ := p
    cases stmt with
    | insert text table new fk => exact absurd rfl (hstmt text table new fk)
    | update table cond set fk =>
      obtain ⟨schema, hschema, hresult⟩ := Outcome.bind_ok hresult
      obtain ⟨st', hst', hresult⟩ := Outcome.bind_ok hresult
      obtain ⟨actions, hactions, hresult⟩ := Outcome.bind_ok hresult
      cases hresult
      rw [hassigns.2 seen actions hactions]
      unfold schemaOf at hschema
      split at hschema
      · next schema' hschema' =>
        obtain rfl := Except.ok.inj hschema
        have hset := hassigns.1 schema' hschema'
        have hspec := updateRows_matching hkept hschema' hset hst' k
        simp only [updates, Bool.and_eq_true, decide_eq_true_eq]
        split at hspec
        · next hsel =>
          rw [if_pos hsel]
          obtain ⟨row, hrow, hstages⟩ := hspec
          refine ⟨schema', row, ?_, hset, hrow, hstages⟩
          rw [hsel.1]
          exact hschema'
        · next hsel =>
          rw [if_neg hsel]
          exact hspec
      · cases hschema
    | updatePoint table key set =>
      obtain ⟨schema, hschema, hresult⟩ := Outcome.bind_ok hresult
      obtain ⟨st', hst', hresult⟩ := Outcome.bind_ok hresult
      cases hresult
      unfold schemaOf at hschema
      split at hschema
      · next schema' hschema' =>
        obtain rfl := Except.ok.inj hschema
        have hspec := updateKey_staged hst' k
        simp only [updates, Bool.and_eq_true, decide_eq_true_eq]
        split at hspec
        · next hsel =>
          rw [if_pos hsel]
          obtain ⟨row, hrow, hstages⟩ := hspec
          refine ⟨schema', row, ?_, hassigns schema' hschema', hrow, hstages⟩
          rw [hsel.1]
          exact hschema'
        · next hsel =>
          rw [if_neg hsel]
          exact hspec
      · cases hschema
    | delete table cond fk => exact hassigns.elim
    | select query =>
      cases hresult
      rw [if_neg (by simp [updates])]
      simp [staged]

variable {fk : Rows → Except StmtError Unit}

/-- An `INSERT` stages rows that the schema accepted, under their keys. -/
theorem Ran.insert (h : e.Ran schemas) {text table : String} {new : List Row}
    (hstmt : e.stmt = .insert text table new fk) :
    StagedKept schemas e.staged := by
  obtain ⟨incs, hresult⟩ := h.result
  rw [hstmt] at hresult
  unfold staged
  split
  · next st output hok =>
    rw [hok] at hresult
    obtain ⟨schema, hschema, hrows⟩ := Stmt.exec_insert_ok hresult
    refine insertRows_keeps (P := StagedKept schemas) ?_ hrows (fun k w hw => by simp at hw)
    intro staged row key hvalid hkey _ hstaged k w hw
    obtain ⟨given, hvalid⟩ := hvalid
    rw [ExtTreeMap.getElem?_insert] at hw
    split at hw
    · next heq =>
      cases Std.compare_eq_iff_eq.mp heq
      cases hw
      exact ⟨row, rfl, schema, hschema, Schema.validateRow_normal hvalid, hkey⟩
    · exact hstaged k w hw
  · intro k w hw
    simp at hw

/-- Every statement stages such rows. -/
theorem Ran.staged (h : e.Ran schemas) : StagedKept schemas e.staged := by
  by_cases hinsert : ∃ text table new fk, e.stmt = .insert text table new fk
  · obtain ⟨text, table, new, fk, hstmt⟩ := hinsert
    exact h.insert hstmt
  · intro k w hw
    have hspec := h.update (fun text table new fk hstmt => hinsert ⟨text, table, new, fk, hstmt⟩) k
    split at hspec
    · obtain ⟨schema, row, hschema, hset, hrow, hstages⟩ := hspec
      obtain ⟨schema', hschema', hnormal, hkey⟩ := h.seen k row hrow
      rw [hschema] at hschema'
      cases hschema'
      unfold StagesUpdate at hstages
      split at hstages
      · rw [hstages] at hw
        cases hw
      · next new hnew =>
        obtain ⟨row', hvalid, hw'⟩ := hstages
        rw [hw'] at hw
        cases hw
        have hassigned : schema.validateRow (assignColumns row e.stmt.set).1 = .ok row' := by
          rw [hnew]
          exact hvalid
        refine ⟨row', rfl, schema, hschema, Schema.validateRow_normal hvalid, ?_⟩
        rw [rowKey_of_assign hnormal hassigned hset]
        exact hkey
    · rw [hspec] at hw
      cases hw

/-- The columns that an `UPDATE` wrote back without setting them, and those it
set without writing the row, hold in the rows given what it read. -/
def Current (schemas : Schemas) (rows : Rows) (e : Executed) : Prop :=
  ∀ k i, e.updates k = true → e.staged.contains k = (e.assigned schemas k i).isNone →
    cell rows k i = cell e.seen k i

theorem assigned_of_not_insert (hstmt : ∀ text table new fk, e.stmt ≠ .insert text table new fk) :
    e.assigned schemas k i =
      if e.updates k then schemas[k.1]?.bind fun schema => Session.assigned schema e.stmt.set i
      else none := by
  unfold assigned
  split
  · next text table new fk heq => exact absurd heq (hstmt text table new fk)
  · rfl

theorem Ran.cell_view_insert (h : e.Ran schemas) (hkept : WellKept schemas rows)
    {text table : String} {new : List Row} (hstmt : e.stmt = .insert text table new fk) :
    cell (view rows e.staged) k i = (e.assigned schemas k i).or (cell rows k i) := by
  have hassigned : e.assigned schemas k i =
      (e.staged[k]?.bind StagedWrite.row).bind fun row => Row.cell row i := by
    rw [assigned, hstmt]
  rw [hassigned, cell, getElem?_view]
  rcases Option.eq_none_or_eq_some e.staged[k]? with hnone | ⟨w, hw⟩
  · rw [hnone]
    rfl
  · obtain ⟨row, hrow, schema, hschema, hnormal, -⟩ := h.insert hstmt k w hw
    rw [hw, Option.map_some, Option.getD_some, Option.bind_some, hrow, Option.bind_some]
    rcases Nat.lt_or_ge i row.length with hlt | hge
    · rw [Row.cell, List.getElem?_eq_getElem hlt]
      rfl
    · -- A row that is already there has the same width.
      have hcell : row.cell i = none := by
        rw [Row.cell, List.getElem?_eq_none hge]
        rfl
      rw [hcell, Option.none_or, cell]
      rcases Option.eq_none_or_eq_some rows[k]? with hfree | ⟨old, hold⟩
      · rw [hfree]
        rfl
      · obtain ⟨schema', hschema', hnormal', -⟩ := hkept k old hold
        rw [hschema] at hschema'
        cases hschema'
        rw [hold, Option.bind_some, Row.cell,
          List.getElem?_eq_none (by rw [hnormal'.width, ← hnormal.width]; exact hge)]
        rfl

theorem Ran.cell_view_update (h : e.Ran schemas) (hcurrent : e.Current schemas rows)
    (hstmt : ∀ text table new fk, e.stmt ≠ .insert text table new fk) :
    cell (view rows e.staged) k i = (e.assigned schemas k i).or (cell rows k i) := by
  have hspec := h.update hstmt k
  have hnow := hcurrent k i
  rw [assigned_of_not_insert hstmt] at hnow ⊢
  rw [cell, getElem?_view]
  split at hspec
  · next hsel =>
    obtain ⟨schema, row, hschema, hset, hrow, hstages⟩ := hspec
    obtain ⟨schema', hschema', hnormal, -⟩ := h.seen k row hrow
    rw [hschema] at hschema'
    cases hschema'
    have hseen : cell e.seen k i = row.cell i := by
      rw [cell, hrow]
      rfl
    rw [hseen, if_pos hsel, hschema, Option.bind_some, ExtTreeMap.contains_eq_isSome_getElem?] at hnow
    rw [if_pos hsel, hschema, Option.bind_some]
    unfold StagesUpdate at hstages
    split at hstages
    · next hsame =>
      rw [hstages] at hnow ⊢
      cases hvalue : Session.assigned schema e.stmt.set i with
      | none => rfl
      | some d =>
        rw [hvalue] at hnow
        show cell rows k i = some d
        rw [hnow hsel rfl]
        exact cell_of_unchanged hnormal (congrArg Prod.snd hsame) hvalue
    · next new hnew =>
      obtain ⟨row', hvalid, hw⟩ := hstages
      have hassigned : schema.validateRow (assignColumns row e.stmt.set).1 = .ok row' := by
        rw [hnew]
        exact hvalid
      rw [hw] at hnow ⊢
      show Row.cell row' i = _
      rw [cell_of_changed hnormal hassigned]
      cases hvalue : Session.assigned schema e.stmt.set i with
      | none =>
        rw [hvalue] at hnow
        exact (hnow hsel rfl).symm
      | some d => rfl
  · next hsel =>
    rw [hspec, if_neg hsel]
    rfl

/-- Installed over rows on which it is current, a statement leaves in every
column the value that it gave it, or what was there. -/
theorem Ran.cell_view (h : e.Ran schemas) (hkept : WellKept schemas rows)
    (hcurrent : e.Current schemas rows) (k : TKey) (i : Nat) :
    cell (view rows e.staged) k i = (e.assigned schemas k i).or (cell rows k i) := by
  by_cases hinsert : ∃ text table new fk, e.stmt = .insert text table new fk
  · obtain ⟨text, table, new, fk, hstmt⟩ := hinsert
    exact h.cell_view_insert hkept hstmt
  · exact h.cell_view_update hcurrent fun text table new fk hstmt =>
      hinsert ⟨text, table, new, fk, hstmt⟩

end Executed

theorem WellKept.view {schemas : Schemas} {rows : Rows} {staged : Staged} (h : WellKept schemas rows)
    (hstaged : StagedKept schemas staged) : WellKept schemas (view rows staged) := by
  intro k row hrow
  rw [getElem?_view] at hrow
  rcases Option.eq_none_or_eq_some staged[k]? with hnone | ⟨w, hw⟩
  · rw [hnone] at hrow
    exact h k row hrow
  · obtain ⟨row', hrow', hkept⟩ := hstaged k w hw
    rw [hw, Option.map_some, Option.getD_some, hrow'] at hrow
    cases hrow
    exact hkept

theorem StagedKept.extend {schemas : Schemas} {staged more : Staged} (h : StagedKept schemas staged)
    (hmore : StagedKept schemas more) : StagedKept schemas (staged.extend more) := by
  intro k w hw
  rw [getElem?_extend] at hw
  rcases Option.or_eq_some_iff.mp hw with hw | ⟨-, hw⟩
  · exact hmore k w hw
  · exact h k w hw

/-! ## Transactions -/

/-- The value that some statements gave a column of a row, the last one first. -/
def lastOf {α : Type} (value : α → Option Datum) (l : List α) : Option Datum :=
  l.foldl (fun last a => (value a).or last) none

theorem lastOf_concat {α : Type} (value : α → Option Datum) (l : List α) (a : α) :
    lastOf value (l ++ [a]) = (value a).or (lastOf value l) := by
  rw [lastOf, List.foldl_append]
  rfl

/-- The value that a transaction gave a column of a row. -/
def Txn.assigned (schemas : Schemas) (t : Txn) (k : TKey) (i : Nat) : Option Datum :=
  lastOf (fun e => e.assigned schemas k i) t.trace

/-- The value of the last transaction that assigned a column of a row. -/
def lastAssigned (schemas : Schemas) (log : List Txn) (k : TKey) (i : Nat) : Option Datum :=
  lastOf (fun t => t.assigned schemas k i) log

/-- Every statement is current over the rows with what the transaction staged
before it. -/
def Current (schemas : Schemas) (rows : Rows) : Staged → List Executed → Prop
  | _, [] => True
  | staged, e :: rest =>
    e.Current schemas (view rows staged) ∧ Current schemas rows (staged.extend e.staged) rest

/-- A transaction whose statements ran on rows that are well kept. -/
structure RanTxn (schemas : Schemas) (t : Txn) : Prop where
  ran : ∀ e ∈ t.trace, e.Ran schemas
  staged_eq : t.staged = t.trace.foldl (fun st e => st.extend e.staged) ∅
  staged : StagedKept schemas t.staged

section Txns

variable {schemas : Schemas} {t : Txn} {rows : Rows}

theorem ranTxn_empty : RanTxn schemas .empty where
  ran := by simp [Txn.empty]
  staged_eq := rfl
  staged := fun k w hw => by simp [Txn.empty] at hw

theorem RanTxn.run {e : Executed} (h : RanTxn schemas t) (he : e.Ran schemas) :
    RanTxn schemas (t.run e) where
  ran := by
    intro e' he'
    rcases List.mem_append.mp he' with he' | he'
    · exact h.ran e' he'
    · rw [List.mem_singleton.mp he']
      exact he
  staged_eq := by
    rw [Txn.run, h.staged_eq, List.foldl_append]
    rfl
  staged := h.staged.extend he.staged

/-- The statements of a transaction one after the other. -/
theorem cell_of_trace {trace : List Executed} :
    ∀ {staged : Staged} (last : Option Datum) {k : TKey} {i : Nat},
    (∀ e ∈ trace, e.Ran schemas) → StagedKept schemas staged → WellKept schemas rows →
    Current schemas rows staged trace →
    cell (view rows staged) k i = last.or (cell rows k i) →
      cell (view rows (trace.foldl (fun st e => st.extend e.staged) staged)) k i =
        (trace.foldl (fun last e => (e.assigned schemas k i).or last) last).or (cell rows k i) := by
  induction trace with
  | nil =>
    intro staged last k i _ _ _ _ h
    exact h
  | cons e rest ih =>
    intro staged last k i hran hstaged hrows hcurrent h
    have he := hran e (by simp)
    refine ih _ (fun e' he' => hran e' (by simp [he'])) (hstaged.extend he.staged) hrows hcurrent.2 ?_
    rw [view_extend, he.cell_view (hrows.view hstaged) hcurrent.1, h, Option.or_assoc]

/-- What the install of a transaction leaves in a column. -/
theorem RanTxn.cell_view (h : RanTxn schemas t) (hrows : WellKept schemas rows)
    (hcurrent : Current schemas rows ∅ t.trace) (k : TKey) (i : Nat) :
    cell (view rows t.staged) k i = (t.assigned schemas k i).or (cell rows k i) := by
  rw [h.staged_eq]
  refine cell_of_trace none h.ran (fun k w hw => by simp at hw) hrows hcurrent ?_
  rw [view_empty]
  rfl

end Txns

/-! ## Runs -/

namespace Engine

variable {schemas : Schemas} {incs₀ : AutoIncs} {rows₀ : Rows} {s s' : Engine}

/-- A step of sessions that insert rows and set columns other than the key. -/
def AssigningStep (schemas : Schemas) (s s' : Engine) : Prop :=
  ∃ a, s.step a = some s' ∧ ∀ r stmt autocommit snap, a = .execute r stmt autocommit snap →
    stmt.AssignsColumns schemas

/-- One in which, when a transaction is appended, its statements are current
over everything appended before. -/
def CurrentStep (schemas : Schemas) (s s' : Engine) : Prop :=
  ∃ a, s.step a = some s' ∧
    (∀ r stmt autocommit snap, a = .execute r stmt autocommit snap → stmt.AssignsColumns schemas) ∧
    ∀ r t, a = .append r → s.sessions r = .committing t → Current schemas s.logRows ∅ t.trace

/-- When nothing is in flight, every column holds the value of the last
transaction in the log that assigned it, or what it held at the start. -/
def AssignmentsHold (schemas : Schemas) (rows₀ : Rows) (s : Engine) : Prop :=
  s.flights = [] → ∀ k i, cell s.rows k i = (lastAssigned schemas s.log k i).or (cell rows₀ k i)

/-- Every transaction in flight is current over the rows it will be installed
over. -/
def FlightsCurrent (schemas : Schemas) : Rows → List Txn → Prop
  | _, [] => True
  | rows, t :: rest =>
    Current schemas rows ∅ t.trace ∧ FlightsCurrent schemas (view rows t.staged) rest

theorem flightsCurrent_append : ∀ {txns : List Txn} {rows : Rows} {t : Txn},
    FlightsCurrent schemas rows txns →
    Current schemas (txns.foldl (fun rows t => view rows t.staged) rows) ∅ t.trace →
      FlightsCurrent schemas rows (txns ++ [t])
  | [], _, _, _, ht => ⟨ht, trivial⟩
  | _ :: _, _, _, h, ht => ⟨h.1, flightsCurrent_append h.2 ht⟩

/-- Every reachable state. -/
structure Assigned (schemas : Schemas) (rows₀ : Rows) (s : Engine) : Prop where
  schemas_eq : s.schemas = schemas
  rows : WellKept schemas s.rows
  past : ∀ rows ∈ s.past, WellKept schemas rows
  txns : AllTxns (RanTxn schemas) s
  current : FlightsCurrent schemas s.rows (s.flights.map Flight.txn)
  cells : ∃ done, s.log = done ++ s.flights.map Flight.txn ∧
    ∀ k i, cell s.rows k i = (lastAssigned schemas done k i).or (cell rows₀ k i)

theorem assigned_start (hrows : WellKept schemas rows₀) :
    Assigned schemas rows₀ (start schemas incs₀ rows₀) where
  schemas_eq := rfl
  rows := hrows
  past := by simp [start]
  txns := ⟨by simp [start], by simp [start]⟩
  current := trivial
  cells := ⟨[], rfl, fun _ _ => rfl⟩

variable {rows : Rows} {e : Executed}

theorem Assigned.base {snap : Option Nat} (h : Assigned schemas rows₀ s)
    (hrows : s.base snap = some rows) : WellKept schemas rows := by
  cases snap with
  | none =>
    cases hrows
    exact h.rows
  | some i => exact h.past rows (List.mem_of_getElem? hrows)

theorem Assigned.ran {r : Nat} {stmt : Stmt} {snap : Option Nat} {incs : AutoIncs}
    (h : Assigned schemas rows₀ s) (hassigns : stmt.AssignsColumns schemas)
    (hrows : s.base snap = some rows) (hattempt : s.attempt r stmt rows = (incs, e)) :
    RanTxn schemas ((s.txnOf r).run e) := by
  obtain ⟨rfl, hseen, hexec⟩ := attempt_spec hattempt
  have htxn := h.txns.txnOf ranTxn_empty r
  refine htxn.run { seen := ?_, assigns := hassigns, result := ⟨s.autoIncs, ?_⟩ }
  · rw [hseen]
    exact (h.base hrows).view htxn.staged
  · rw [← h.schemas_eq]
    exact congrArg Prod.snd hexec

theorem Assigned.step (h : Assigned schemas rows₀ s) (hs : CurrentStep schemas s s') :
    Assigned schemas rows₀ s' := by
  obtain ⟨a, hstep, hassigns, happend⟩ := hs
  have htxns : AllTxns (RanTxn schemas) s' := by
    refine h.txns.step ranTxn_empty ?_ hstep
    rintro r stmt autocommit snap rows incs e rfl hrows hattempt
    exact h.ran (hassigns r stmt autocommit snap rfl) hrows hattempt
  obtain ⟨done, hlog, hcells⟩ := h.cells
  rcases data_cases hstep with hsame | ⟨r, t, rfl, ht, hschemas, hrows, hpast, hflights, hlog'⟩ |
    ⟨t, rest, rfl, hfirst, hschemas, hrows, hpast, hflights, hlog'⟩
  · exact
      { schemas_eq := hsame.schemas.trans h.schemas_eq
        rows := hsame.rows ▸ h.rows
        past := hsame.past ▸ h.past
        txns := htxns
        current := by
          rw [hsame.rows, hsame.flights]
          exact h.current
        cells := by
          rw [hsame.log, hsame.flights, hsame.rows]
          exact ⟨done, hlog, hcells⟩ }
  · have hcurrent := happend r t rfl ht
    rw [logRows, ← List.foldl_map (f := Flight.txn) (g := fun rows t => view rows t.staged)] at hcurrent
    exact
      { schemas_eq := hschemas.trans h.schemas_eq
        rows := hrows ▸ h.rows
        past := hpast ▸ h.past
        txns := htxns
        current := by
          rw [hrows, hflights]
          exact flightsCurrent_append h.current hcurrent
        cells := by
          rw [hlog', hflights, hrows, hlog, List.append_assoc]
          exact ⟨done, rfl, hcells⟩ }
  · have hran : RanTxn schemas t := h.txns.flights t (by rw [hfirst]; simp)
    have hcurrent := h.current
    rw [hfirst] at hcurrent hlog
    exact
      { schemas_eq := hschemas.trans h.schemas_eq
        rows := by
          rw [hrows]
          exact h.rows.view hran.staged
        past := by
          rw [hpast]
          intro rows hmem
          rcases List.mem_cons.mp hmem with rfl | hmem
          · exact h.rows
          · exact h.past rows hmem
        txns := htxns
        current := by
          rw [hrows, hflights]
          exact hcurrent.2
        cells := by
          refine ⟨done ++ [t], ?_, fun k i => ?_⟩
          · rw [hlog', hlog, hflights, List.append_assoc]
            rfl
          · rw [hrows, hran.cell_view h.rows hcurrent.1, hcells k i, lastAssigned, lastAssigned,
              lastOf_concat, Option.or_assoc] }

/-- In every run in which each transaction is current when it is appended, no
assignment is reverted. -/
theorem current_transactions_keep_assignments (schemas : Schemas) (incs₀ : AutoIncs) (rows₀ : Rows)
    (hrows : WellKept schemas rows₀)
    (h : ReflTransGen (CurrentStep schemas) (start schemas incs₀ rows₀) s) :
    AssignmentsHold schemas rows₀ s := by
  have hinv := Transition.invariant (P := Assigned schemas rows₀) (assigned_start hrows)
    (fun _ _ hi hs => hi.step hs) h
  intro hflights k i
  obtain ⟨done, hlog, hcells⟩ := hinv.cells
  rw [hflights, List.map_nil, List.append_nil] at hlog
  rw [hlog]
  exact hcells k i

/-! ## Examples of runs -/

theorem pairRows_wellKept : WellKept pairSchemas pairRows := by
  intro k row hrow
  have hkept : ∀ id : Int64, pairs.Normal [.int id, .int 0, .int 0] ∧
      rowKey pairs [.int id, .int 0, .int 0] = .ok (pairKey id) := by
    intro id
    have hvalid : pairs.validateRow [.int id, .int 0, .int 0] = .ok [.int id, .int 0, .int 0] := rfl
    exact ⟨Schema.validateRow_normal hvalid, rfl⟩
  have hschema : pairSchemas["default.pairs"]? = some pairs := by
    simp [pairSchemas]
  rw [pairRows, ExtTreeMap.getElem?_insert, ExtTreeMap.getElem?_insert] at hrow
  split at hrow
  · next heq =>
    cases Std.compare_eq_iff_eq.mp heq
    cases hrow
    exact ⟨pairs, hschema, hkept 2⟩
  · split at hrow
    · next heq =>
      cases Std.compare_eq_iff_eq.mp heq
      cases hrow
      exact ⟨pairs, hschema, hkept 1⟩
    · simp at hrow

/-- The statements of the examples set one column other than the key. -/
theorem setPoint_assigns (id : Int64) {column : Nat} (h : column ≠ 0) :
    (setPoint id column).AssignsColumns pairSchemas ∧ (setColumn id column).AssignsColumns pairSchemas := by
  have hset : ∀ schema, pairSchemas["default.pairs"]? = some schema →
      lastLiteral [(column, .int 1)] schema.pkIdx = none := by
    intro schema hschema
    obtain rfl : pairs = schema := by simpa [pairSchemas] using hschema
    exact if_neg h
  refine ⟨hset, hset, fun rows actions hactions => ?_⟩
  exact (Except.ok.inj hactions).symm

def sameUpdated (rows : Rows) (e : Executed) : Bool :=
  e.seen.toList.all fun p => !e.updates p.1 || rows[p.1]? = e.seen[p.1]?

theorem updates_mem {k : TKey} (h : e.updates k = true) :
    ∃ row, (k, row) ∈ e.seen.toList := by
  unfold Executed.updates at h
  split at h
  · rw [Bool.and_eq_true] at h
    obtain ⟨row, hrow, -⟩ := (Option.any_eq_true _ _).mp h.2
    exact ⟨row, ExtTreeMap.mem_toList_iff_getElem?_eq_some.mpr hrow⟩
  · rw [Bool.and_eq_true, ExtTreeMap.contains_eq_isSome_getElem?] at h
    obtain ⟨row, hrow⟩ := Option.isSome_iff_exists.mp h.2
    exact ⟨row, ExtTreeMap.mem_toList_iff_getElem?_eq_some.mpr hrow⟩
  · cases h

theorem sameUpdated_spec (h : sameUpdated rows e = true) :
    e.Current schemas rows := by
  intro k i hk _
  obtain ⟨row, hmem⟩ := updates_mem hk
  have hsame := List.all_eq_true.mp h _ hmem
  rw [hk] at hsame
  have hrow : rows[k]? = e.seen[k]? := by simpa using hsame
  rw [cell, cell, hrow]

/-- `Current` as a check. -/
def current (rows : Rows) : Staged → List Executed → Bool
  | _, [] => true
  | staged, e :: rest => sameUpdated (view rows staged) e && current rows (staged.extend e.staged) rest

theorem current_spec : ∀ {trace : List Executed} {staged : Staged},
    current rows staged trace = true → Current schemas rows staged trace
  | [], _, _ => trivial
  | _ :: _, _, h => by
    rw [current, Bool.and_eq_true] at h
    exact ⟨sameUpdated_spec h.1, current_spec h.2⟩

def currentStep (a : Action) (s : Engine) : Option Engine :=
  match a with
  | .append r =>
    match s.sessions r with
    | .committing t => if current s.logRows ∅ t.trace then s.append r else none
    | _ => none
  | a => s.step a

theorem currentStep_spec {a : Action} (hassigns : ∀ r stmt autocommit snap,
      a = .execute r stmt autocommit snap → stmt.AssignsColumns schemas)
    (h : currentStep a s = some s') : CurrentStep schemas s s' := by
  unfold currentStep at h
  split at h
  · next r =>
    split at h
    · next t ht =>
      split at h
      · next hcurrent =>
        refine ⟨.append r, h, hassigns, ?_⟩
        rintro r' t' ⟨⟩ ht'
        rw [ht] at ht'
        cases ht'
        exact current_spec hcurrent
      · cases h
    · cases h
  · next hne => exact ⟨a, h, hassigns, fun r t ha => absurd ha (hne r)⟩

/-- Two transactions set different columns of one row, one after the other. -/
def columnByColumn : List Action :=
  [.execute 0 (setPoint 1 1) true none, .append 0, .sync 1, .install, .finish 0, .begin 1,
    .execute 1 (setColumn 1 2) true none] ++ phases 1

theorem columnByColumn_runs :
    (Transition.exec currentStep (fun _ => true) columnByColumn (start pairSchemas ∅ pairRows)).map
      (fun s => (s.flights.isEmpty, s.rows.values)) =
      some (true, [[.int 1, .int 1, .int 1], [.int 2, .int 0, .int 0]]) := by
  decide +kernel

theorem current_transactions_keep_assignments_columnByColumn :
    ∃ s : Engine, ReflTransGen (CurrentStep pairSchemas) (start pairSchemas ∅ pairRows) s ∧
      s.flights = [] ∧ s.rows.values = [[.int 1, .int 1, .int 1], [.int 2, .int 0, .int 0]] ∧
      AssignmentsHold pairSchemas pairRows s := by
  obtain ⟨s, hexec, hends⟩ := Option.map_eq_some_iff.mp columnByColumn_runs
  simp only [Prod.mk.injEq, List.isEmpty_iff] at hends
  have hrun : ReflTransGen (CurrentStep pairSchemas) (start pairSchemas ∅ pairRows) s := by
    refine Transition.exec_runs_of_mem (fun a ha s s' hs => currentStep_spec ?_ hs) hexec
    rintro r stmt autocommit snap rfl
    simp only [columnByColumn, phases, List.cons_append, List.nil_append, List.mem_cons,
      Action.execute.injEq, reduceCtorEq, false_or, List.not_mem_nil, or_false] at ha
    rcases ha with ⟨-, rfl, -⟩ | ⟨-, rfl, -⟩
    · exact (setPoint_assigns 1 (by decide)).1
    · exact (setPoint_assigns 1 (by decide)).2
  exact ⟨s, hrun, hends.1, hends.2,
    current_transactions_keep_assignments _ _ _ pairRows_wellKept hrun⟩

/-- Two transactions set different columns of one row; both read it before the
first one commits. -/
def columnsCrossed : List Action :=
  [.begin 0, .begin 1, .execute 0 (setColumn 1 1) true none, .execute 1 (setColumn 1 2) true none] ++
    phases 0 ++ phases 1

/-- The first of the two is the last that assigned its column, which holds the
old value again. -/
theorem columnsCrossed_runs :
    (Transition.exec (fun a s => s.step a) (fun _ => true) columnsCrossed
      (start pairSchemas ∅ pairRows)).map (fun s => (s.flights.isEmpty,
        cell s.rows ("default.pairs", pairKey 1) 1,
        lastAssigned pairSchemas s.log ("default.pairs", pairKey 1) 1)) =
      some (true, some (.int 0), some (.int 1)) := by
  decide +kernel

/-- The second commit writes the column back that the first one set. -/
theorem interleaved_transactions_revert_column :
    ¬ ∀ (schemas : Schemas) (incs₀ : AutoIncs) (rows₀ : Rows) (s : Engine), WellKept schemas rows₀ →
      ReflTransGen (AssigningStep schemas) (start schemas incs₀ rows₀) s →
        AssignmentsHold schemas rows₀ s := by
  intro hassigned
  obtain ⟨s, hexec, hends⟩ := Option.map_eq_some_iff.mp columnsCrossed_runs
  simp only [Prod.mk.injEq, List.isEmpty_iff] at hends
  have hrun : ReflTransGen (AssigningStep pairSchemas) (start pairSchemas ∅ pairRows) s := by
    refine Transition.exec_runs_of_mem (fun a ha s s' hs => ⟨a, hs, ?_⟩) hexec
    rintro r stmt autocommit snap rfl
    simp only [columnsCrossed, phases, List.cons_append, List.nil_append, List.mem_cons,
      Action.execute.injEq, reduceCtorEq, false_or, List.not_mem_nil, or_false] at ha
    rcases ha with ⟨-, rfl, -⟩ | ⟨-, rfl, -⟩
    · exact (setPoint_assigns 1 (by decide)).2
    · exact (setPoint_assigns 1 (by decide)).2
  have hcell := hassigned _ _ _ s pairRows_wellKept hrun hends.1 ("default.pairs", pairKey 1) 1
  rw [hends.2.1, hends.2.2] at hcell
  simp at hcell

end Engine

end HenchDB.Session
