import HenchDB.Session.Rerun

/-!
# Serial order

Running transactions one after the other, each from its first statement to its
commit, is `runSerial`.  A transaction whose statements would all select the
same rows again if they ran on the rows its commit is installed over, and draw
the same from the sequences as the commits before it leave them, is `Valid`
there, and then it runs again to the same results and the same write set
(`Valid.commitSerial`).

So the transactions that took effect, in their order, are a serial run as long
as each of them is valid over the rows that it is installed over (`Serial`).  The
rows and the sequences that an append will be installed over are those left by
everything in flight before it.

Nothing in phase A checks this.
-/

namespace HenchDB.Session

open Std (ExtTreeMap)

/-! ## Serial runs -/

/-- The statements of a transaction one after the other, over the rows at its
start: its write set and the results. -/
def runStmts (schemas : Schemas) (rows : Rows) :
    AutoIncs → Staged → List Stmt → AutoIncs × Staged × List (Except StmtError Output)
  | incs, staged, [] => (incs, staged, [])
  | incs, staged, stmt :: rest =>
    let (incs, result) := stmt.exec schemas incs (view rows staged)
    let e : Executed := { stmt := stmt, seen := view rows staged, result := result }
    let (incs, staged, results) := runStmts schemas rows incs (staged.extend e.staged) rest
    (incs, staged, result.map Prod.snd :: results)

/-- A transaction by itself, from its first statement to its commit. -/
def commitSerial (schemas : Schemas) (incs : AutoIncs) (rows : Rows) (stmts : List Stmt) :
    Option (AutoIncs × Rows × List (Except StmtError Output)) :=
  let (incs, staged, results) := runStmts schemas rows incs ∅ stmts
  if staged.inserted.any fun k => rows.contains k then none
  else some (incs, view rows staged, results)

/-- Transactions one after the other, all of which commit. -/
def runSerial (schemas : Schemas) :
    AutoIncs → Rows → List (List Stmt) →
      Option (AutoIncs × Rows × List (List (Except StmtError Output)))
  | incs, rows, [] => some (incs, rows, [])
  | incs, rows, stmts :: rest =>
    match commitSerial schemas incs rows stmts with
    | none => none
    | some (incs, rows, results) =>
      (runSerial schemas incs rows rest).map fun (incs, rows, rest) => (incs, rows, results :: rest)

namespace Txn

/-- Its statements. -/
def stmts (t : Txn) : List Stmt := t.trace.map Executed.stmt

/-- What they returned. -/
def results (t : Txn) : List (Except StmtError Output) :=
  t.trace.map fun e => e.result.map Prod.snd

/-- The sequences after its statements. -/
def sequences (schemas : Schemas) (incs : AutoIncs) (t : Txn) : AutoIncs :=
  t.trace.foldl (fun incs e => (e.stmt.exec schemas incs e.seen).1) incs

/-- The write set is what the statements staged. -/
def Folded (t : Txn) : Prop := t.staged = t.trace.foldl (fun st e => st.extend e.staged) ∅

theorem folded_empty : empty.Folded := rfl

theorem Folded.run {t : Txn} (h : t.Folded) (e : Executed) : (t.run e).Folded := by
  rw [Folded, Txn.run, List.foldl_append, ← show t.staged = _ from h]
  rfl

end Txn

/-- The sequences after transactions one after the other. -/
def serialIncs (schemas : Schemas) (incs : AutoIncs) (txns : List Txn) : AutoIncs :=
  txns.foldl (fun incs t => t.sequences schemas incs) incs

/-! ## Valid transactions -/

/-- Over the sequences and the rows given and what the transaction has staged, an
`INSERT` draws the same again and every statement selects the same rows. -/
def Stable (schemas : Schemas) (rows : Rows) : AutoIncs → Staged → List Executed → Prop
  | _, _, [] => True
  | incs, staged, e :: rest =>
    (e.stmt.exec schemas incs e.seen).2 = e.result ∧
      e.stmt.Agrees schemas incs e.seen (view rows staged) ∧
      Stable schemas rows (e.stmt.exec schemas incs e.seen).1 (staged.extend e.staged) rest

/-- The transaction could run again over the sequences and the rows: its statements
do the same and the keys it inserts are free. -/
structure Valid (schemas : Schemas) (incs : AutoIncs) (rows : Rows) (t : Txn) : Prop where
  stable : Stable schemas rows incs ∅ t.trace
  free : ∀ k ∈ t.staged.inserted, rows.contains k = false

section Rerun

variable {schemas : Schemas} {incs : AutoIncs} {rows : Rows} {t : Txn}

/-- Stable statements run again to the same write set and the same results. -/
theorem runStmts_of_stable : ∀ {trace : List Executed} {incs : AutoIncs} {staged : Staged},
    Stable schemas rows incs staged trace →
      runStmts schemas rows incs staged (trace.map Executed.stmt) =
        (trace.foldl (fun incs e => (e.stmt.exec schemas incs e.seen).1) incs,
          trace.foldl (fun st e => st.extend e.staged) staged,
          trace.map fun e => e.result.map Prod.snd)
  | [], _, _, _ => rfl
  | e :: rest, incs, staged, ⟨hdraws, hagrees, hrest⟩ => by
    have hagain := Stmt.exec_congr hagrees
    have hstaged : Executed.staged
        ⟨e.stmt, view rows staged, (e.stmt.exec schemas incs (view rows staged)).2⟩ = e.staged := by
      rw [← hagain, hdraws]
      rfl
    rw [List.map_cons, runStmts]
    dsimp only
    rw [hstaged, ← hagain, hdraws, runStmts_of_stable hrest]
    rfl

/-- A valid transaction runs again. -/
theorem Valid.commitSerial (h : Valid schemas incs rows t) (hok : t.Folded) :
    commitSerial schemas incs rows t.stmts =
      some (t.sequences schemas incs, view rows t.staged, t.results) := by
  rw [Session.commitSerial, Txn.stmts, runStmts_of_stable h.stable,
    ← show t.staged = _ from hok]
  dsimp only
  rw [if_neg]
  · rfl
  · rw [List.any_eq_true]
    rintro ⟨k, hk, htaken⟩
    rw [h.free k hk] at htaken
    cases htaken

/-- One more transaction at the end. -/
theorem runSerial_append : ∀ {order : List (List Stmt)} {incs incs' : AutoIncs} {rows rows' : Rows}
    {results : List (List (Except StmtError Output))} {stmts : List Stmt}
    {r : AutoIncs × Rows × List (Except StmtError Output)},
    runSerial schemas incs rows order = some (incs', rows', results) →
    Session.commitSerial schemas incs' rows' stmts = some r →
      runSerial schemas incs rows (order ++ [stmts]) = some (r.1, r.2.1, results ++ [r.2.2])
  | [], _, _, _, _, _, stmts, r, h, hr => by
    cases h
    rw [List.nil_append, runSerial, hr]
    rfl
  | first :: order, incs, _, rows, _, _, stmts, r, h, hr => by
    rw [runSerial] at h
    rw [List.cons_append, runSerial]
    cases hfirst : Session.commitSerial schemas incs rows first with
    | none =>
      rw [hfirst] at h
      cases h
    | some p =>
      rw [hfirst] at h
      dsimp only at h ⊢
      obtain ⟨q, hq, heq⟩ := Option.map_eq_some_iff.mp h
      cases heq
      rw [runSerial_append hq hr]
      rfl

end Rerun

namespace Engine

/-! ## The invariant -/

variable {schemas : Schemas} {incs₀ : AutoIncs} {rows₀ : Rows} {s s' : Engine}

/-- Every transaction in flight is valid over what it will be installed over. -/
def FlightsValid (schemas : Schemas) : AutoIncs → Rows → List Txn → Prop
  | _, _, [] => True
  | incs, rows, t :: rest =>
    Valid schemas incs rows t ∧ FlightsValid schemas (t.sequences schemas incs) (view rows t.staged) rest

/-- Every reachable state. -/
structure Serial (schemas : Schemas) (incs₀ : AutoIncs) (rows₀ : Rows) (s : Engine) : Prop where
  schemas_eq : s.schemas = schemas
  txns : AllTxns Txn.Folded s
  valid : FlightsValid schemas (serialIncs schemas incs₀ s.order) s.rows (s.flights.map Flight.txn)
  serial : runSerial schemas incs₀ rows₀ (s.order.map Txn.stmts) =
    some (serialIncs schemas incs₀ s.order, s.rows, s.order.map Txn.results)
  oks : s.order.Perm (s.oks ++ s.returning.map Flight.txn)

/-- Phase A finds a key that the transaction inserts. -/
def taken (s : Engine) (t : Txn) : Bool :=
  t.staged.inserted.any fun k => s.rows.contains k || s.inFlight.contains k

/-- A step after which every transaction that took effect or is in flight is valid
where it stands. -/
def ValidStep (incs₀ : AutoIncs) (s s' : Engine) : Prop :=
  ∃ a, s.step a = some s' ∧
    (∀ r t, a = .append r → s.sessions r = .committing t → s.taken t = false →
      Valid s.schemas (serialIncs s.schemas incs₀ (s.order ++ s.flights.map Flight.txn))
        s.logRows t) ∧
    ∀ t, a ≠ .install → s'.order = s.order ++ [t] →
      Valid s.schemas (serialIncs s.schemas incs₀ s.order) s.rows t ∧
        (s.flights = [] ∨ t.sequences s.schemas (serialIncs s.schemas incs₀ s.order) =
          serialIncs s.schemas incs₀ s.order)

variable {t : Txn} {r : Nat}

theorem serialIncs_append (txns : List Txn) :
    serialIncs schemas incs₀ (txns ++ [t]) = t.sequences schemas (serialIncs schemas incs₀ txns) := by
  rw [serialIncs, List.foldl_append]
  rfl

/-- One more transaction takes effect. -/
theorem Serial.extend (h : Serial schemas incs₀ rows₀ s) (ht : t.Folded)
    (hvalid : Valid schemas (serialIncs schemas incs₀ s.order) s.rows t) :
    runSerial schemas incs₀ rows₀ ((s.order ++ [t]).map Txn.stmts) =
      some (serialIncs schemas incs₀ (s.order ++ [t]), view s.rows t.staged,
        (s.order ++ [t]).map Txn.results) := by
  rw [List.map_append, List.map_append, serialIncs_append]
  exact runSerial_append h.serial (hvalid.commitSerial ht)

theorem Serial.of_same {s' : Engine} (h : Serial schemas incs₀ rows₀ s) (htxns : AllTxns Txn.Folded s')
    (hdata : SameData s s') (horder : s'.order = s.order) (hoks : s'.oks = s.oks)
    (hreturning : s'.returning = s.returning) : Serial schemas incs₀ rows₀ s' where
  schemas_eq := hdata.schemas.trans h.schemas_eq
  txns := htxns
  valid := by
    rw [horder, hdata.rows, hdata.flights]
    exact h.valid
  serial := by
    rw [horder, hdata.rows]
    exact h.serial
  oks := by
    rw [horder, hoks, hreturning]
    exact h.oks

/-- A transaction that staged nothing returns. -/
theorem Serial.acknowledged {s' : Engine} (h : Serial schemas incs₀ rows₀ s)
    (htxns : AllTxns Txn.Folded s') (hdata : SameData s s') (horder : s'.order = s.order ++ [t])
    (hoks : s'.oks = s.oks ++ [t]) (hreturning : s'.returning = s.returning) (ht : t.Folded)
    (hempty : t.staged.isEmpty = true)
    (hvalid : Valid schemas (serialIncs schemas incs₀ s.order) s.rows t)
    (hincs : s.flights = [] ∨ t.sequences schemas (serialIncs schemas incs₀ s.order) =
      serialIncs schemas incs₀ s.order) : Serial schemas incs₀ rows₀ s' where
  schemas_eq := hdata.schemas.trans h.schemas_eq
  txns := htxns
  valid := by
    rw [horder, hdata.rows, hdata.flights, serialIncs_append]
    rcases hincs with hnone | hsame
    · rw [hnone]
      trivial
    · rw [hsame]
      exact h.valid
  serial := by
    have hserial := h.extend ht hvalid
    rw [ExtTreeMap.isEmpty_iff.mp hempty, view_empty] at hserial
    rw [horder, hdata.rows]
    exact hserial
  oks := by
    rw [horder, hoks, hreturning]
    refine (h.oks.append_right [t]).trans ?_
    rw [List.append_assoc, List.append_assoc]
    exact List.Perm.append_left _ List.perm_append_comm

theorem order_commitTxn (h : t.staged.isEmpty = true) :
    (s.commitTxn r t).order = s.order ++ [t] := by
  rw [Engine.commitTxn, if_pos h]
  rfl

/-- What takes effect without an install staged nothing. -/
theorem order_commitTxn_cases {t' : Txn} (h : (s.commitTxn r t).order = s.order ++ [t']) :
    t.staged.isEmpty = true ∧ t' = t := by
  unfold Engine.commitTxn at h
  split at h
  · next hempty =>
    have hcancel := List.append_cancel_left (show s.order ++ [t] = s.order ++ [t'] from h)
    exact ⟨hempty, (List.singleton_inj.mp hcancel).symm⟩
  · simp at h

/-- It is a `COMMIT`, or a statement outside a transaction. -/
theorem order_cases {a : Action} (hs : s.step a = some s') (hne : a ≠ .install)
    (h : s'.order = s.order ++ [t]) : t.staged.isEmpty = true ∧
      ((∃ r, a = .commit r ∧ s.sessions r = .active t) ∨
        ∃ r stmt autocommit snap rows incs e, a = .execute r stmt autocommit snap ∧
          s.base snap = some rows ∧ s.attempt r stmt rows = (incs, e) ∧ s.sessions r = .idle ∧
            t = Txn.empty.run e) := by
  have hsame : ∀ s₁ : Engine, s₁.order = s.order → s₁ ≠ s' := by
    rintro s₁ hs₁ rfl
    rw [hs₁] at h
    simp at h
  cases a with
  | execute r stmt autocommit snap =>
    obtain ⟨rows, hrows, incs, e, hattempt, ⟨-, heq, -⟩ | hstage⟩ := execute_cases hs
    · exact absurd heq.symm (hsame _ rfl)
    · rcases commitStagedOrStage_cases hstage with ⟨t', -, heq⟩ | ⟨hidle, rfl | ⟨-, heq⟩⟩
      · exact absurd heq.symm (hsame _ rfl)
      · obtain ⟨hempty, rfl⟩ := order_commitTxn_cases h
        exact ⟨hempty, Or.inr ⟨r, stmt, autocommit, snap, rows, incs, e, rfl, hrows, hattempt, hidle, rfl⟩⟩
      · exact absurd heq.symm (hsame _ rfl)
  | begin r =>
    simp only [Engine.step, Engine.begin] at hs
    split at hs
    · exact absurd (Option.some.inj hs) (hsame _ rfl)
    · cases hs
  | commit r =>
    simp only [Engine.step, Engine.commit] at hs
    split at hs
    · next t' ht' =>
      cases hs
      obtain ⟨hempty, rfl⟩ := order_commitTxn_cases h
      exact ⟨hempty, Or.inl ⟨r, rfl, ht'⟩⟩
    · cases hs
  | rollback r =>
    simp only [Engine.step, Engine.rollback] at hs
    split at hs
    · exact absurd (Option.some.inj hs) (hsame _ rfl)
    · exact absurd (Option.some.inj hs) (hsame _ rfl)
    · cases hs
  | append r =>
    simp only [Engine.step, Engine.append] at hs
    split at hs
    · split at hs
      · exact absurd (Option.some.inj hs) (hsame _ rfl)
      · exact absurd (Option.some.inj hs) (hsame _ rfl)
    · cases hs
  | sync n => exact absurd (Option.some.inj hs) (hsame _ rfl)
  | install => exact absurd rfl hne
  | finish i =>
    simp only [Engine.step, Engine.finish] at hs
    split at hs
    · exact absurd (Option.some.inj hs) (hsame _ rfl)
    · cases hs

theorem Serial.commitTxn (h : Serial schemas incs₀ rows₀ s) (r : Nat) (ht : t.Folded)
    (hvalid : t.staged.isEmpty = true → Valid schemas (serialIncs schemas incs₀ s.order) s.rows t ∧
      (s.flights = [] ∨ t.sequences schemas (serialIncs schemas incs₀ s.order) =
        serialIncs schemas incs₀ s.order)) : Serial schemas incs₀ rows₀ (s.commitTxn r t) := by
  have htxns := h.txns.commitTxn r ht
  have hdata : SameData s (s.commitTxn r t) := SameData.commitTxn t
  by_cases hempty : t.staged.isEmpty = true
  · have heq : s.commitTxn r t = (s.acknowledge t).setSession r .idle := if_pos hempty
    rw [heq] at htxns hdata ⊢
    exact h.acknowledged htxns hdata rfl rfl rfl ht hempty (hvalid hempty).1 (hvalid hempty).2
  · have heq : s.commitTxn r t = s.setSession r (.committing t) := if_neg hempty
    rw [heq] at htxns hdata ⊢
    exact h.of_same htxns hdata rfl rfl rfl

theorem Serial.execute {stmt : Stmt} {autocommit : Bool} {snap : Option Nat}
    (h : Serial schemas incs₀ rows₀ s) (hs : s.execute r stmt autocommit snap = some s')
    (htxns : AllTxns Txn.Folded s')
    (hvalid : ∀ t, s'.order = s.order ++ [t] →
      Valid schemas (serialIncs schemas incs₀ s.order) s.rows t ∧
        (s.flights = [] ∨ t.sequences schemas (serialIncs schemas incs₀ s.order) =
          serialIncs schemas incs₀ s.order)) : Serial schemas incs₀ rows₀ s' := by
  have hdata : SameData s s' := SameData.execute hs
  obtain ⟨rows, -, incs, e, -, ⟨-, rfl, -⟩ | hstage⟩ := execute_cases hs
  · exact h.of_same htxns hdata rfl rfl rfl
  · rcases commitStagedOrStage_cases hstage with ⟨t, -, rfl⟩ | ⟨-, rfl | ⟨-, rfl⟩⟩
    · exact h.of_same htxns hdata rfl rfl rfl
    · have hnext : Serial schemas incs₀ rows₀ { s with autoIncs := incs } :=
        h.of_same ⟨h.txns.sessions, h.txns.flights⟩ ⟨rfl, rfl, rfl, rfl, rfl⟩ rfl rfl rfl
      exact hnext.commitTxn r (Txn.folded_empty.run e) fun hempty => hvalid _ (order_commitTxn hempty)
    · exact h.of_same htxns hdata rfl rfl rfl

/-! ## The phases of a commit -/

theorem flightsValid_append : ∀ {txns : List Txn} {incs : AutoIncs} {rows : Rows} {t : Txn},
    FlightsValid schemas incs rows txns →
    Valid schemas (serialIncs schemas incs txns)
      (txns.foldl (fun rows t => view rows t.staged) rows) t →
      FlightsValid schemas incs rows (txns ++ [t])
  | [], _, _, _, _, ht => ⟨ht, trivial⟩
  | _ :: _, _, _, _, h, ht => ⟨h.1, flightsValid_append h.2 ht⟩

theorem Serial.append (h : Serial schemas incs₀ rows₀ s) (hs : s.append r = some s')
    (htxns : AllTxns Txn.Folded s')
    (hvalid : ∀ t, s.sessions r = .committing t → s.taken t = false →
      Valid schemas (serialIncs schemas incs₀ (s.order ++ s.flights.map Flight.txn)) s.logRows t) :
    Serial schemas incs₀ rows₀ s' := by
  unfold Engine.append at hs
  split at hs
  · next t ht =>
    split at hs
    · cases hs
      exact h.of_same htxns ⟨rfl, rfl, rfl, rfl, rfl⟩ rfl rfl rfl
    · next hfree =>
      have hvalid := hvalid t ht (Bool.not_eq_true _ ▸ hfree)
      rw [logRows, ← List.foldl_map (f := Flight.txn)
        (g := fun rows t => view rows t.staged), serialIncs, List.foldl_append] at hvalid
      cases hs
      exact
        { schemas_eq := h.schemas_eq
          txns := htxns
          valid := by
            rw [List.map_append]
            exact flightsValid_append h.valid hvalid
          serial := h.serial
          oks := h.oks }
  · cases hs

theorem Serial.install (h : Serial schemas incs₀ rows₀ s) (hs : s.install = some s')
    (htxns : AllTxns Txn.Folded s') : Serial schemas incs₀ rows₀ s' := by
  unfold Engine.install at hs
  split at hs
  · next f flights hflights =>
    split at hs
    · have hvalid := h.valid
      have htxn := h.txns.flights f.txn (by simp [hflights])
      rw [hflights, List.map_cons] at hvalid
      have hserial := h.extend htxn hvalid.1
      cases hs
      exact
        { schemas_eq := h.schemas_eq
          txns := htxns
          valid := by
            rw [serialIncs_append]
            exact hvalid.2
          serial := hserial
          oks := by
            rw [List.map_append, ← List.append_assoc]
            exact h.oks.append_right _ }
    · cases hs
  · cases hs

theorem Serial.finish {i : Nat} (h : Serial schemas incs₀ rows₀ s) (hs : s.finish i = some s')
    (htxns : AllTxns Txn.Folded s') : Serial schemas incs₀ rows₀ s' := by
  unfold Engine.finish at hs
  split at hs
  · next f hf =>
    obtain ⟨hi, hget⟩ := List.getElem?_eq_some_iff.mp hf
    have hsplit := (List.getElem_cons_eraseIdx_perm hi).map Flight.txn
    rw [hget, List.map_cons] at hsplit
    cases hs
    exact
      { schemas_eq := h.schemas_eq
        txns := htxns
        valid := h.valid
        serial := h.serial
        oks := by
          refine h.oks.trans ?_
          rw [List.append_assoc]
          exact List.Perm.append_left _ hsplit.symm }
  · cases hs

/-! ## Runs -/

theorem serial_start : Serial schemas incs₀ rows₀ (start schemas incs₀ rows₀) where
  schemas_eq := rfl
  txns := ⟨by simp [start], by simp [start]⟩
  valid := trivial
  serial := rfl
  oks := List.Perm.refl _

theorem Serial.validStep (h : Serial schemas incs₀ rows₀ s) (hs : ValidStep incs₀ s s') :
    Serial schemas incs₀ rows₀ s' := by
  obtain ⟨a, hstep, happend, hempty⟩ := hs
  rw [h.schemas_eq] at happend hempty
  have htxns : AllTxns Txn.Folded s' := h.txns.step Txn.folded_empty
    (fun r _ _ _ _ _ e _ _ _ => (h.txns.txnOf Txn.folded_empty r).run e) hstep
  cases a with
  | execute r stmt autocommit snap =>
    exact h.execute hstep htxns fun t => hempty t (by simp)
  | begin r =>
    simp only [step, Engine.begin] at hstep
    split at hstep
    · cases hstep
      exact h.of_same htxns ⟨rfl, rfl, rfl, rfl, rfl⟩ rfl rfl rfl
    · cases hstep
  | commit r =>
    simp only [step, Engine.commit] at hstep
    split at hstep
    · next t ht =>
      cases hstep
      exact h.commitTxn r (h.txns.sessions r t (Or.inl ht)) fun hnone =>
        hempty t (by simp) (order_commitTxn hnone)
    · cases hstep
  | rollback r =>
    simp only [step, Engine.rollback] at hstep
    split at hstep
    · cases hstep
      exact h.of_same htxns ⟨rfl, rfl, rfl, rfl, rfl⟩ rfl rfl rfl
    · cases hstep
      exact h.of_same htxns ⟨rfl, rfl, rfl, rfl, rfl⟩ rfl rfl rfl
    · cases hstep
  | append r => exact h.append hstep htxns fun t => happend r t rfl
  | sync n =>
    cases hstep
    exact h.of_same htxns ⟨rfl, rfl, rfl, map_txn_sync s n, rfl⟩ rfl rfl rfl
  | install => exact h.install hstep htxns
  | finish i => exact h.finish hstep htxns

/-- When everything has returned, the contents and the results are those of the
transactions that returned `Ok`, one after the other in some order. -/
def Serializable (schemas : Schemas) (incs₀ : AutoIncs) (rows₀ : Rows) (s : Engine) : Prop :=
  s.flights = [] → s.returning = [] → ∃ (order : List Txn) (incs : AutoIncs), order.Perm s.oks ∧
    runSerial schemas incs₀ rows₀ (order.map Txn.stmts) =
      some (incs, s.rows, order.map Txn.results)

theorem Serial.serializable (h : Serial schemas incs₀ rows₀ s) : Serializable schemas incs₀ rows₀ s := by
  intro _ hreturning
  refine ⟨s.order, _, ?_, h.serial⟩
  have hoks := h.oks
  rw [hreturning, List.map_nil, List.append_nil] at hoks
  exact hoks

theorem valid_runs_serial (h : Relation.ReflTransGen (ValidStep incs₀) (start schemas incs₀ rows₀) s) :
    Serializable schemas incs₀ rows₀ s :=
  (Transition.invariant (P := Serial schemas incs₀ rows₀) serial_start
    (fun _ _ hi hs => hi.validStep hs) h).serializable

end Engine

end HenchDB.Session
