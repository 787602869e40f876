import HenchDB.Session.Engine

/-!
# Uniqueness of inserted keys

Phase A looks an inserted key up in the trees and among the keys in flight, so
a key that one transaction has inserted is taken from its append on: it is
marked until it is installed, and stored from then on (`Inv.taken`).  The marks
are removed by every commit that staged the key, which by then has stored it
itself (`Inv.stored`).

An `UPDATE` of a row that the same transaction inserted stages the row without
`is_insert`, and the commit neither checks the key nor marks it.
-/

namespace HenchDB.Session

open Std (ExtTreeMap ExtTreeSet)
open Relation (ReflTransGen)

/-! ## What the statements stage -/

namespace Stmt

def isInsert : Stmt → Bool
  | .insert _ _ _ _ => true
  | _ => false

variable {schemas : Schemas} {incs : AutoIncs} {rows : Rows} {stmt : Stmt} {staged : Staged}
  {output : Output} {k : TKey}

/-- Whether a key is staged with `is_insert`, if it is staged. -/
def StagedAs (k : TKey) (isInsert : Bool) (staged : Staged) : Prop :=
  ∀ w, staged[k]? = some w → w.isInsert = isInsert

theorem stagedAs_empty (b : Bool) : StagedAs k b ∅ := by
  intro w hw
  simp at hw

theorem StagedAs.insert {b : Bool} (h : StagedAs k b staged) (k' : TKey) (row : Option Row) :
    StagedAs k b (staged.insert k' { row := row, isInsert := b }) := by
  intro w hw
  rw [ExtTreeMap.getElem?_insert] at hw
  split at hw
  · cases hw
    rfl
  · exact h w hw

/-- `INSERT` and only `INSERT` stages with `is_insert`. -/
theorem exec_staged (h : (stmt.exec schemas incs rows).2 = .ok (staged, output)) :
    StagedAs k stmt.isInsert staged := by
  have hactions : ∀ {actions : List (TKey × Option Row)} {staged : Staged},
      StagedAs k false staged → StagedAs k false (stageActions staged actions) :=
    stageActions_keeps fun staged k' row hstaged => hstaged.insert k' row
  cases stmt with
  | insert text table new fk =>
    obtain ⟨schema, -, hst⟩ := exec_insert_ok h
    exact insertRows_keeps (P := StagedAs k true)
      (fun staged row key _ _ _ hstaged => StagedAs.insert hstaged _ _) hst (stagedAs_empty _)
  | update table cond set fk =>
    obtain ⟨schema, -, h⟩ := Outcome.bind_ok h
    obtain ⟨st, hst, h⟩ := Outcome.bind_ok h
    obtain ⟨actions, -, h⟩ := Outcome.bind_ok h
    cases h
    exact hactions (updateRows_keeps (P := StagedAs k false)
      (fun staged _ _ row key _ _ _ _ hstaged => StagedAs.insert hstaged _ _) hst
      (stagedAs_empty _))
  | updatePoint table key set =>
    obtain ⟨schema, -, h⟩ := Outcome.bind_ok h
    obtain ⟨st, hst, h⟩ := Outcome.bind_ok h
    cases h
    rcases updateKey_spec hst with rfl | ⟨_, _, row, _, _, _, rfl⟩
    · exact stagedAs_empty _
    · exact StagedAs.insert (stagedAs_empty _) _ _
  | delete table cond fk =>
    obtain ⟨schema, -, h⟩ := Outcome.bind_ok h
    obtain ⟨st, hst, h⟩ := Outcome.bind_ok h
    obtain ⟨actions, -, h⟩ := Outcome.bind_ok h
    cases h
    exact hactions (deleteRows_keeps (P := StagedAs k false)
      (fun staged _ key _ _ hstaged => StagedAs.insert hstaged _ _) hst (stagedAs_empty _))
  | select query =>
    cases h
    exact stagedAs_empty _

end Stmt

namespace Txn

/-- The transaction executed a successful `INSERT` of the key. -/
def inserts (t : Txn) (k : TKey) : Bool :=
  t.trace.any fun e => e.stmt.isInsert && e.staged.contains k

end Txn

namespace Engine

variable {s s' : Engine} {k : TKey}

/-- A step in which no statement deletes the key. -/
def KeepingStep (k : TKey) (s s' : Engine) : Prop :=
  ∃ a, s.step a = some s' ∧ ∀ r stmt autocommit snap rows e,
    a = .execute r stmt autocommit snap → s.base snap = some rows →
    (s.attempt r stmt rows).2 = e → ∀ w, e.staged[k]? = some w → w.row.isSome = true

/-- One in which no statement stages the key again in a transaction that
inserted it either. -/
def SparingStep (k : TKey) (s s' : Engine) : Prop :=
  ∃ a, s.step a = some s' ∧ ∀ r stmt autocommit snap rows e,
    a = .execute r stmt autocommit snap → s.base snap = some rows →
    (s.attempt r stmt rows).2 = e → ∀ w, e.staged[k]? = some w →
      w.row.isSome = true ∧ (s.txnOf r).inserts k = false

/-- What a transaction holds of the key: a row, which is an insert if the
transaction inserted it. -/
structure Holds (k : TKey) (t : Txn) : Prop where
  row : ∀ w, t.staged[k]? = some w → w.row.isSome = true
  insert : t.inserts k = true → ∃ w, t.staged[k]? = some w ∧ w.isInsert = true

/-- The transactions behind phase A. -/
def appended (s : Engine) : List Txn :=
  s.oks ++ (s.returning.map Flight.txn ++ s.flights.map Flight.txn)

/-- Every reachable state, for a key that is spared. -/
structure Inv (k : TKey) (s : Engine) : Prop where
  sessions : ∀ r t, s.sessions r = .active t ∨ s.sessions r = .committing t → Holds k t
  behind : ∀ t ∈ s.returning.map Flight.txn ++ s.flights.map Flight.txn, Holds k t
  once : s.appended.countP (fun t => t.inserts k) ≤ 1
  taken : 0 < s.appended.countP (fun t => t.inserts k) →
    s.rows.contains k = true ∨ s.inFlight.contains k = true
  stored : ∀ f ∈ s.returning, f.txn.staged.contains k = true → s.rows.contains k = true

/-! ## Statements -/

theorem holds_empty : Holds k .empty where
  row := by
    intro w hw
    simp [Txn.empty] at hw
  insert := by simp [Txn.inserts, Txn.empty]

variable {t : Txn} {r : Nat}

theorem Holds.run {e : Executed} (h : Holds k t) (hkind : Stmt.StagedAs k e.stmt.isInsert e.staged)
    (hspare : ∀ w, e.staged[k]? = some w → w.row.isSome = true ∧ t.inserts k = false) :
    Holds k (t.run e) := by
  have hstaged : (t.run e).staged[k]? = e.staged[k]?.or t.staged[k]? := getElem?_extend _ _ _
  have hinserts : (t.run e).inserts k = (t.inserts k || (e.stmt.isInsert && e.staged.contains k)) := by
    simp [Txn.inserts, Txn.run]
  rw [ExtTreeMap.contains_eq_isSome_getElem?] at hinserts
  rcases Option.eq_none_or_eq_some e.staged[k]? with hnone | ⟨w, hw⟩
  · rw [hnone, Option.none_or] at hstaged
    rw [hnone, Option.isSome_none, Bool.and_false, Bool.or_false] at hinserts
    refine { row := ?_, insert := ?_ }
    · rw [hstaged]
      exact h.row
    · rw [hstaged, hinserts]
      exact h.insert
  · obtain ⟨hrow, hnot⟩ := hspare w hw
    rw [hw, Option.some_or] at hstaged
    rw [hw, hnot, Option.isSome_some, Bool.and_true, Bool.false_or] at hinserts
    refine { row := ?_, insert := ?_ }
    · intro w' hw'
      rw [hstaged] at hw'
      cases hw'
      exact hrow
    · intro hins
      refine ⟨w, hstaged, ?_⟩
      rw [hkind w hw, ← hinserts]
      exact hins

theorem Inv.setSession (h : Inv k s) (r : Nat) {state : SessionState}
    (hstate : ∀ t, state = .active t ∨ state = .committing t → Holds k t) :
    Inv k (s.setSession r state) where
  sessions := Engine.sessions_setSession h.sessions hstate
  behind := h.behind
  once := h.once
  taken := h.taken
  stored := h.stored

theorem Inv.idle (h : Inv k s) (r : Nat) : Inv k (s.setSession r .idle) :=
  h.setSession r fun t ht => by simp at ht

theorem Inv.active (h : Inv k s) (r : Nat) (ht : Holds k t) :
    Inv k (s.setSession r (.active t)) := by
  refine h.setSession r fun t' ht' => ?_
  simp only [SessionState.active.injEq, reduceCtorEq, or_false] at ht'
  exact ht' ▸ ht

theorem Holds.inserts_of_isEmpty (h : Holds k t) (hempty : t.staged.isEmpty = true) :
    t.inserts k = false := by
  by_contra hins
  obtain ⟨w, hw, -⟩ := h.insert (by simpa using hins)
  rw [ExtTreeMap.isEmpty_iff.mp hempty] at hw
  simp at hw

theorem Inv.commitTxn (h : Inv k s) (r : Nat) (ht : Holds k t) :
    Inv k (s.commitTxn r t) := by
  unfold Engine.commitTxn
  split
  · next hempty =>
    refine Inv.idle ?_ r
    have hcount : (s.acknowledge t).appended.countP (fun t => t.inserts k) =
        s.appended.countP (fun t => t.inserts k) := by
      simp [appended, acknowledge, ht.inserts_of_isEmpty hempty]
    exact
      { sessions := h.sessions
        behind := h.behind
        once := by
          rw [hcount]
          exact h.once
        taken := by
          rw [hcount]
          exact h.taken
        stored := h.stored }
  · refine h.setSession r fun t' ht' => ?_
    simp only [reduceCtorEq, SessionState.committing.injEq, false_or] at ht'
    exact ht' ▸ ht

theorem Inv.txnOf (h : Inv k s) (r : Nat) : Holds k (s.txnOf r) := by
  unfold Engine.txnOf
  split
  · next t ht => exact h.sessions r t (Or.inl ht)
  · exact holds_empty

theorem Inv.execute {stmt : Stmt} {autocommit : Bool} {snap : Option Nat} (h : Inv k s)
    (hs : s.execute r stmt autocommit snap = some s')
    (hspare : ∀ rows e, s.base snap = some rows → (s.attempt r stmt rows).2 = e →
      ∀ w, e.staged[k]? = some w → w.row.isSome = true ∧ (s.txnOf r).inserts k = false) :
    Inv k s' := by
  obtain ⟨rows, hrows, incs, e, hattempt, ⟨-, rfl, -⟩ | hstage⟩ := execute_cases hs
  · exact ⟨h.sessions, h.behind, h.once, h.taken, h.stored⟩
  · obtain ⟨rfl, hseen, hexec⟩ := attempt_spec hattempt
    have hkind : Stmt.StagedAs k e.stmt.isInsert e.staged := by
      unfold Executed.staged
      split
      · next staged output hresult =>
        exact Stmt.exec_staged ((congrArg Prod.snd hexec).trans hresult)
      · exact Stmt.stagedAs_empty _
    have hholds : Holds k ((s.txnOf r).run e) :=
      (h.txnOf r).run hkind (hspare rows e hrows (congrArg Prod.snd hattempt))
    have hinv : Inv k { s with autoIncs := incs } :=
      ⟨h.sessions, h.behind, h.once, h.taken, h.stored⟩
    rcases commitStagedOrStage_cases hstage with ⟨t, ht, rfl⟩ | ⟨ht, hend⟩
    · have htxn : s.txnOf r = t := by
        rw [Engine.txnOf, show s.sessions r = .active t from ht]
      rw [htxn] at hholds
      exact hinv.active r hholds
    · have htxn : s.txnOf r = .empty := by
        rw [Engine.txnOf, show s.sessions r = .idle from ht]
      rw [htxn] at hholds
      rcases hend with rfl | ⟨-, rfl⟩
      · exact hinv.commitTxn r hholds
      · exact hinv.active r hholds

/-! ## The phases of a commit -/

theorem mem_inserted {staged : Staged} :
    k ∈ staged.inserted ↔ ∃ w, staged[k]? = some w ∧ w.isInsert = true := by
  rw [Staged.inserted, List.mem_map]
  constructor
  · rintro ⟨⟨k', w⟩, hmem, rfl⟩
    obtain ⟨hmem, hins⟩ := List.mem_filter.mp hmem
    exact ⟨w, ExtTreeMap.mem_toList_iff_getElem?_eq_some.mp hmem, hins⟩
  · rintro ⟨w, hw, hins⟩
    exact ⟨(k, w), List.mem_filter.mpr ⟨ExtTreeMap.mem_toList_iff_getElem?_eq_some.mpr hw, hins⟩, rfl⟩

theorem Inv.append (h : Inv k s) (hs : s.append r = some s') : Inv k s' := by
  unfold Engine.append at hs
  split at hs
  · next t ht =>
    have hholds := h.sessions r t (Or.inr ht)
    split at hs
    · cases hs
      exact h.idle r
    · next hfree =>
      have hidle : Inv k (s.setSession r .busy) := h.setSession r fun t ht => by simp at ht
      have heq := (Option.some.inj hs).symm
      have hcount : s'.appended.countP (fun t => t.inserts k) =
          s.appended.countP (fun t => t.inserts k) + if t.inserts k then 1 else 0 := by
        rw [heq]
        simp [appended, List.countP_append, List.countP_cons]
        omega
      have hmarks : s'.inFlight.contains k =
          (s.inFlight.contains k || t.staged.inserted.contains k) := by
        rw [heq]
        exact ExtTreeSet.contains_insertMany_list
      have hrows : s'.rows = s.rows := by rw [heq]; rfl
      -- A key that the transaction inserted was free.
      have hnew : t.inserts k = true →
          t.staged.inserted.contains k = true ∧
            s.appended.countP (fun t => t.inserts k) = 0 := by
        intro hins
        have hmem : k ∈ t.staged.inserted := mem_inserted.mpr (hholds.insert hins)
        refine ⟨List.elem_eq_true_of_mem hmem, ?_⟩
        by_contra hpos
        apply hfree
        rw [List.any_eq_true]
        refine ⟨k, hmem, ?_⟩
        rw [Bool.or_eq_true]
        exact h.taken (Nat.pos_of_ne_zero hpos)
      have honce : s'.appended.countP (fun t => t.inserts k) ≤ 1 := by
        rw [hcount]
        split
        · next hins => rw [(hnew hins).2]
        · exact h.once
      have htaken : 0 < s'.appended.countP (fun t => t.inserts k) →
          s'.rows.contains k = true ∨ s'.inFlight.contains k = true := by
        rw [hcount, hrows, hmarks, Bool.or_eq_true]
        intro hpos
        by_cases hins : t.inserts k = true
        · exact Or.inr (Or.inr (hnew hins).1)
        · rw [if_neg hins] at hpos
          rcases h.taken hpos with hrow | hmark
          · exact Or.inl hrow
          · exact Or.inr (Or.inl hmark)
      subst heq
      exact
        { sessions := hidle.sessions
          behind := by
            intro t' ht'
            rw [List.map_append, ← List.append_assoc, List.mem_append] at ht'
            rcases ht' with ht' | ht'
            · exact h.behind t' ht'
            · rw [List.mem_singleton.mp ht']
              exact hholds
          once := honce
          taken := htaken
          stored := h.stored }
  · cases hs

theorem Inv.sync (h : Inv k s) (n : Nat) : Inv k (s.sync n) := by
  have happended : (s.sync n).appended = s.appended := by
    rw [appended, map_txn_sync]
    rfl
  exact
    { sessions := h.sessions
      behind := by
        rw [map_txn_sync]
        exact h.behind
      once := by
        rw [happended]
        exact h.once
      taken := by
        rw [happended]
        exact h.taken
      stored := h.stored }

/-- A transaction that holds the key stores it, and no other removes it. -/
theorem Holds.contains_view {rows : Rows} (h : Holds k t)
    (hk : rows.contains k = true ∨ t.staged.contains k = true) :
    (view rows t.staged).contains k = true := by
  rw [ExtTreeMap.contains_eq_isSome_getElem?, ExtTreeMap.contains_eq_isSome_getElem?] at hk
  rw [ExtTreeMap.contains_eq_isSome_getElem?, getElem?_view]
  rcases Option.eq_none_or_eq_some t.staged[k]? with hnone | ⟨w, hw⟩
  · simpa [hnone] using hk
  · simpa [hw] using h.row w hw

theorem Inv.install (h : Inv k s) (hs : s.install = some s') : Inv k s' := by
  unfold Engine.install at hs
  split at hs
  · next f flights hflights =>
    split at hs
    · have hbehind := h.behind
      have honce := h.once
      have htaken := h.taken
      rw [appended, hflights, List.map_cons] at honce htaken
      rw [hflights, List.map_cons] at hbehind
      have hf : Holds k f.txn := hbehind f.txn (by simp)
      have hlist : ∀ l : List Txn, l ++ ((s.returning ++ [f]).map Flight.txn ++
          flights.map Flight.txn) =
          l ++ (s.returning.map Flight.txn ++ f.txn :: flights.map Flight.txn) := by
        intro l
        simp
      cases hs
      exact
        { sessions := h.sessions
          behind := by
            intro t ht
            exact hbehind t (by simpa using ht)
          once := by
            rw [appended, hlist]
            exact honce
          taken := by
            rw [appended, hlist]
            intro hpos
            rcases htaken hpos with hrow | hmark
            · exact Or.inl (hf.contains_view (Or.inl hrow))
            · exact Or.inr hmark
          stored := by
            intro g hg hstaged
            rcases List.mem_append.mp hg with hg | hg
            · exact hf.contains_view (Or.inl (h.stored g hg hstaged))
            · rw [List.mem_singleton.mp hg] at hstaged
              exact hf.contains_view (Or.inr hstaged) }
    · cases hs
  · cases hs

/-- Removing the marks of other keys keeps a mark. -/
theorem contains_foldl_erase : ∀ {keys : List TKey} {marks : ExtTreeSet TKey}, k ∉ keys →
    marks.contains k = true → (keys.foldl (fun marks k => marks.erase k) marks).contains k = true
  | [], _, _, h => h
  | k' :: keys, marks, hnot, h => by
    rw [List.mem_cons, not_or] at hnot
    rw [List.foldl_cons]
    refine contains_foldl_erase hnot.2 ?_
    rw [ExtTreeSet.contains_erase, h, Bool.and_true, bne_iff_ne]
    exact fun heq => hnot.1 (Std.compare_eq_iff_eq.mp heq).symm

theorem Inv.finish {i : Nat} (h : Inv k s) (hs : s.finish i = some s') : Inv k s' := by
  unfold Engine.finish at hs
  split at hs
  · next f hf =>
    obtain ⟨hi, hget⟩ := List.getElem?_eq_some_iff.mp hf
    have hmem : f ∈ s.returning := List.mem_of_getElem? hf
    have heq := (Option.some.inj hs).symm
    have hidle := h.idle f.session
    have hperm : s'.appended.Perm s.appended := by
      rw [heq]
      simp only [appended, setSession_flights, List.append_assoc]
      refine List.Perm.append_left _ ?_
      have hsplit := (List.getElem_cons_eraseIdx_perm hi).map Flight.txn
      rw [hget, List.map_cons] at hsplit
      exact hsplit.append_right _
    have hcount := hperm.countP_eq fun t => t.inserts k
    have hrows : s'.rows = s.rows := by rw [heq]; rfl
    have htaken : 0 < s'.appended.countP (fun t => t.inserts k) →
        s'.rows.contains k = true ∨ s'.inFlight.contains k = true := by
      rw [hcount, hrows]
      intro hpos
      rcases h.taken hpos with hrow | hmark
      · exact Or.inl hrow
      · by_cases hk : f.txn.staged.contains k = true
        · exact Or.inl (h.stored f hmem hk)
        · refine Or.inr ?_
          rw [heq]
          dsimp only
          split
          · exact hmark
          · refine contains_foldl_erase ?_ hmark
            rw [ExtTreeMap.mem_keys, ExtTreeMap.mem_iff_contains]
            exact hk
    subst heq
    exact
      { sessions := hidle.sessions
        behind := by
          intro t ht
          refine h.behind t ?_
          rcases List.mem_append.mp ht with ht | ht
          · obtain ⟨g, hg, rfl⟩ := List.mem_map.mp ht
            exact List.mem_append_left _ (List.mem_map_of_mem (List.mem_of_mem_eraseIdx hg))
          · exact List.mem_append_right _ ht
        once := by
          rw [hcount]
          exact h.once
        taken := htaken
        stored := by
          intro g hg hstaged
          exact h.stored g (List.mem_of_mem_eraseIdx hg) hstaged }
  · cases hs

/-! ## Runs -/

theorem inv_start (schemas : Schemas) (autoIncs : AutoIncs) (rows : Rows) :
    Inv k (start schemas autoIncs rows) where
  sessions := by simp [start]
  behind := by simp [start]
  once := by simp [start, appended]
  taken := by simp [start, appended]
  stored := by simp [start]

theorem Inv.sparingStep (h : Inv k s) (hs : SparingStep k s s') : Inv k s' := by
  obtain ⟨a, hstep, hspare⟩ := hs
  cases a with
  | execute r stmt autocommit snap =>
    exact h.execute hstep fun rows e hrows => hspare r stmt autocommit snap rows e rfl hrows
  | begin r =>
    simp only [step, Engine.begin] at hstep
    split at hstep
    · cases hstep
      exact h.active r holds_empty
    · cases hstep
  | commit r =>
    simp only [step, Engine.commit] at hstep
    split at hstep
    · next t ht =>
      cases hstep
      exact h.commitTxn r (h.sessions r t (Or.inl ht))
    · cases hstep
  | rollback r =>
    simp only [step, Engine.rollback] at hstep
    split at hstep
    · cases hstep
      exact h.idle r
    · cases hstep
      exact h.idle r
    · cases hstep
  | append r => exact h.append hstep
  | sync n =>
    cases hstep
    exact h.sync n
  | install => exact h.install hstep
  | finish i => exact h.finish hstep

/-- Of the transactions that inserted a key at most one returns `Ok`, in every
run in which no statement deletes the key and none stages it again in a
transaction that inserted it. -/
theorem inserted_once (schemas : Schemas) (autoIncs : AutoIncs) (rows : Rows) (k : TKey)
    (h : ReflTransGen (SparingStep k) (start schemas autoIncs rows) s) :
    s.oks.countP (fun t => t.inserts k) ≤ 1 := by
  have hinv : Inv k s := Transition.invariant (P := Inv k) (inv_start schemas autoIncs rows)
    (fun _ _ hi hs => hi.sparingStep hs) h
  refine le_trans ?_ hinv.once
  exact (List.sublist_append_left s.oks _).countP_le

/-! ## Two inserts of one key -/

def stages (k : TKey) (check : Engine → Nat → StagedWrite → Bool) (a : Action) (s : Engine) : Bool :=
  match a with
  | .execute r stmt _ snap =>
    match s.base snap with
    | none => true
    | some rows => (s.attempt r stmt rows).2.staged[k]?.all (check s r)
  | _ => true

theorem check_of_stages {check : Engine → Nat → StagedWrite → Bool} {a : Action}
    (h : stages k check a s = true) {stmt : Stmt} {autocommit : Bool} {snap : Option Nat}
    {rows : Rows} {e : Executed} (ha : a = .execute r stmt autocommit snap)
    (hrows : s.base snap = some rows) (he : (s.attempt r stmt rows).2 = e) {w : StagedWrite}
    (hw : e.staged[k]? = some w) : check s r w = true := by
  subst ha
  simpa [stages, hrows, he, hw] using h

def checkedStep (k : TKey) (check : Engine → Nat → StagedWrite → Bool) (a : Action) (s : Engine) :
    Option Engine :=
  if stages k check a s then s.step a else none

/-- `KeepingStep` as a check. -/
def keeps (_ : Engine) (_ : Nat) (w : StagedWrite) : Bool := w.row.isSome

/-- `SparingStep` as a check. -/
def spares (k : TKey) (s : Engine) (r : Nat) (w : StagedWrite) : Bool :=
  w.row.isSome && !(s.txnOf r).inserts k

theorem keepingStep_of_keeps (k : TKey) (a : Action) (s s' : Engine)
    (h : checkedStep k keeps a s = some s') : KeepingStep k s s' := by
  unfold checkedStep at h
  split at h
  · next hcheck =>
    exact ⟨a, h, fun r stmt autocommit snap rows e ha hrows he w hw =>
      check_of_stages hcheck ha hrows he hw⟩
  · cases h

theorem sparingStep_of_spares (k : TKey) (a : Action) (s s' : Engine)
    (h : checkedStep k (spares k) a s = some s') : SparingStep k s s' := by
  unfold checkedStep at h
  split at h
  · next hcheck =>
    refine ⟨a, h, fun r stmt autocommit snap rows e ha hrows he w hw => ?_⟩
    have hspares : spares k s r w = true := check_of_stages hcheck ha hrows he hw
    simpa [spares] using hspares
  · cases h

/-- A table of an integer key and an integer. -/
def counters : Schema where
  columns :=
    [{ name := "id", ctype := .int, nullable := false, autoIncrement := false, defaultValue := none },
      { name := "n", ctype := .int, nullable := true, autoIncrement := false, defaultValue := none }]
  pkIdx := 0

def counterSchemas : Schemas := (∅ : Schemas).insert "default.counters" counters

def counterKey (id : Int64) : TKey := ("default.counters", 1 :: keyInt id)

/-- `INSERT INTO counters VALUES (id, n)`. -/
def insertCounter (id n : Int64) : Stmt :=
  .insert "counters" "default.counters" [[.int id, .int n]] fun _ => .ok ()

/-- `UPDATE counters SET n = ... WHERE id = ...`. -/
def updateCounter (id n : Int64) : Stmt :=
  .update "default.counters" (fun _ row => (Table.column row 0).eqv (.int id)) [(1, .int n)]
    fun _ => .ok []

/-- The phases of two commits, one behind the other. -/
def commitBoth : List Action :=
  [.append 0, .append 1, .sync 2, .install, .install, .finish 0, .finish 0]

/-- Two sessions insert one key and the later append fails; then the row is
updated. -/
def insertAgain : List Action :=
  [.begin 0, .begin 1, .execute 0 (insertCounter 7 0) true none,
    .execute 1 (insertCounter 7 0) true none, .commit 0, .commit 1, .append 0, .append 1, .sync 1,
    .install, .finish 0, .execute 1 (updateCounter 7 1) true none, .append 1, .sync 1, .install,
    .finish 0]

theorem insertAgain_runs :
    (Transition.exec (checkedStep (counterKey 7) (spares (counterKey 7))) (fun _ => true)
      insertAgain (start counterSchemas ∅ ∅)).map
        (fun s => (s.oks.length, s.oks.countP fun t => t.inserts (counterKey 7))) = some (2, 1) := by
  decide +kernel

theorem inserted_once_insertAgain :
    ∃ s : Engine, ReflTransGen (SparingStep (counterKey 7)) (start counterSchemas ∅ ∅) s ∧
      s.oks.length = 2 ∧ s.oks.countP (fun t => t.inserts (counterKey 7)) ≤ 1 := by
  obtain ⟨s, hexec, hends⟩ := Option.map_eq_some_iff.mp insertAgain_runs
  have hrun : ReflTransGen (SparingStep (counterKey 7)) (start counterSchemas ∅ ∅) s :=
    Transition.exec_runs (sparingStep_of_spares (counterKey 7)) hexec
  exact ⟨s, hrun, (Prod.mk.inj hends).1, inserted_once _ _ _ _ hrun⟩

/-- Two sessions insert one key and update the row before they commit. -/
def insertTwice : List Action :=
  [.begin 0, .begin 1, .execute 0 (insertCounter 7 0) true none,
    .execute 1 (insertCounter 7 0) true none, .execute 0 (updateCounter 7 1) true none,
    .execute 1 (updateCounter 7 2) true none, .commit 0, .commit 1] ++ commitBoth

theorem insertTwice_runs :
    (Transition.exec (checkedStep (counterKey 7) keeps) (fun _ => true) insertTwice
      (start counterSchemas ∅ ∅)).map (fun s => s.oks.countP fun t => t.inserts (counterKey 7)) = some 2 := by
  decide +kernel

/-- Both transactions return `Ok`: their updates staged the row without
`is_insert`. -/
theorem update_hides_insert :
    ¬ ∀ (schemas : Schemas) (autoIncs : AutoIncs) (rows : Rows) (k : TKey) (s : Engine),
      rows[k]? = none →
      ReflTransGen (KeepingStep k) (start schemas autoIncs rows) s →
        s.oks.countP (fun t => t.inserts k) ≤ 1 := by
  intro honce
  obtain ⟨s, hexec, hends⟩ := Option.map_eq_some_iff.mp insertTwice_runs
  have hrun : ReflTransGen (KeepingStep (counterKey 7)) (start counterSchemas ∅ ∅) s :=
    Transition.exec_runs (keepingStep_of_keeps (counterKey 7)) hexec
  have hle := honce _ _ _ _ s (by simp) hrun
  rw [hends] at hle
  exact absurd hle (by decide)

end Engine

end HenchDB.Session
