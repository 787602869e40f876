import HenchDB.Commit.Invariant
import HenchDB.Schema

/-!
# Commits that fail

`commit_txn` can return an error at six places: a table of the write set is gone
or a row is too large, before anything is done; an inserted key is taken, under
the commit lock; the syncer has stopped; the row that a write replaces cannot be
read (`record_commit_batch`); a row cannot be stored (`apply_raw`).  The last
three lie behind the append, and the function returns from there without an undo:
the records stay in the log, the marks in `in_flight`, and the frontier where it
is.

Here a commit is followed through these places among others (`Engine.step`,
`Engine.fail`).  `Recovered` is what should hold behind an error; it does if and
only if the error comes before the append (`recovered_iff`).
-/

namespace HenchDB.Failing

open Std (ExtTreeSet)
open Relation (ReflTransGen)
open Commit (Chained)

/-! ## Commits -/

structure StagedRow where
  key : TKey
  row : Option Bytes
  isInsert : Bool
deriving DecidableEq

def inserted (staged : List StagedRow) : List TKey :=
  (staged.filter StagedRow.isInsert).map StagedRow.key

/-- A call of `commit_txn` in front of phase A. -/
structure Call where
  id : Nat
  staged : List StagedRow

inductive FlightPhase where
  /-- In `wait_durable`. -/
  | appended
  | durable
  /-- Holds the install lock, with `done` applied and `pending` to apply. -/
  | installing (done pending : List StagedRow)
deriving DecidableEq

/-- A call of `commit_txn` behind phase A. -/
structure Flight where
  id : Nat
  staged : List StagedRow
  start : Nat
  fin : Nat
  phase : FlightPhase

/-- The bytes of a commit in the log. -/
def Flight.span (f : Flight) : Nat × Nat := (f.start, f.fin)

/-- A call that returned an error, and the rows it had applied. -/
structure Failure where
  id : Nat
  staged : List StagedRow
  applied : List StagedRow

structure Engine where
  tables : List String
  trees : Trees
  /-- The appended transactions. -/
  log : List (Nat × List StagedRow)
  /-- The next offset. -/
  written : Nat
  durable : Nat
  stopped : Bool
  frontier : Nat
  inFlight : ExtTreeSet TKey
  nextTxn : Nat
  calls : List Call
  /-- In the order of their appends. -/
  flights : List Flight
  /-- Installed, with the marks still to be removed. -/
  returning : List Flight
  /-- The commits that returned `Ok`. -/
  acked : List Nat

namespace Engine

/-- A database with the given tables and rows, and a log of `len` bytes. -/
def start (tables : List String) (trees : Trees) (len : Nat) : Engine where
  tables := tables
  trees := trees
  log := []
  written := len
  durable := len
  stopped := false
  frontier := len
  inFlight := ∅
  nextTxn := 0
  calls := []
  flights := []
  returning := []
  acked := []

/-! ## Steps of `commit_txn` -/

def tablesOk (s : Engine) (staged : List StagedRow) : Bool :=
  staged.all fun w => w.key.1 ∈ s.tables

def sizesOk (staged : List StagedRow) : Bool :=
  staged.all fun w => w.row.all fun row => row.length ≤ maxValueLen

/-- An inserted key is in a tree or in flight. -/
def duplicates (s : Engine) (staged : List StagedRow) : Bool :=
  (inserted staged).any fun k => s.trees.contains k || s.inFlight.contains k

/-- `commit_txn` up to phase A; an empty write set returns at once. -/
def commit (s : Engine) (staged : List StagedRow) : Option Engine :=
  if staged = [] then some s
  else if s.tablesOk staged ∧ sizesOk staged then
    some { s with calls := s.calls ++ [⟨s.nextTxn, staged⟩], nextTxn := s.nextTxn + 1 }
  else none

/-- Phase A, under the commit lock; `len` bytes are appended. -/
def append (s : Engine) (i len : Nat) : Option Engine :=
  match s.calls[i]? with
  | some c =>
    if 0 < len ∧ s.duplicates c.staged = false then
      some { s with
        calls := s.calls.eraseIdx i
        log := s.log ++ [(c.id, c.staged)]
        written := s.written + len
        inFlight := s.inFlight.insertMany (inserted c.staged)
        flights := s.flights ++ [⟨c.id, c.staged, s.written, s.written + len, .appended⟩] }
    else none
  | none => none

/-- A round of the syncer. -/
def sync (s : Engine) (upTo : Nat) : Option Engine :=
  if s.stopped = false ∧ s.durable ≤ upTo ∧ upTo ≤ s.written then some { s with durable := upTo }
  else none

def setPhase (s : Engine) (i : Nat) (f : Flight) (phase : FlightPhase) : Engine :=
  { s with flights := s.flights.set i { f with phase := phase } }

/-- Phase B: `wait_durable` returns. -/
def wait (s : Engine) (i : Nat) : Option Engine :=
  match s.flights[i]? with
  | some f => if f.phase = .appended ∧ f.fin ≤ s.durable then some (s.setPhase i f .durable) else none
  | none => none

def installHeld (s : Engine) : Bool :=
  s.flights.any fun f => match f.phase with
    | .installing _ _ => true
    | _ => false

/-- The commit has the install lock and the frontier is its start offset. -/
def installs (s : Engine) (f : Flight) : Prop :=
  f.phase = .durable ∧ s.frontier = f.start ∧ s.installHeld = false

instance (s : Engine) (f : Flight) : Decidable (s.installs f) :=
  inferInstanceAs (Decidable (_ ∧ _ ∧ _))

/-- Phase C up to the end of `record_commit_batch`. -/
def enter (s : Engine) (i : Nat) : Option Engine :=
  match s.flights[i]? with
  | some f => if s.installs f then some (s.setPhase i f (.installing [] f.staged)) else none
  | none => none

/-- Phase C: the next row. -/
def apply (s : Engine) (i : Nat) : Option Engine :=
  match s.flights[i]? with
  | some f =>
    match f.phase with
    | .installing done (w :: pending) =>
      some { s.setPhase i f (.installing (done ++ [w]) pending) with
        trees := applyWrite s.trees (w.key, w.row) }
    | _ => none
  | none => none

/-- Phase C: every row is applied and the frontier moves. -/
def finish (s : Engine) (i : Nat) : Option Engine :=
  match s.flights[i]? with
  | some f =>
    match f.phase with
    | .installing _ [] =>
      some { s with
        frontier := f.fin
        flights := s.flights.eraseIdx i
        returning := s.returning ++ [f] }
    | _ => none
  | none => none

/-- The marks of the staged keys are removed, if there were inserts, and `commit_txn`
returns. -/
def unmark (s : Engine) (i : Nat) : Option Engine :=
  match s.returning[i]? with
  | some f =>
    some { s with
      inFlight :=
        if inserted f.staged = [] then s.inFlight
        else (f.staged.map StagedRow.key).foldl (fun marks k => marks.erase k) s.inFlight
      returning := s.returning.eraseIdx i
      acked := f.id :: s.acked }
  | none => none

end Engine

/-! ## Errors -/

/-- Where `commit_txn` returns an error. -/
inductive FailAt where
  /-- A table is not there. -/
  | lookup (staged : List StagedRow)
  | size (staged : List StagedRow)
  /-- An inserted key is taken. -/
  | duplicate (i : Nat)
  /-- The syncer stopped. -/
  | wait (i : Nat)
  /-- `record_commit_batch` cannot read a row that is replaced. -/
  | record (i : Nat)
  /-- `apply_raw` cannot store a row. -/
  | apply (i : Nat)
deriving DecidableEq

def FailAt.beforeAppend : FailAt → Bool
  | .lookup _ => true
  | .size _ => true
  | .duplicate _ => true
  | _ => false

namespace Engine

def replaces (s : Engine) (staged : List StagedRow) : Bool :=
  staged.any fun w => s.trees[w.key]?.any fun raw => w.row ≠ some raw

/-- A commit behind the append returns an error. -/
def giveUp (s : Engine) (i : Nat) (f : Flight) (applied : List StagedRow) : Engine × Failure :=
  ({ s with flights := s.flights.eraseIdx i }, ⟨f.id, f.staged, applied⟩)

/-- `commit_txn` returns an error. -/
def fail (s : Engine) : FailAt → Option (Engine × Failure)
  | .lookup staged =>
    if s.tablesOk staged then none
    else some ({ s with nextTxn := s.nextTxn + 1 }, ⟨s.nextTxn, staged, []⟩)
  | .size staged =>
    if s.tablesOk staged = false ∨ sizesOk staged then none
    else some ({ s with nextTxn := s.nextTxn + 1 }, ⟨s.nextTxn, staged, []⟩)
  | .duplicate i =>
    match s.calls[i]? with
    | some c =>
      if s.duplicates c.staged then
        some ({ s with calls := s.calls.eraseIdx i }, ⟨c.id, c.staged, []⟩)
      else none
    | none => none
  | .wait i =>
    match s.flights[i]? with
    | some f =>
      if f.phase = .appended ∧ s.stopped ∧ s.durable < f.fin then some (s.giveUp i f []) else none
    | none => none
  | .record i =>
    match s.flights[i]? with
    | some f => if s.installs f ∧ s.replaces f.staged then some (s.giveUp i f []) else none
    | none => none
  | .apply i =>
    match s.flights[i]? with
    | some f =>
      match f.phase with
      | .installing done (w :: _) => if w.row.isSome then some (s.giveUp i f done) else none
      | _ => none
    | none => none

end Engine

/-! ## Runs -/

/-- The steps of the commits and of the syncer. -/
inductive Action where
  | commit (staged : List StagedRow)
  | append (i len : Nat)
  | sync (upTo : Nat)
  | stop
  | wait (i : Nat)
  | enter (i : Nat)
  | apply (i : Nat)
  | finish (i : Nat)
  | unmark (i : Nat)
  | fail (point : FailAt)

namespace Engine

def step (s : Engine) : Action → Option Engine
  | .commit staged => s.commit staged
  | .append i len => s.append i len
  | .sync upTo => s.sync upTo
  | .stop => some { s with stopped := true }
  | .wait i => s.wait i
  | .enter i => s.enter i
  | .apply i => s.apply i
  | .finish i => s.finish i
  | .unmark i => s.unmark i
  | .fail point => (s.fail point).map Prod.fst

/-- A step in which no commit fails behind its append. -/
def SparedStep (s s' : Engine) : Prop :=
  ∃ a, s.step a = some s' ∧ ∀ point, a = .fail point → point.beforeAppend

/-- A step of the commits in flight or of the syncer. -/
def CommitterStep (s s' : Engine) : Prop :=
  ∃ i, s.sync i = some s' ∨ s.wait i = some s' ∨ s.enter i = some s' ∨ s.apply i = some s' ∨
    s.finish i = some s' ∨ s.unmark i = some s'

/-- As long as the syncer runs, every commit in flight, now and later, can return `Ok`. -/
def Installable (s : Engine) : Prop :=
  ∀ s', ReflTransGen SparedStep s s' → s'.stopped = false →
    ∀ f ∈ s'.flights, ∃ s'', ReflTransGen CommitterStep s' s'' ∧ f.id ∈ s''.acked

end Engine

/-- What should hold when a commit has returned an error. -/
structure Recovered (s : Engine) (f : Failure) : Prop where
  /-- None of its rows is in the log and in the trees, or all are in both. -/
  allOrNothing : f.id ∉ s.log.map Prod.fst ∧ f.applied = [] ∨
    f.id ∈ s.log.map Prod.fst ∧ f.applied = f.staged
  marks : ∀ k ∈ s.inFlight, ∃ f' ∈ s.flights ++ s.returning, k ∈ inserted f'.staged
  /-- The frontier lets later commits install. -/
  installable : s.Installable

/-! ## The invariant -/

structure FlightOk (s : Engine) (f : Flight) : Prop where
  nonempty : f.staged ≠ []
  logged : f.id ∈ s.log.map Prod.fst
  locked : ∀ done pending, f.phase = .installing done pending →
    f.start = s.frontier ∧ done ++ pending = f.staged

/-- What holds of a call in front of its append. -/
structure CallOk (s : Engine) (c : Call) : Prop where
  nonempty : c.staged ≠ []
  fresh : c.id < s.nextTxn
  unlogged : c.id ∉ s.log.map Prod.fst

/-- What holds as long as no commit fails behind its append. -/
structure Inv (s : Engine) : Prop where
  chain : Chained s.frontier (s.flights.map Flight.span) s.written
  durable : s.durable ≤ s.written
  flights : ∀ f ∈ s.flights, FlightOk s f
  calls : ∀ c ∈ s.calls, CallOk s c
  distinct : (s.calls.map Call.id).Nodup
  log : ∀ id ∈ s.log.map Prod.fst, id < s.nextTxn
  marks : ∀ k ∈ s.inFlight, ∃ f ∈ s.flights ++ s.returning, k ∈ inserted f.staged

variable {s s' : Engine} {f : Flight} {i : Nat}

theorem inv_start (tables : List String) (trees : Trees) (len : Nat) :
    Inv (Engine.start tables trees len) where
  chain := rfl
  durable := le_rfl
  flights := by simp [Engine.start]
  calls := by simp [Engine.start]
  distinct := by simp [Engine.start]
  log := by simp [Engine.start]
  marks := by simp [Engine.start]

namespace Inv

theorem commit {staged : List StagedRow} (h : Inv s) (hs : s.commit staged = some s') : Inv s' := by
  rw [Engine.commit] at hs
  split at hs
  · cases hs
    exact h
  · next hstaged =>
    split at hs
    · cases hs
      have hfresh : s.nextTxn ∉ s.calls.map Call.id := by
        intro hmem
        obtain ⟨c, hc, hid⟩ := List.mem_map.mp hmem
        exact absurd ((h.calls c hc).fresh) (by omega)
      exact
        { h with
          flights := fun f hf => { h.flights f hf with }
          calls := by
            intro c hc
            obtain hc | hc := List.mem_append.mp hc
            · exact ⟨(h.calls c hc).nonempty, Nat.lt_succ_of_lt (h.calls c hc).fresh,
                (h.calls c hc).unlogged⟩
            · cases List.mem_singleton.mp hc
              exact ⟨hstaged, Nat.lt_succ_self _, fun hid => absurd (h.log _ hid) (lt_irrefl _)⟩
          distinct := by
            rw [List.map_append, List.nodup_append]
            refine ⟨h.distinct, List.nodup_singleton _, ?_⟩
            rintro id hid id' hid' rfl
            rw [List.map_singleton, List.mem_singleton] at hid'
            subst hid'
            exact hfresh hid
          log := fun id hid => Nat.lt_succ_of_lt (h.log id hid) }
    · cases hs

theorem eraseCall (h : Inv s) (i : Nat) : Inv { s with calls := s.calls.eraseIdx i } :=
  { h with
    flights := fun f hf => { h.flights f hf with }
    calls := fun c hc => { h.calls c (List.mem_of_mem_eraseIdx hc) with }
    distinct := h.distinct.sublist ((List.eraseIdx_sublist _ _).map _) }

theorem append {len : Nat} (h : Inv s) (hs : s.append i len = some s') : Inv s' := by
  rw [Engine.append] at hs
  split at hs
  · next c hc =>
    split at hs
    · next hlen =>
      cases hs
      have hmem := List.mem_of_getElem? hc
      -- the other calls have other ids
      have hothers : ∀ c' ∈ s.calls.eraseIdx i, c'.id ≠ c.id := by
        intro c' hc' hid
        obtain ⟨hi, rfl⟩ := List.getElem?_eq_some_iff.mp hc
        have hperm := (List.getElem_cons_eraseIdx_perm hi).map Call.id
        have hnodup := hperm.nodup_iff.mpr h.distinct
        rw [List.map_cons, List.nodup_cons] at hnodup
        exact hnodup.1 (hid ▸ List.mem_map_of_mem hc')
      exact
        { chain := by
            rw [List.map_append]
            exact h.chain.append (Nat.lt_add_of_pos_right hlen.1)
          durable := Nat.le_add_right_of_le h.durable
          flights := by
            intro f hf
            obtain hf | hf := List.mem_append.mp hf
            · exact ⟨(h.flights f hf).nonempty, by
                simp only [List.map_append, List.mem_append]
                exact .inl (h.flights f hf).logged, (h.flights f hf).locked⟩
            · cases List.mem_singleton.mp hf
              exact ⟨(h.calls c hmem).nonempty, by simp, by rintro done pending ⟨⟩⟩
          calls := by
            intro c' hc'
            have hold := h.calls c' (List.mem_of_mem_eraseIdx hc')
            refine ⟨hold.nonempty, hold.fresh, fun hid => ?_⟩
            rw [List.map_append, List.mem_append, List.map_singleton, List.mem_singleton] at hid
            exact hid.elim hold.unlogged (hothers c' hc')
          distinct := h.distinct.sublist ((List.eraseIdx_sublist _ _).map _)
          log := by
            intro id hid
            rw [List.map_append, List.mem_append, List.map_singleton, List.mem_singleton] at hid
            exact hid.elim (h.log id) fun heq => heq ▸ (h.calls c hmem).fresh
          marks := by
            intro k hk
            rw [ExtTreeSet.mem_insertMany_list] at hk
            obtain hk | hk := hk
            · obtain ⟨f, hf, hkf⟩ := h.marks k hk
              refine ⟨f, ?_, hkf⟩
              simp only [List.mem_append] at hf ⊢
              exact hf.imp_left .inl
            · refine ⟨⟨c.id, c.staged, s.written, s.written + len, .appended⟩, by simp, ?_⟩
              simpa using hk }
    · cases hs
  · cases hs

theorem sync {upTo : Nat} (h : Inv s) (hs : s.sync upTo = some s') : Inv s' := by
  rw [Engine.sync] at hs
  split at hs
  · next hok =>
    cases hs
    exact
      { h with
        durable := hok.2.2
        flights := fun f hf => { h.flights f hf with }
        calls := fun c hc => { h.calls c hc with } }
  · cases hs

theorem setPhase {phase : FlightPhase} (h : Inv s) (hf : s.flights[i]? = some f)
    (hphase : ∀ done pending, phase = .installing done pending →
      f.start = s.frontier ∧ done ++ pending = f.staged) : Inv (s.setPhase i f phase) where
  chain := by
    have hspans : (s.flights.set i { f with phase := phase }).map Flight.span =
        s.flights.map Flight.span := by
      rw [List.map_set]
      refine List.set_same ?_
      rw [List.getElem?_map, hf]
      rfl
    exact hspans ▸ h.chain
  durable := h.durable
  flights := by
    intro f' hf'
    obtain hf' | rfl := List.mem_or_eq_of_mem_set hf'
    · exact { h.flights f' hf' with }
    · have hold := h.flights f (List.mem_of_getElem? hf)
      exact ⟨hold.nonempty, hold.logged, hphase⟩
  calls := fun c hc => { h.calls c hc with }
  distinct := h.distinct
  log := h.log
  marks := by
    intro k hk
    obtain ⟨f', hf', hkf⟩ := h.marks k hk
    obtain hf' | hf' := List.mem_append.mp hf'
    · obtain ⟨j, hj⟩ := List.mem_iff_getElem?.mp hf'
      by_cases hij : i = j
      · subst hij
        rw [hf, Option.some.injEq] at hj
        subst hj
        refine ⟨{ f with phase := phase }, List.mem_append_left _ ?_, hkf⟩
        exact List.mem_set (List.getElem?_eq_some_iff.mp hf).1 _
      · refine ⟨f', List.mem_append_left _ (List.mem_of_getElem? (i := j) ?_), hkf⟩
        rw [Engine.setPhase]
        simp only [List.getElem?_set_ne hij, hj]
    · exact ⟨f', List.mem_append_right _ hf', hkf⟩

theorem wait (h : Inv s) (hs : s.wait i = some s') : Inv s' := by
  rw [Engine.wait] at hs
  split at hs
  · next f hf =>
    split at hs
    · cases hs
      exact h.setPhase hf (by rintro done pending ⟨⟩)
    · cases hs
  · cases hs

theorem enter (h : Inv s) (hs : s.enter i = some s') : Inv s' := by
  rw [Engine.enter] at hs
  split at hs
  · next f hf =>
    split at hs
    · next hinstalls =>
      cases hs
      refine h.setPhase hf ?_
      rintro done pending ⟨⟩
      exact ⟨hinstalls.2.1.symm, rfl⟩
    · cases hs
  · cases hs

/-- The rows of the trees do not matter. -/
theorem congr_trees (h : Inv s) (trees : Trees) : Inv { s with trees := trees } :=
  { h with
    flights := fun f hf => { h.flights f hf with }
    calls := fun c hc => { h.calls c hc with } }

theorem apply (h : Inv s) (hs : s.apply i = some s') : Inv s' := by
  rw [Engine.apply] at hs
  split at hs
  · next f hf =>
    split at hs
    · next done w pending hphase =>
      cases hs
      refine (h.setPhase hf ?_).congr_trees _
      rintro done' pending' ⟨⟩
      obtain ⟨hstart, hparts⟩ := (h.flights f (List.mem_of_getElem? hf)).locked _ _ hphase
      exact ⟨hstart, by rw [List.append_assoc]; exact hparts⟩
    · cases hs
  · cases hs

/-- The commit that holds the install lock is the first one in flight. -/
theorem installing_head {done pending : List StagedRow} (h : Inv s) (hf : s.flights[i]? = some f)
    (hphase : f.phase = .installing done pending) :
    i = 0 ∧ ∃ rest, s.flights = f :: rest := by
  have hspan : (s.flights.map Flight.span)[i]? = some f.span := by
    rw [List.getElem?_map, hf]
    rfl
  have hi := h.chain.eq_head hspan ((h.flights f (List.mem_of_getElem? hf)).locked _ _ hphase).1
  subst hi
  cases hflights : s.flights with
  | nil =>
    rw [hflights] at hf
    cases hf
  | cons f' rest =>
    rw [hflights] at hf
    cases hf
    exact ⟨rfl, rest, rfl⟩

theorem finish (h : Inv s) (hs : s.finish i = some s') : Inv s' := by
  rw [Engine.finish] at hs
  split at hs
  · next f hf =>
    split at hs
    · next done hphase =>
      cases hs
      obtain ⟨rfl, rest, hflights⟩ := h.installing_head hf hphase
      have hchain := h.chain
      rw [hflights, List.map_cons] at hchain
      obtain ⟨-, hlt, hrest⟩ := hchain
      have hstart := ((h.flights f (List.mem_of_getElem? hf)).locked _ _ hphase).1
      have herase : s.flights.eraseIdx 0 = rest := by rw [hflights]; rfl
      exact
        { chain := herase ▸ hrest
          durable := h.durable
          flights := by
            intro f' hf'
            have hmem := List.mem_of_mem_eraseIdx hf'
            refine ⟨(h.flights f' hmem).nonempty, (h.flights f' hmem).logged,
              fun done' pending' hphase' => ?_⟩
            -- nobody else holds the lock
            exfalso
            obtain ⟨j, hj⟩ := List.mem_iff_getElem?.mp (herase ▸ hf')
            have hj' : s.flights[j + 1]? = some f' := by rw [hflights]; exact hj
            exact absurd (h.installing_head hj' hphase').1 (Nat.succ_ne_zero j)
          calls := fun c hc => { h.calls c hc with }
          distinct := h.distinct
          log := h.log
          marks := by
            intro k hk
            obtain ⟨f', hf', hkf⟩ := h.marks k hk
            refine ⟨f', ?_, hkf⟩
            rw [hflights] at hf'
            simp only [herase, List.mem_append, List.mem_cons] at hf' ⊢
            tauto }
    · cases hs
  · cases hs

theorem mem_foldl_erase {k : TKey} {keys : List TKey} {marks : ExtTreeSet TKey}
    (h : k ∈ keys.foldl (fun marks k => marks.erase k) marks) : k ∈ marks ∧ k ∉ keys := by
  induction keys generalizing marks with
  | nil => exact ⟨h, List.not_mem_nil⟩
  | cons k' keys ih =>
    obtain ⟨hmarks, hkeys⟩ := ih h
    rw [ExtTreeSet.mem_erase] at hmarks
    refine ⟨hmarks.2, fun hk => ?_⟩
    obtain rfl | hk := List.mem_cons.mp hk
    · exact hmarks.1 Std.ReflCmp.compare_self
    · exact hkeys hk

/-- The marks that are left are not those of the commit that returns. -/
theorem mem_unmarked {k : TKey} {staged : List StagedRow} {marks : ExtTreeSet TKey}
    (h : k ∈ if inserted staged = [] then marks
      else (staged.map StagedRow.key).foldl (fun marks k => marks.erase k) marks) :
    k ∈ marks ∧ k ∉ inserted staged := by
  split at h
  · next hnone => exact ⟨h, hnone ▸ List.not_mem_nil⟩
  · obtain ⟨hmarks, hkeys⟩ := mem_foldl_erase h
    refine ⟨hmarks, fun hk => hkeys ?_⟩
    obtain ⟨w, hw, rfl⟩ := List.mem_map.mp hk
    exact List.mem_map_of_mem (List.mem_of_mem_filter hw)

theorem unmark (h : Inv s) (hs : s.unmark i = some s') : Inv s' := by
  rw [Engine.unmark] at hs
  split at hs
  · next f hf =>
    cases hs
    exact
      { h with
        flights := fun f hf => { h.flights f hf with }
        calls := fun c hc => { h.calls c hc with }
        marks := by
          intro k hk
          obtain ⟨hold, hnot⟩ := mem_unmarked hk
          obtain ⟨f', hf', hkf⟩ := h.marks k hold
          refine ⟨f', ?_, hkf⟩
          rw [List.mem_append] at hf' ⊢
          refine hf'.imp_right fun hf' => ?_
          obtain ⟨j, hj⟩ := List.mem_iff_getElem?.mp hf'
          refine List.mem_eraseIdx_iff_getElem?.mpr ⟨j, ?_, hj⟩
          rintro rfl
          rw [hf, Option.some.injEq] at hj
          exact hnot (hj ▸ hkf) }
  · cases hs

/-- An error in front of the append changes the calls at most. -/
theorem fail {point : FailAt} {failure : Failure} (h : Inv s)
    (hs : s.fail point = some (s', failure)) (hpoint : point.beforeAppend) : Inv s' := by
  have hnext : Inv { s with nextTxn := s.nextTxn + 1 } :=
    { h with
      flights := fun f hf => { h.flights f hf with }
      calls := fun c hc => { h.calls c hc with fresh := Nat.lt_succ_of_lt (h.calls c hc).fresh }
      log := fun id hid => Nat.lt_succ_of_lt (h.log id hid) }
  cases point with
  | lookup staged =>
    rw [Engine.fail] at hs
    split at hs
    · cases hs
    · cases hs
      exact hnext
  | size staged =>
    rw [Engine.fail] at hs
    split at hs
    · cases hs
    · cases hs
      exact hnext
  | duplicate i =>
    rw [Engine.fail] at hs
    split at hs
    · split at hs
      · cases hs
        exact h.eraseCall i
      · cases hs
    · cases hs
  | wait i => cases hpoint
  | record i => cases hpoint
  | apply i => cases hpoint

theorem step (h : Inv s) (hs : s.SparedStep s') : Inv s' := by
  obtain ⟨a, hstep, hspared⟩ := hs
  cases a with
  | commit staged => exact h.commit hstep
  | append i len => exact h.append hstep
  | sync upTo => exact h.sync hstep
  | stop =>
    cases hstep
    exact
      { h with
        flights := fun f hf => { h.flights f hf with }
        calls := fun c hc => { h.calls c hc with } }
  | wait i => exact h.wait hstep
  | enter i => exact h.enter hstep
  | apply i => exact h.apply hstep
  | finish i => exact h.finish hstep
  | unmark i => exact h.unmark hstep
  | fail point =>
    obtain ⟨⟨s'', failure⟩, hfail, rfl⟩ := Option.map_eq_some_iff.mp hstep
    exact h.fail hfail (hspared point rfl)

theorem run (h : Inv s) (hrun : ReflTransGen Engine.SparedStep s s') : Inv s' :=
  Transition.invariant h (fun _ _ => step) hrun

end Inv

/-! ## Later commits install -/

section Installing

open Relation

variable {rest : List Flight}

theorem spared_of_committer (h : s.CommitterStep s') : s.SparedStep s' := by
  obtain ⟨i, h | h | h | h | h | h⟩ := h
  · exact ⟨.sync i, h, by rintro point ⟨⟩⟩
  · exact ⟨.wait i, h, by rintro point ⟨⟩⟩
  · exact ⟨.enter i, h, by rintro point ⟨⟩⟩
  · exact ⟨.apply i, h, by rintro point ⟨⟩⟩
  · exact ⟨.finish i, h, by rintro point ⟨⟩⟩
  · exact ⟨.unmark i, h, by rintro point ⟨⟩⟩

/-- The rows that are left are applied one after the other. -/
theorem applies_all {pending : List StagedRow} {done : List StagedRow}
    (hflights : s.flights = f :: rest) (hphase : f.phase = .installing done pending) :
    ∃ s', ReflTransGen Engine.CommitterStep s s' ∧ s'.stopped = s.stopped ∧
      ∃ f', s'.flights = f' :: rest ∧ f'.id = f.id ∧ ∃ done', f'.phase = .installing done' [] := by
  induction pending generalizing s f done with
  | nil => exact ⟨s, .refl, rfl, f, hflights, rfl, done, hphase⟩
  | cons w pending ih =>
    let f' : Flight := { f with phase := .installing (done ++ [w]) pending }
    let s₁ : Engine := { s with flights := f' :: rest, trees := applyWrite s.trees (w.key, w.row) }
    have happly : s.apply 0 = some s₁ := by
      rw [Engine.apply, hflights]
      simp only [List.getElem?_cons_zero, hphase]
      rw [Engine.setPhase, hflights]
      rfl
    obtain ⟨s', hrun, hstopped, hflights'⟩ := @ih s₁ f' (done ++ [w]) rfl rfl
    exact ⟨s', .head ⟨0, .inr (.inr (.inr (.inl happly)))⟩ hrun, hstopped, hflights'⟩

theorem returns_first (hflights : s.flights = f :: rest) {done : List StagedRow}
    (hphase : f.phase = .installing done []) :
    ∃ s', ReflTransGen Engine.CommitterStep s s' ∧ s'.stopped = s.stopped ∧ s'.flights = rest ∧
      f.id ∈ s'.acked := by
  let s₁ : Engine := { s with
    frontier := f.fin
    flights := rest
    returning := s.returning ++ [f] }
  have hfinish : s.finish 0 = some s₁ := by
    rw [Engine.finish, hflights]
    simp only [List.getElem?_cons_zero, hphase]
    rfl
  have hreturning : s₁.returning[s.returning.length]? = some f := List.getElem?_concat_length
  obtain ⟨s₂, hunmark, hstopped, hrest, hacked⟩ : ∃ s₂, s₁.unmark s.returning.length = some s₂ ∧
      s₂.stopped = s₁.stopped ∧ s₂.flights = rest ∧ f.id ∈ s₂.acked := by
    rw [Engine.unmark, hreturning]
    exact ⟨_, rfl, rfl, rfl, List.mem_cons_self⟩
  exact ⟨s₂, .head ⟨0, .inr (.inr (.inr (.inr (.inl hfinish))))⟩
    (.single ⟨_, .inr (.inr (.inr (.inr (.inr hunmark))))⟩), hstopped, hrest, hacked⟩

theorem Inv.first_returns (h : Inv s) (hrunning : s.stopped = false) (hflights : s.flights = f :: rest) :
    ∃ s', ReflTransGen Engine.CommitterStep s s' ∧ s'.stopped = false ∧ s'.flights = rest ∧
      f.id ∈ s'.acked := by
  -- from the install on
  have hinstall {s : Engine} {f : Flight} {done pending : List StagedRow} (hrunning : s.stopped = false)
      (hflights : s.flights = f :: rest) (hphase : f.phase = .installing done pending) :
      ∃ s', ReflTransGen Engine.CommitterStep s s' ∧ s'.stopped = false ∧ s'.flights = rest ∧
        f.id ∈ s'.acked := by
    obtain ⟨s₁, hrun₁, hstopped₁, f₁, hflights₁, hid, done₁, hphase₁⟩ := applies_all hflights hphase
    obtain ⟨s₂, hrun₂, hstopped₂, hrest, hacked⟩ := returns_first hflights₁ hphase₁
    exact ⟨s₂, hrun₁.trans hrun₂, by rw [hstopped₂, hstopped₁, hrunning], hrest, hid ▸ hacked⟩
  -- from the frontier on
  have henter {s : Engine} {f : Flight} (h : Inv s) (hrunning : s.stopped = false)
      (hflights : s.flights = f :: rest) (hphase : f.phase = .durable) :
      ∃ s', ReflTransGen Engine.CommitterStep s s' ∧ s'.stopped = false ∧ s'.flights = rest ∧
        f.id ∈ s'.acked := by
    have hstart : s.frontier = f.start := by
      have hchain := h.chain
      rw [hflights, List.map_cons] at hchain
      exact hchain.1.symm
    have hfree : s.installHeld = false := by
      rw [Engine.installHeld, List.any_eq_false]
      intro f' hf' hheld
      split at hheld
      · next done pending hphase' =>
        obtain ⟨j, hj⟩ := List.mem_iff_getElem?.mp hf'
        obtain ⟨rfl, rest', hflights'⟩ := h.installing_head hj hphase'
        rw [hflights, List.cons.injEq] at hflights'
        rw [← hflights'.1, hphase] at hphase'
        cases hphase'
      · cases hheld
    let f' : Flight := { f with phase := .installing [] f.staged }
    have henter : s.enter 0 = some { s with flights := f' :: rest } := by
      rw [Engine.enter, hflights]
      simp only [List.getElem?_cons_zero]
      rw [if_pos ⟨hphase, hstart, hfree⟩, Engine.setPhase, hflights]
      rfl
    obtain ⟨s', hrun, hend⟩ := @hinstall { s with flights := f' :: rest } f' [] f.staged hrunning rfl rfl
    exact ⟨s', .head ⟨0, .inr (.inr (.inl henter))⟩ hrun, hend⟩
  cases hphase : f.phase with
  | installing done pending => exact hinstall hrunning hflights hphase
  | durable => exact henter h hrunning hflights hphase
  | appended =>
    have hfin : f.fin ≤ s.written := by
      have hmem : f.span ∈ s.flights.map Flight.span := by
        rw [hflights]
        exact List.mem_cons_self
      exact (h.chain.bounds _ hmem).2.2
    let f' : Flight := { f with phase := .durable }
    let s₁ : Engine := { s with durable := s.written }
    let s₂ : Engine := { s₁ with flights := f' :: rest }
    have hsync : s.sync s.written = some s₁ := if_pos ⟨hrunning, h.durable, le_rfl⟩
    have hwait : s₁.wait 0 = some s₂ := by
      rw [Engine.wait, show s₁.flights = f :: rest from hflights]
      simp only [List.getElem?_cons_zero]
      rw [if_pos ⟨hphase, hfin⟩, Engine.setPhase, show s₁.flights = f :: rest from hflights]
      rfl
    obtain ⟨s', hrun, hend⟩ := henter ((h.sync hsync).wait hwait) hrunning rfl rfl
    exact ⟨s', .head ⟨_, .inl hsync⟩ (.head ⟨0, .inr (.inl hwait)⟩ hrun), hend⟩

theorem Inv.returns {flights : List Flight} (h : Inv s) (hrunning : s.stopped = false)
    (hflights : s.flights = flights) (hf : f ∈ flights) :
    ∃ s', ReflTransGen Engine.CommitterStep s s' ∧ f.id ∈ s'.acked := by
  induction flights generalizing s with
  | nil => cases hf
  | cons f' rest ih =>
    obtain ⟨s₁, hrun, hrunning₁, hrest, hacked⟩ := h.first_returns hrunning hflights
    obtain rfl | hf := List.mem_cons.mp hf
    · exact ⟨s₁, hrun, hacked⟩
    · have h₁ := h.run (ReflTransGen.mono (fun _ _ => spared_of_committer) _ _ hrun)
      obtain ⟨s₂, hrun₂, hacked₂⟩ := ih h₁ hrunning₁ hrest hf
      exact ⟨s₂, hrun.trans hrun₂, hacked₂⟩

theorem Inv.installable (h : Inv s) : s.Installable := fun _ hrun hrunning _ hf =>
  (h.run hrun).returns hrunning rfl hf

end Installing

/-! ## Errors before and behind the append -/

theorem Inv.unlogged {point : FailAt} {failure : Failure} (h : Inv s)
    (hs : s.fail point = some (s', failure)) (hpoint : point.beforeAppend) :
    failure.id ∉ s'.log.map Prod.fst ∧ failure.applied = [] := by
  have hnext : s.nextTxn ∉ s.log.map Prod.fst := fun hid => absurd (h.log _ hid) (lt_irrefl _)
  cases point with
  | lookup staged =>
    rw [Engine.fail] at hs
    split at hs
    · cases hs
    · cases hs
      exact ⟨hnext, rfl⟩
  | size staged =>
    rw [Engine.fail] at hs
    split at hs
    · cases hs
    · cases hs
      exact ⟨hnext, rfl⟩
  | duplicate i =>
    rw [Engine.fail] at hs
    split at hs
    · next c hc =>
      split at hs
      · cases hs
        exact ⟨(h.calls c (List.mem_of_getElem? hc)).unlogged, rfl⟩
      · cases hs
    · cases hs
  | wait i => cases hpoint
  | record i => cases hpoint
  | apply i => cases hpoint

/-- The failed commit is in the log, and some of its rows are not applied. -/
theorem Inv.torn {point : FailAt} {failure : Failure} (h : Inv s)
    (hs : s.fail point = some (s', failure)) (hpoint : point.beforeAppend = false) :
    failure.id ∈ s'.log.map Prod.fst ∧ failure.applied ≠ failure.staged := by
  have hgiveUp {i : Nat} {f : Flight} (hf : s.flights[i]? = some f) {applied : List StagedRow}
      (happlied : applied ≠ f.staged) (hs : s.giveUp i f applied = (s', failure)) :
      failure.id ∈ s'.log.map Prod.fst ∧ failure.applied ≠ failure.staged := by
    cases hs
    exact ⟨(h.flights f (List.mem_of_getElem? hf)).logged, happlied⟩
  have hnone {i : Nat} {f : Flight} (hf : s.flights[i]? = some f) : [] ≠ f.staged :=
    (h.flights f (List.mem_of_getElem? hf)).nonempty.symm
  cases point with
  | lookup staged => cases hpoint
  | size staged => cases hpoint
  | duplicate i => cases hpoint
  | wait i =>
    rw [Engine.fail] at hs
    split at hs
    · next f hf =>
      split at hs
      · exact hgiveUp hf (hnone hf) (Option.some.inj hs)
      · cases hs
    · cases hs
  | record i =>
    rw [Engine.fail] at hs
    split at hs
    · next f hf =>
      split at hs
      · exact hgiveUp hf (hnone hf) (Option.some.inj hs)
      · cases hs
    · cases hs
  | apply i =>
    rw [Engine.fail] at hs
    split at hs
    · next f hf =>
      split at hs
      · next done w pending hphase =>
        split at hs
        · refine hgiveUp hf (fun heq => ?_) (Option.some.inj hs)
          have hparts := ((h.flights f (List.mem_of_getElem? hf)).locked _ _ hphase).2
          rw [← heq] at hparts
          simp at hparts
        · cases hs
      · cases hs
    · cases hs

/-- Behind an error everything is as it should be if and only if the error comes before the
append. -/
theorem recovered_iff {tables : List String} {trees : Trees} {len : Nat} {point : FailAt}
    {failure : Failure}
    (hrun : ReflTransGen Engine.SparedStep (Engine.start tables trees len) s)
    (hs : s.fail point = some (s', failure)) : Recovered s' failure ↔ point.beforeAppend := by
  have h := (inv_start tables trees len).run hrun
  constructor
  · intro hrecovered
    by_contra hpoint
    obtain ⟨hlogged, hrows⟩ := h.torn hs (Bool.eq_false_iff.mpr hpoint)
    obtain ⟨hnot, -⟩ | ⟨-, hall⟩ := hrecovered.allOrNothing
    · exact hnot hlogged
    · exact hrows hall
  · intro hpoint
    have h' := h.fail hs hpoint
    exact ⟨.inl (h.unlogged hs hpoint), h'.marks, h'.installable⟩

def oneRow : List StagedRow := [⟨("t", [1]), some [0], true⟩]

/-- A commit that has the install lock, behind its steps one by one. -/
def oneInstalling : Engine where
  tables := ["t"]
  trees := ∅
  log := [(0, oneRow)]
  written := 18
  durable := 18
  stopped := false
  frontier := 8
  inFlight := (∅ : ExtTreeSet TKey).insertMany [("t", [1])]
  nextTxn := 1
  calls := []
  flights := [⟨0, oneRow, 8, 18, .installing [] oneRow⟩]
  returning := []
  acked := []

theorem oneInstalling_runs :
    ReflTransGen Engine.SparedStep (Engine.start ["t"] ∅ 8) oneInstalling := by
  have hexec : Transition.exec (fun a s => Engine.step s a) (fun _ => true)
      [.commit oneRow, .append 0 10, .sync 18, .wait 0, .enter 0] (Engine.start ["t"] ∅ 8) =
        some oneInstalling := by rfl
  refine Transition.exec_runs_of_mem (fun a ha s s' hs => ⟨a, hs, ?_⟩) hexec
  rintro point rfl
  simp at ha

/-- A row that cannot be stored: its record is in the log, and the row is nowhere. -/
theorem failed_apply_not_recovered :
    ¬∀ (s s' : Engine) (point : FailAt) (failure : Failure),
      ReflTransGen Engine.SparedStep (Engine.start ["t"] ∅ 8) s →
        s.fail point = some (s', failure) → Recovered s' failure := by
  intro h
  have hrecovered := h oneInstalling _ (.apply 0) ⟨0, oneRow, []⟩ oneInstalling_runs rfl
  obtain ⟨hnot, -⟩ | ⟨-, hall⟩ := hrecovered.allOrNothing
  · exact hnot (by decide)
  · exact absurd hall (by decide)

theorem recovered_of_missing_table :
    ∃ s', (Engine.start [] ∅ 8).fail (.lookup oneRow) = some (s', ⟨0, oneRow, []⟩) ∧
      Recovered s' ⟨0, oneRow, []⟩ := by
  have hfail : (Engine.start [] ∅ 8).fail (.lookup oneRow) =
      some ({ Engine.start [] ∅ 8 with nextTxn := 1 }, ⟨0, oneRow, []⟩) := rfl
  exact ⟨_, hfail, (recovered_iff .refl hfail).mpr rfl⟩

end HenchDB.Failing
