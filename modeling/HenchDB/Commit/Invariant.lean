import HenchDB.Commit.Pipeline
import HenchDB.Lib.Splice

/-!
# The invariant of the commit pipeline

The log is the settled entries, all installed and durable, followed by the
entries of the commits in flight, whose offsets form a chain from the frontier
to the end of the log (`Chained`).  The snapshot agrees with the rows before
the log on every key that the durable part of the log does not write, so redo
brings it up to date (`Inv.durable_state`).

This module has the steps of the commits and of the syncer.
-/

namespace HenchDB.Commit

/-! ## Chains of offsets -/

/-- Consecutive, nonempty spans from one offset to another. -/
def Chained : Nat → List (Nat × Nat) → Nat → Prop
  | a, [], b => a = b
  | a, (start, fin) :: rest, b => start = a ∧ start < fin ∧ Chained fin rest b

theorem Chained.append {b c : Nat} (hbc : b < c) :
    ∀ {a : Nat} {spans : List (Nat × Nat)}, Chained a spans b →
      Chained a (spans ++ [(b, c)]) c
  | _, [], h => ⟨h.symm, hbc, rfl⟩
  | _, (_, _) :: _, h => ⟨h.1, h.2.1, h.2.2.append hbc⟩

/-- Every span lies between the ends of the chain. -/
theorem Chained.bounds : ∀ {a b : Nat} {spans : List (Nat × Nat)}, Chained a spans b →
    ∀ p ∈ spans, a ≤ p.1 ∧ p.1 < p.2 ∧ p.2 ≤ b
  | _, _, [], _ => by simp
  | a, b, (start, fin) :: rest, h => by
    obtain ⟨rfl, hlt, hrest⟩ := h
    have hend : fin ≤ b := by
      cases rest with
      | nil => exact le_of_eq hrest
      | cons q rest' =>
        have := hrest.bounds q (by simp)
        omega
    intro p hp
    rcases List.mem_cons.mp hp with rfl | hp
    · exact ⟨le_rfl, hlt, hend⟩
    · have := hrest.bounds p hp
      exact ⟨by omega, this.2.1, this.2.2⟩

/-- Only the first span starts where the chain starts. -/
theorem Chained.eq_head {a b : Nat} {spans : List (Nat × Nat)} (h : Chained a spans b) {i : Nat}
    {p : Nat × Nat} (hp : spans[i]? = some p) (hstart : p.1 = a) : i = 0 := by
  cases spans with
  | nil => simp at hp
  | cons q rest =>
    cases i with
    | zero => rfl
    | succ i =>
      obtain ⟨hq, hlt, hrest⟩ := h
      have := hrest.bounds p (List.mem_of_getElem? hp)
      omega

namespace Engine

def span (f : Flight) : Nat × Nat := (f.start, f.fin)

def applied (f : Flight) : List Write :=
  match f.phase with
  | .installing done _ => done
  | _ => []

def appliedRows (s : Engine) : List Write :=
  match s.flights with
  | f :: _ => applied f
  | [] => []

def durableWrites (s : Engine) : List Write := (s.surviving s.durable).flatMap Logged.writes

def beforeLog (s : Engine) : Trees := replay s.base s.before.flatten

structure ReadOk (s : Engine) (image : Trees) (k : TKey) : Prop where
  redo : lastWrite s.durableWrites k = none → image[k]? = s.beforeLog[k]?
  /-- It is up to date if no commit came in behind the scan. -/
  fresh : s.stale = false → image[k]? = s.trees[k]?

/-- What the running checkpoint has read, if no row was moved behind its scan. -/
def CkptOk (s : Engine) : Ckpt → Prop
  | .scanning todo _ image =>
    todo.Nodup ∧ (s.moved = false → ∀ k : TKey, (s.scanned k = true → s.ReadOk image k) ∧
      (s.scanned k = false → image[k]? = none))
  | .written image => s.moved = false → ∀ k : TKey, s.ReadOk image k
  | .renamed => s.stale = false → ∀ k : TKey, s.snapshot[k]? = s.trees[k]?
  | _ => True

/-- The part that does not look at snapshots: where the commits in flight
stand, and what the rows are. -/
structure Core (s : Engine) (settled : List Logged) : Prop where
  wal : s.wal = settled ++ s.flights.map Flight.logged
  settled_durable : ∀ e ∈ settled, e.fin ≤ s.durable
  durable_le : s.durable ≤ s.written
  chain : s.ckpt ≠ some .truncated → Chained s.frontier (s.flights.map span) s.written
  idle : s.ckpt = some .truncated → s.flights = []
  waited : ∀ f ∈ s.flights, f.phase = .durable → f.fin ≤ s.durable
  installing : ∀ i f done pending, s.flights[i]? = some f → f.phase = .installing done pending →
    i = 0 ∧ f.fin ≤ s.durable ∧ f.writes = done ++ pending
  trees : s.trees = replay s.beforeLog (settled.flatMap Logged.writes ++ s.appliedRows)

/-- Every reachable state; `settled` are the log entries that are installed. -/
structure Inv (s : Engine) (settled : List Logged) : Prop where
  wal : s.wal = settled ++ s.flights.map Flight.logged
  settled_durable : ∀ e ∈ settled, e.fin ≤ s.durable
  acked : ∀ txn ∈ s.acked, txn < s.before.length + settled.length
  txns : ∀ i f, s.flights[i]? = some f → f.txn = s.before.length + settled.length + i
  durable_le : s.durable ≤ s.written
  chain : s.ckpt ≠ some .truncated → Chained s.frontier (s.flights.map span) s.written
  idle : s.ckpt = some .truncated → s.flights = []
  waited : ∀ f ∈ s.flights, f.phase = .durable → f.fin ≤ s.durable
  installing : ∀ i f done pending, s.flights[i]? = some f → f.phase = .installing done pending →
    i = 0 ∧ f.fin ≤ s.durable ∧ f.writes = done ++ pending
  trees : s.trees = replay s.beforeLog (settled.flatMap Logged.writes ++ s.appliedRows)
  snapshot : ∀ k : TKey, lastWrite s.durableWrites k = none → s.snapshot[k]? = s.beforeLog[k]?
  known : ∀ (k : TKey) raw, s.trees[k]? = some raw → k.1 ∈ s.tables
  flights_known : ∀ f ∈ s.flights, ∀ w ∈ f.writes, w.1.1 ∈ s.tables
  ckpt : ∀ c, s.ckpt = some c → s.CkptOk c

variable {s s' : Engine} {settled : List Logged} {f : Flight} {i cut : Nat} {k : TKey}

theorem Inv.core (h : s.Inv settled) : s.Core settled where
  wal := h.wal
  settled_durable := h.settled_durable
  durable_le := h.durable_le
  chain := h.chain
  idle := h.idle
  waited := h.waited
  installing := h.installing
  trees := h.trees

/-! ## What survives a crash -/

theorem Core.surviving (h : s.Core settled) (hcut : s.durable ≤ cut) :
    s.surviving cut =
      settled ++ (s.flights.map Flight.logged).takeWhile fun e => e.fin ≤ cut := by
  rw [Engine.surviving, h.wal, List.takeWhile_append_of_pos]
  intro e he
  have := h.settled_durable e he
  simp only [decide_eq_true_eq]
  omega

theorem surviving_mono {cut' : Nat} (hle : cut ≤ cut') : s.surviving cut <+: s.surviving cut' := by
  unfold Engine.surviving
  induction s.wal with
  | nil => simp
  | cons e wal ih =>
    by_cases he : e.fin ≤ cut
    · have he' : e.fin ≤ cut' := he.trans hle
      simpa [List.takeWhile_cons, he, he'] using ih
    · simp [List.takeWhile_cons, he]

theorem lastWrite_eq_none_of_prefix {ws ws' : List Write} (h : ws <+: ws')
    (hk : lastWrite ws' k = none) : lastWrite ws k = none := by
  obtain ⟨rest, rfl⟩ := h
  rw [lastWrite_append, Option.or_eq_none_iff] at hk
  exact hk.2

/-- A key the log does not write by a later cut is not written by an earlier one. -/
theorem untouched_mono {cut' : Nat} (hle : cut ≤ cut')
    (hk : lastWrite ((s.surviving cut').flatMap Logged.writes) k = none) :
    lastWrite ((s.surviving cut).flatMap Logged.writes) k = none := by
  refine lastWrite_eq_none_of_prefix ?_ hk
  obtain ⟨rest, hrest⟩ := surviving_mono (s := s) hle
  rw [← hrest, List.flatMap_append]
  exact List.prefix_append _ _

/-- Whatever survives of the log, redo yields a prefix of the history with
every acknowledged commit. -/
theorem Inv.durable_state (h : s.Inv settled) : s.Durable := by
  intro cut hcut
  refine ⟨s.before.length + (s.surviving cut).length, fun txn htxn => ?_, ?_⟩
  · have hlt := h.acked txn htxn
    rw [h.core.surviving hcut, List.length_append]
    omega
  · have hprefix : s.surviving cut <+: s.wal := List.takeWhile_prefix _
    have htake : s.history.take (s.before.length + (s.surviving cut).length) =
        s.before ++ (s.surviving cut).map Logged.writes := by
      rw [history, List.take_length_add_append, ← List.map_take,
        ← List.prefix_iff_eq_take.mp hprefix]
    rw [htake, List.flatten_append, ← List.flatMap_def, replay_append, recover]
    refine replay_congr fun k hk => h.snapshot k (untouched_mono hcut hk)

/-- The rows in memory are those before the log where the durable log does not
write. -/
theorem Inv.trees_of_untouched (h : s.Inv settled) (hk : lastWrite s.durableWrites k = none) :
    s.trees[k]? = s.beforeLog[k]? := by
  rw [durableWrites, h.core.surviving le_rfl, List.flatMap_append, lastWrite_append,
    Option.or_eq_none_iff] at hk
  have happlied : lastWrite s.appliedRows k = none := by
    unfold appliedRows
    split
    · next f rest hfl =>
      unfold applied
      split
      · next done pending hph =>
        obtain ⟨-, hfin, hwrites⟩ := h.installing 0 f done pending (by rw [hfl]; rfl) hph
        have hmem := hk.1
        have hfin' : f.logged.fin ≤ s.durable := hfin
        rw [hfl, List.map_cons, List.takeWhile_cons, if_pos (decide_eq_true hfin'),
          List.flatMap_cons, lastWrite_append, Option.or_eq_none_iff] at hmem
        exact lastWrite_eq_none_of_prefix ⟨pending, hwrites.symm⟩ hmem.2
      · rfl
    · rfl
  rw [h.trees, getElem?_replay, lastWrite_append, happlied, hk.2]
  rfl

/-! ## Steps of the commits -/

variable {phase : FlightPhase} {trees : Trees} {stale : Bool}

theorem map_set_phase {β : Type} {g : Flight → β} (hf : s.flights[i]? = some f)
    (hg : g { f with phase := phase } = g f) :
    (s.setPhase i f phase).flights.map g = s.flights.map g := by
  rw [setPhase, List.map_set, hg, List.set_same]
  rw [List.getElem?_map, hf]
  rfl

/-- The log is extended by bytes that are not durable yet. -/
theorem surviving_append {e : Logged} (he : s.durable < e.fin) (hwal : s'.wal = s.wal ++ [e])
    (hdurable : s'.durable = s.durable) : s'.durableWrites = s.durableWrites := by
  unfold durableWrites Engine.surviving
  rw [hwal, hdurable, List.takeWhile_append]
  split
  · next hall =>
    rw [List.takeWhile_cons, if_neg (by simpa using he), List.append_nil,
      List.prefix_iff_eq_take.mp (List.takeWhile_prefix _), hall, List.take_length]
  · rfl

theorem Core.append {writes : List Write} {len : Nat} (h : s.Core settled)
    (hs : s.append writes len = some s') : s'.Core settled := by
  unfold Engine.append at hs
  split at hs
  · next hguard =>
    obtain ⟨hnone, hlen, -⟩ := hguard
    rw [Option.isNone_iff_eq_none] at hnone
    simp only [Option.some.injEq] at hs
    have happlied : s'.appliedRows = s.appliedRows := by
      subst hs
      unfold appliedRows
      cases hfl : s.flights <;> rfl
    subst hs
    exact
      { wal := by simp [h.wal, Flight.logged]
        settled_durable := h.settled_durable
        durable_le := h.durable_le.trans (Nat.le_add_right _ _)
        chain := by
          intro _
          show Chained _ (List.map span (s.flights ++ [_])) _
          rw [List.map_append]
          exact (h.chain (by simp [hnone])).append (Nat.lt_add_of_pos_right hlen)
        idle := by
          intro hck
          rw [show _ = none from hnone] at hck
          cases hck
        waited := by
          intro f hf hph
          rcases List.mem_append.mp hf with hf | hf
          · exact h.waited f hf hph
          · rw [List.mem_singleton.mp hf] at hph
            cases hph
        installing := by
          intro i f done pending hf hph
          rcases List.getElem?_concat_eq_some hf with hf | ⟨-, rfl⟩
          · exact h.installing i f done pending hf hph
          · cases hph
        trees := by
          rw [happlied]
          exact h.trees }
  · cases hs

theorem Inv.append {writes : List Write} {len : Nat} (h : s.Inv settled)
    (hs : s.append writes len = some s') : s'.Inv settled := by
  have hcore := h.core.append hs
  unfold Engine.append at hs
  split at hs
  · next hguard =>
    obtain ⟨hnone, hlen, hknown⟩ := hguard
    rw [Option.isNone_iff_eq_none] at hnone
    have hlast : s.history.length = s.before.length + settled.length + s.flights.length := by
      rw [history, h.wal]
      simp
      omega
    have hnew : s.durable < s.written + len := by
      have := h.durable_le
      omega
    simp only [Option.some.injEq] at hs
    have hdw : s'.durableWrites = s.durableWrites := by
      subst hs
      exact surviving_append (e := ⟨s.written + len, writes⟩) hnew rfl rfl
    subst hs
    exact
      { hcore with
        acked := h.acked
        txns := by
          intro i f hf
          rcases List.getElem?_concat_eq_some hf with hf | ⟨rfl, rfl⟩
          · exact h.txns i f hf
          · exact hlast
        snapshot := by
          rw [hdw]
          exact h.snapshot
        known := h.known
        flights_known := by
          intro f hf
          rcases List.mem_append.mp hf with hf | hf
          · exact h.flights_known f hf
          · rw [List.mem_singleton.mp hf]
            exact hknown
        ckpt := by
          intro c hc
          rw [show _ = none from hnone] at hc
          cases hc }
  · cases hs

/-- What was read stays right while the durable log grows and the rows behind
the scan stay. -/
theorem CkptOk.mono {c : Ckpt} (h : s.CkptOk c) (hc : s.ckpt = some c) (hc' : s'.ckpt = s.ckpt)
    (hsnapshot : s'.snapshot = s.snapshot) (hbefore : s'.beforeLog = s.beforeLog)
    (hredo : ∀ k, lastWrite s'.durableWrites k = none → lastWrite s.durableWrites k = none)
    (hfresh : s'.stale = false → s.stale = false ∧
      ∀ k : TKey, s.scanned k = true → s'.trees[k]? = s.trees[k]?) (hmoved : s'.moved = s.moved) :
    s'.CkptOk c := by
  have hscanned : ∀ k, s'.scanned k = s.scanned k := by
    intro k
    rw [scanned, hc', scanned]
  have hread : ∀ image k, s.scanned k = true → s.ReadOk image k → s'.ReadOk image k := by
    intro image k hk hr
    refine { redo := fun hlast => ?_, fresh := fun hstale => ?_ }
    · rw [hbefore]
      exact hr.redo (hredo k hlast)
    · obtain ⟨hold, hsame⟩ := hfresh hstale
      rw [hsame k hk]
      exact hr.fresh hold
  cases c with
  | scanning todo cursor image =>
    refine ⟨h.1, fun hstill k => ?_⟩
    have hk := h.2 (hmoved ▸ hstill) k
    rw [hscanned k]
    exact ⟨fun hin => hread image k hin (hk.1 hin), hk.2⟩
  | written image => exact fun hstill k => hread image k (by rw [scanned, hc]) (h (hmoved ▸ hstill) k)
  | renamed =>
    intro hstale k
    obtain ⟨hold, hsame⟩ := hfresh hstale
    rw [hsnapshot, hsame k (by rw [scanned, hc])]
    exact h hold k
  | truncated => trivial
  | rebased => trivial

theorem Core.sync {upTo : Nat} (h : s.Core settled) (hs : s.sync upTo = some s') :
    s'.Core settled := by
  unfold Engine.sync at hs
  split at hs
  · next hguard =>
    obtain ⟨hle, hwritten, -⟩ := hguard
    cases hs
    exact
      { wal := h.wal
        settled_durable := fun e he => (h.settled_durable e he).trans hle
        durable_le := hwritten
        chain := h.chain
        idle := h.idle
        waited := fun f hf hph => (h.waited f hf hph).trans hle
        installing := fun i f done pending hf hph =>
          have hold := h.installing i f done pending hf hph
          ⟨hold.1, hold.2.1.trans hle, hold.2.2⟩
        trees := h.trees }
  · cases hs

theorem Inv.sync {upTo : Nat} (h : s.Inv settled) (hs : s.sync upTo = some s') :
    s'.Inv settled := by
  have hcore := h.core.sync hs
  unfold Engine.sync at hs
  split at hs
  · next hguard =>
    obtain ⟨hle, -, -⟩ := hguard
    simp only [Option.some.injEq] at hs
    have hmono : ∀ k, lastWrite s'.durableWrites k = none → lastWrite s.durableWrites k = none := by
      intro k hk
      subst hs
      exact untouched_mono (s := s) hle hk
    subst hs
    exact
      { hcore with
        acked := h.acked
        txns := h.txns
        snapshot := fun k hk => h.snapshot k (hmono k hk)
        known := h.known
        flights_known := h.flights_known
        ckpt := fun c hc => (h.ckpt c hc).mono hc rfl rfl rfl hmono (fun hst => ⟨hst, fun _ _ => rfl⟩) rfl }
  · cases hs

/-- A flight behind a change of phase is one from before, or the changed one. -/
theorem flights_setPhase {j : Nat} {g : Flight} (hg : (s.setPhase i f phase).flights[j]? = some g) :
    s.flights[j]? = some g ∨ j = i ∧ g = { f with phase := phase } := by
  rw [Engine.setPhase, List.getElem?_set] at hg
  split at hg
  · next hij =>
    subst hij
    split at hg
    · exact Or.inr ⟨rfl, (Option.some.inj hg).symm⟩
    · cases hg
  · exact Or.inl hg

theorem mem_flights_setPhase {g : Flight} (hg : g ∈ (s.setPhase i f phase).flights) :
    g ∈ s.flights ∨ g = { f with phase := phase } := by
  obtain ⟨j, hj⟩ := List.mem_iff_getElem?.mp hg
  exact (flights_setPhase hj).imp List.mem_of_getElem? And.right

/-- A change of the phase of one commit, with what it does to the rows. -/
theorem Core.setPhase (h : s.Core settled) (hf : s.flights[i]? = some f)
    (hs : s' = { s.setPhase i f phase with trees := trees, stale := stale })
    (hwaited : phase = .durable → f.fin ≤ s.durable)
    (hinstalling : ∀ done pending, phase = .installing done pending → i = 0 ∧ f.fin ≤ s.durable ∧
      f.writes = done ++ pending)
    (htrees : s'.trees = replay s.beforeLog (settled.flatMap Logged.writes ++ s'.appliedRows)) :
    s'.Core settled := by
  have hmap : ∀ {β : Type} (g : Flight → β), g { f with phase := phase } = g f →
      s'.flights.map g = s.flights.map g := by
    intro β g hg
    rw [hs]
    exact map_set_phase (s := s) hf hg
  have hdurable : s'.durable = s.durable := by rw [hs]; rfl
  exact
    { wal := by
        rw [hmap Flight.logged rfl, ← h.wal, hs]
        rfl
      settled_durable := by
        rw [hs]
        exact h.settled_durable
      durable_le := by
        rw [hs]
        exact h.durable_le
      chain := by
        rw [hmap span rfl, hs]
        exact h.chain
      idle := by
        intro hck
        have hnil : s.flights = [] := h.idle (by rw [hs] at hck; exact hck)
        rw [hnil] at hf
        cases hf
      waited := by
        intro g hg hph
        rw [hdurable]
        rw [hs] at hg
        rcases mem_flights_setPhase hg with hg | rfl
        · exact h.waited g hg hph
        · exact hwaited hph
      installing := by
        intro j g done pending hg hph
        rw [hdurable]
        rw [hs] at hg
        rcases flights_setPhase hg with hg | ⟨rfl, rfl⟩
        · exact h.installing j g done pending hg hph
        · exact hinstalling done pending hph
      trees := by
        rw [htrees, hs]
        rfl }

/-- The same with the snapshots. -/
theorem Inv.setPhase (h : s.Inv settled) (hf : s.flights[i]? = some f)
    (hs : s' = { s.setPhase i f phase with trees := trees, stale := stale })
    (hcore : s'.Core settled) (hknown : ∀ (k : TKey) raw, s'.trees[k]? = some raw → k.1 ∈ s.tables)
    (hfresh : s'.stale = false → s.stale = false ∧ ∀ k : TKey, s.scanned k = true →
      s'.trees[k]? = s.trees[k]?) :
    s'.Inv settled := by
  have htables : s'.tables = s.tables := by rw [hs]; rfl
  exact
    { hcore with
      acked := by
        rw [hs]
        exact h.acked
      txns := by
        intro j g hg
        have hbefore : s'.before = s.before := by rw [hs]; rfl
        rw [hbefore]
        rw [hs] at hg
        rcases flights_setPhase hg with hg | ⟨rfl, rfl⟩
        · exact h.txns j g hg
        · exact h.txns j f hf
      snapshot := by
        rw [hs]
        exact h.snapshot
      known := by
        intro k raw hk
        rw [htables]
        exact hknown k raw hk
      flights_known := by
        intro g hg
        rw [htables]
        rw [hs] at hg
        rcases mem_flights_setPhase hg with hg | rfl
        · exact h.flights_known g hg
        · exact h.flights_known f (List.mem_of_getElem? hf)
      ckpt := by
        intro c hc
        have hsame : s'.ckpt = s.ckpt := by rw [hs]; rfl
        rw [hsame] at hc
        refine (h.ckpt c hc).mono hc hsame ?_ ?_ ?_ hfresh (by rw [hs]; rfl)
        · rw [hs]
          rfl
        · rw [hs]
          rfl
        · rw [hs]
          exact fun k hk => hk }

/-- The applied rows are those of the first commit in flight. -/
theorem appliedRows_setPhase (hf : s.flights[i]? = some f)
    (hsame : applied { f with phase := phase } = applied f) :
    appliedRows { s.setPhase i f phase with trees := trees, stale := stale } = s.appliedRows := by
  show (match s.flights.set i { f with phase := phase } with
    | g :: _ => applied g
    | [] => []) = s.appliedRows
  unfold appliedRows
  cases hfl : s.flights with
  | nil => rfl
  | cons g rest =>
    cases i with
    | zero =>
      rw [hfl] at hf
      obtain rfl : g = f := Option.some.inj hf
      exact hsame
    | succ i => rfl

theorem wait_spec (hs : s.wait i = some s') :
    ∃ f, s.flights[i]? = some f ∧ f.phase = .appended ∧ f.fin ≤ s.durable ∧
      s' = s.setPhase i f .durable := by
  unfold Engine.wait at hs
  split at hs
  · next f hf =>
    split at hs
    · next hph =>
      split at hs
      · next hfin => exact ⟨f, hf, hph, hfin, (Option.some.inj hs).symm⟩
      · cases hs
    · cases hs
  · cases hs

theorem enter_spec (hs : s.enter i = some s') :
    ∃ f, s.flights[i]? = some f ∧ f.phase = .durable ∧ s.frontier = f.start ∧
      s' = s.setPhase i f (.installing [] f.writes) := by
  unfold Engine.enter at hs
  split at hs
  · next f hf =>
    split at hs
    · next hph =>
      split at hs
      · next hguard => exact ⟨f, hf, hph, hguard.1, (Option.some.inj hs).symm⟩
      · cases hs
    · cases hs
  · cases hs

/-- A change of phase that applies nothing. -/
theorem Core.setPhase_still (h : s.Core settled) (hf : s.flights[i]? = some f)
    (hsame : applied { f with phase := phase } = applied f)
    (hwaited : phase = .durable → f.fin ≤ s.durable)
    (hinstalling : ∀ done pending, phase = .installing done pending → i = 0 ∧ f.fin ≤ s.durable ∧
      f.writes = done ++ pending) :
    (s.setPhase i f phase).Core settled := by
  have heq : s.setPhase i f phase =
      { s.setPhase i f phase with trees := s.trees, stale := s.stale } := rfl
  refine h.setPhase hf heq hwaited hinstalling ?_
  have hrows : (s.setPhase i f phase).appliedRows = s.appliedRows := by
    rw [heq]
    exact appliedRows_setPhase hf hsame
  rw [hrows]
  exact h.trees

theorem Core.wait (h : s.Core settled) (hs : s.wait i = some s') : s'.Core settled := by
  obtain ⟨f, hf, hph, hfin, rfl⟩ := wait_spec hs
  refine h.setPhase_still hf (by rw [applied, applied, hph]) (fun _ => hfin) ?_
  intro done pending hinst
  cases hinst

theorem Core.enter (h : s.Core settled) (hs : s.enter i = some s') : s'.Core settled := by
  obtain ⟨f, hf, hph, hstart, rfl⟩ := enter_spec hs
  -- Only the first commit of the chain starts at the frontier.
  have hfirst : i = 0 := by
    by_cases hck : s.ckpt = some .truncated
    · rw [h.idle hck] at hf
      cases hf
    · refine (h.chain hck).eq_head (p := span f) ?_ hstart.symm
      rw [List.getElem?_map, hf]
      rfl
  refine h.setPhase_still hf (by rw [applied, applied, hph]) (fun hw => by cases hw) ?_
  intro done pending hinst
  cases hinst
  exact ⟨hfirst, h.waited f (List.mem_of_getElem? hf) hph, rfl⟩

theorem Inv.wait (h : s.Inv settled) (hs : s.wait i = some s') : s'.Inv settled := by
  have hcore := h.core.wait hs
  obtain ⟨f, hf, -, -, rfl⟩ := wait_spec hs
  exact h.setPhase hf rfl hcore h.known fun hst => ⟨hst, fun _ _ => rfl⟩

theorem Inv.enter (h : s.Inv settled) (hs : s.enter i = some s') : s'.Inv settled := by
  have hcore := h.core.enter hs
  obtain ⟨f, hf, -, -, rfl⟩ := enter_spec hs
  exact h.setPhase hf rfl hcore h.known fun hst => ⟨hst, fun _ _ => rfl⟩

theorem flights_of_installing {done pending : List Write} (hf : s.flights[0]? = some f)
    (hph : f.phase = .installing done pending) :
    ∃ rest, s.flights = f :: rest ∧ s.appliedRows = done := by
  cases hfl : s.flights with
  | nil => simp [hfl] at hf
  | cons g rest =>
    rw [hfl] at hf
    obtain rfl : g = f := Option.some.inj hf
    refine ⟨rest, rfl, ?_⟩
    simp only [appliedRows, hfl, applied, hph]

theorem apply_spec (hs : s.apply i = some s') :
    ∃ f done w pending, s.flights[i]? = some f ∧ f.phase = .installing done (w :: pending) ∧
      s' = { s.setPhase i f (.installing (done ++ [w]) pending) with
        trees := applyWrite s.trees w
        stale := s.stale || (s.scanned w.1 && s.trees[w.1]? ≠ w.2) } := by
  unfold Engine.apply at hs
  split at hs
  · next f hf =>
    split at hs
    · next done w pending hph => exact ⟨f, done, w, pending, hf, hph, (Option.some.inj hs).symm⟩
    · cases hs
  · cases hs

theorem finish_spec (hs : s.finish i = some s') :
    ∃ f done, s.flights[i]? = some f ∧ f.phase = .installing done [] ∧
      s' = { s with
        frontier := f.fin
        flights := s.flights.eraseIdx i
        acked := f.txn :: s.acked } := by
  unfold Engine.finish at hs
  split at hs
  · next f hf =>
    split at hs
    · next done hph => exact ⟨f, done, hf, hph, (Option.some.inj hs).symm⟩
    · cases hs
  · cases hs

theorem Core.apply (h : s.Core settled) (hs : s.apply i = some s') : s'.Core settled := by
  obtain ⟨f, done, w, pending, hf, hph, heq⟩ := apply_spec hs
  obtain ⟨rfl, hfin, hwrites⟩ := h.installing i f done (w :: pending) hf hph
  obtain ⟨rest, hfl, hrows⟩ := flights_of_installing hf hph
  have hrows' : s'.appliedRows = done ++ [w] := by
    rw [heq, appliedRows]
    show (match s.flights.set 0 _ with
      | g :: _ => applied g
      | [] => []) = _
    rw [hfl]
    rfl
  have htrees : s'.trees = applyWrite s.trees w := by rw [heq]
  refine h.setPhase hf heq (fun hw => by cases hw) ?_ ?_
  · intro done' pending' hinst
    cases hinst
    exact ⟨rfl, hfin, by simpa using hwrites⟩
  · rw [htrees, hrows', h.trees, hrows, ← List.append_assoc]
    exact (replay_append : replay _ (_ ++ [w]) = replay (replay _ _) [w]).symm

theorem Inv.apply (h : s.Inv settled) (hs : s.apply i = some s') : s'.Inv settled := by
  have hcore := h.core.apply hs
  obtain ⟨f, done, w, pending, hf, hph, heq⟩ := apply_spec hs
  obtain ⟨rfl, -, hwrites⟩ := h.installing i f done (w :: pending) hf hph
  have htrees : s'.trees = applyWrite s.trees w := by rw [heq]
  refine h.setPhase hf heq hcore ?_ ?_
  · intro k raw hk
    rw [htrees, getElem?_applyWrite] at hk
    split at hk
    · next hwk =>
      rw [← hwk]
      refine h.flights_known f (List.mem_of_getElem? hf) w ?_
      rw [hwrites]
      simp
    · exact h.known k raw hk
  · intro hst
    have hst' : (s.stale || (s.scanned w.1 && s.trees[w.1]? ≠ w.2)) = false := by
      rw [heq] at hst
      exact hst
    rw [Bool.or_eq_false_iff] at hst'
    refine ⟨hst'.1, fun k hk => ?_⟩
    rw [htrees, getElem?_applyWrite]
    split
    · next hwk =>
      subst hwk
      have hsame := hst'.2
      rw [hk, Bool.true_and, decide_eq_false_iff_not, not_not] at hsame
      exact hsame.symm
    · rfl

/-- The commit that returns was the first in flight, and is settled now. -/
theorem Core.finish (h : s.Core settled) (hs : s.finish i = some s') :
    ∃ f rest, s.flights = f :: rest ∧ s'.Core (settled ++ [f.logged]) ∧
      s' = { s with frontier := f.fin, flights := rest, acked := f.txn :: s.acked } := by
  obtain ⟨f, done, hf, hph, heq⟩ := finish_spec hs
  obtain ⟨rfl, hfin, hwrites⟩ := h.installing i f done [] hf hph
  obtain ⟨rest, hfl, hrows⟩ := flights_of_installing hf hph
  rw [List.append_nil] at hwrites
  rw [← hwrites] at hrows
  have hck : s.ckpt ≠ some .truncated := by
    intro hck
    rw [h.idle hck] at hfl
    cases hfl
  have hchain := h.chain hck
  rw [hfl, List.map_cons] at hchain
  obtain ⟨hstart, hlt, hchain⟩ := hchain
  -- The other commits have not begun to install.
  have hnone : ∀ (j : Nat) (g : Flight) done pending, rest[j]? = some g →
      g.phase ≠ .installing done pending := by
    intro j g done pending hj hph
    have := (h.installing (j + 1) g done pending (by rw [hfl]; exact hj) hph).1
    omega
  have hrows' : appliedRows { s with
      frontier := f.fin
      flights := rest
      acked := f.txn :: s.acked } = [] := by
    unfold appliedRows applied
    cases hrest : rest with
    | nil => rfl
    | cons g tail =>
      dsimp only
      split
      · next done pending hph' =>
        exact absurd hph' (hnone 0 g done pending (by rw [hrest]; rfl))
      · rfl
  have herase : s.flights.eraseIdx 0 = rest := by rw [hfl]; rfl
  rw [herase] at heq
  subst heq
  refine ⟨f, rest, hfl, ?_, rfl⟩
  exact
    { wal := by
        rw [List.append_assoc]
        show s.wal = _
        rw [h.wal, hfl]
        rfl
      settled_durable := by
        intro e he
        rcases List.mem_append.mp he with he | he
        · exact h.settled_durable e he
        · rw [List.mem_singleton.mp he]
          exact hfin
      durable_le := h.durable_le
      chain := fun _ => hchain
      idle := fun hck' => absurd hck' hck
      waited := fun g hg => h.waited g (by rw [hfl]; exact List.mem_cons_of_mem _ hg)
      installing := fun j g done pending hj hph => absurd hph (hnone j g done pending hj)
      trees := by
        rw [hrows', List.append_nil, List.flatMap_append]
        show s.trees = replay s.beforeLog _
        rw [h.trees, hrows]
        simp [Flight.logged] }

theorem Inv.finish (h : s.Inv settled) (hs : s.finish i = some s') :
    ∃ settled', s'.Inv settled' := by
  obtain ⟨f, rest, hfl, hcore, rfl⟩ := h.core.finish hs
  have hfirst : s.flights[0]? = some f := by rw [hfl]; rfl
  refine ⟨settled ++ [f.logged], ?_⟩
  exact
    { hcore with
      acked := by
        intro txn htxn
        rw [List.length_append]
        rcases List.mem_cons.mp htxn with rfl | htxn
        · have := h.txns 0 f hfirst
          show f.txn < s.before.length + _
          simp only [List.length_singleton]
          omega
        · have := h.acked txn htxn
          show txn < s.before.length + _
          omega
      txns := by
        intro j g hg
        have := h.txns (j + 1) g (by rw [hfl]; exact hg)
        rw [this, List.length_append]
        show _ = s.before.length + _ + j
        simp only [List.length_singleton]
        omega
      snapshot := h.snapshot
      known := h.known
      flights_known := fun g hg => h.flights_known g (by
        rw [hfl]
        exact List.mem_cons_of_mem _ hg)
      ckpt := fun c hc => (h.ckpt c hc).mono hc rfl rfl rfl (fun _ hk => hk)
        (fun hst => ⟨hst, fun _ _ => rfl⟩) rfl }

end Engine

end HenchDB.Commit
