import HenchDB.Commit.Checkpoint

/-!
# Served snapshots

`dump_live` copies the rows under the commit lock and the install lock and
returns the durable offset; `send_snapshot` reads the generation of the log
when the locks are free again, and sends the three together.  `Wal::reset`
raises the generation before it truncates the log.

A served snapshot is labelled rightly when its rows are those of exactly the
transactions that end by its offset in the log of its generation.  The label
is right in every run in which no durable commit waits for its installation
when the rows are copied, the log is not truncated between the copy and the
read of the generation, and no commit is in flight when it is truncated
(`honest_labels_exact`).

Generations are counted from the open.
-/

namespace HenchDB.Commit

/-- What goes to a replica. -/
structure Served where
  image : Trees
  endOffset : Nat
  generation : Nat

/-- Where a call of `send_snapshot` stands. -/
inductive Sending where
  | idle
  /-- `dump_live` has returned; `truncations` is a ghost, the number of
  truncations so far. -/
  | dumped (image : Trees) (endOffset truncations : Nat)

/-- The engine and the calls of `send_snapshot`. -/
structure Server where
  engine : Engine
  /-- Ghost: for every earlier generation the rows before its log, and the
  log. -/
  past : List (Trees × List Logged)
  /-- `Wal::reset` has raised the generation and not yet truncated. -/
  bumped : Bool
  /-- Ghost: how often the log was truncated. -/
  truncations : Nat
  sendings : Nat → Sending
  sent : List Served

def rowsAt (before : Trees) (log : List Logged) (offset : Nat) : Trees :=
  replay before ((log.filter fun e => e.fin ≤ offset).flatMap Logged.writes)

namespace Server

/-- A server over a database that was opened. -/
def start (tables : List String) (snapshot : Trees) (wal : List Logged) (len : Nat) : Server where
  engine := Engine.start tables snapshot wal len
  past := []
  bumped := false
  truncations := 0
  sendings := fun _ => .idle
  sent := []

/-- `wal_generation`. -/
def generation (s : Server) : Nat := s.past.length

/-- The rows of a position: a generation of the log and an offset in it. -/
def stateAt (s : Server) (generation offset : Nat) : Option Trees :=
  if generation = s.generation then some (rowsAt s.engine.beforeLog s.engine.wal offset)
  else s.past[generation]?.map fun p => rowsAt p.1 p.2 offset

/-- Every snapshot that was sent has the rows of its position. -/
def LabelsExact (s : Server) : Prop :=
  ∀ x ∈ s.sent, s.stateAt x.generation x.endOffset = some x.image

/-! ## Steps -/

/-- `Wal::reset` raises the generation. -/
def bump (s : Server) : Option Server :=
  match s.engine.ckpt, s.bumped with
  | some .renamed, false =>
    some { s with past := s.past ++ [(s.engine.beforeLog, s.engine.wal)], bumped := true }
  | _, _ => none

/-- `dump_live`, under the commit lock and the install lock. -/
def dump (s : Server) (i : Nat) : Option Server :=
  match s.sendings i with
  | .idle =>
    if s.engine.ckpt.isNone ∧ s.engine.installHeld = false then
      let dumped := .dumped s.engine.trees s.engine.durable s.truncations
      some { s with sendings := Function.update s.sendings i dumped }
    else none
  | _ => none

/-- `send_snapshot` reads the generation and sends. -/
def send (s : Server) (i : Nat) : Option Server :=
  match s.sendings i with
  | .dumped image endOffset _ =>
    some { s with
      sendings := Function.update s.sendings i .idle
      sent := { image := image, endOffset := endOffset, generation := s.generation } :: s.sent }
  | _ => none

/-- A step of the engine; the truncation comes after the bump. -/
def engineStep (s : Server) (a : Action) : Option Server :=
  match a with
  | .reset =>
    if s.bumped then
      s.engine.reset.map fun e =>
        { s with engine := e, bumped := false, truncations := s.truncations + 1 }
    else none
  | .abortCheckpoint => s.engine.abortCheckpoint.map fun e => { s with engine := e, bumped := false }
  | a => (s.engine.step a).map fun e => { s with engine := e }

end Server

/-- The steps of the engine and of `send_snapshot`. -/
inductive ServerAction where
  | engine (a : Action)
  | bump
  | dump (i : Nat)
  | send (i : Nat)

namespace Server

def step (s : Server) : ServerAction → Option Server
  | .engine a => s.engineStep a
  | .bump => s.bump
  | .dump i => s.dump i
  | .send i => s.send i

def Steps (s s' : Server) : Prop := ∃ a, s.step a = some s'

/-- No commit is durable and not yet installed. -/
def caughtUp (s : Server) : Bool := s.engine.flights.all fun f => s.engine.durable < f.fin

/-- The log is the one that was dumped, and stays. -/
def steady (s : Server) (i : Nat) : Bool :=
  match s.sendings i with
  | .dumped _ _ truncations => truncations = s.truncations && !s.bumped
  | .idle => true

/-- A step that dumps when the installs have caught up, labels with the
generation of the dump, and truncates without commits in flight. -/
def HonestStep (s s' : Server) : Prop :=
  ∃ a, s.step a = some s' ∧ (∀ i, a = .dump i → s.caughtUp = true) ∧
    (∀ i, a = .send i → s.steady i = true) ∧ (a = .engine .reset → s.engine.flights = [])

end Server

/-! ## What the steps of the engine do to the log -/

namespace Engine

variable {e e' : Engine} {settled : List Logged} {a : Action} {image : Trees} {offset : Nat}

/-- The rows of an offset that the log has reached. -/
def Labels (e : Engine) (image : Trees) (offset : Nat) : Prop :=
  offset ≤ e.written ∧ rowsAt e.beforeLog e.wal offset = image

/-- The log only grows, behind its end. -/
def Grows (e e' : Engine) : Prop :=
  e'.beforeLog = e.beforeLog ∧ e.written ≤ e'.written ∧
    (e'.wal = e.wal ∨ ∃ x, e'.wal = e.wal ++ [x] ∧ e.written < x.fin)

theorem Labels.grows (h : e.Labels image offset) (hgrows : e.Grows e') : e'.Labels image offset := by
  obtain ⟨hbefore, hwritten, hwal⟩ := hgrows
  refine ⟨h.1.trans hwritten, ?_⟩
  rw [hbefore, ← h.2]
  rcases hwal with hwal | ⟨x, hwal, hx⟩
  · rw [hwal]
  · have hlt : ¬ x.fin ≤ offset := by
      have := h.1
      omega
    rw [rowsAt, hwal, List.filter_append, List.filter_cons_of_neg (by simpa using hlt),
      List.filter_nil, List.append_nil]
    rfl

theorem Beside.grows (h : e.Beside e') : e.Grows e' := by
  obtain ⟨ckpt, stale, moved, snapshot, rfl, -, -⟩ := h
  exact ⟨rfl, le_rfl, .inl rfl⟩

theorem Beside.core (h : e.Beside e') (hcore : e.Core settled) : e'.Core settled := by
  obtain ⟨ckpt, stale, moved, snapshot, heq, hold, hnew⟩ := h
  exact hcore.setCkpt heq hold hnew

/-- Every step but the truncation lets the log grow. -/
theorem step_grows (hs : e.step a = some e') (ha : a ≠ .reset) : e.Grows e' := by
  cases a with
  | append writes len =>
    simp only [Engine.step, Engine.append] at hs
    split at hs
    · next hguard =>
      cases hs
      exact ⟨rfl, Nat.le_add_right _ _, .inr ⟨_, rfl, Nat.lt_add_of_pos_right hguard.2.1⟩⟩
    · cases hs
  | sync upTo =>
    simp only [Engine.step, Engine.sync] at hs
    split at hs
    · cases hs
      exact ⟨rfl, le_rfl, .inl rfl⟩
    · cases hs
  | wait i =>
    obtain ⟨f, -, -, -, rfl⟩ := wait_spec hs
    exact ⟨rfl, le_rfl, .inl rfl⟩
  | enter i =>
    obtain ⟨f, -, -, -, rfl⟩ := enter_spec hs
    exact ⟨rfl, le_rfl, .inl rfl⟩
  | apply i =>
    obtain ⟨f, done, w, pending, -, -, rfl⟩ := apply_spec hs
    exact ⟨rfl, le_rfl, .inl rfl⟩
  | finish i =>
    obtain ⟨f, done, -, -, rfl⟩ := finish_spec hs
    exact ⟨rfl, le_rfl, .inl rfl⟩
  | beginCheckpoint todo => exact (beginCheckpoint_beside hs).grows
  | scanLeaf upTo missed => exact (scanLeaf_beside hs).grows
  | writeSnapshot => exact (writeSnapshot_beside hs).grows
  | rename => exact (rename_beside hs).grows
  | reset => exact absurd rfl ha
  | rebase =>
    obtain ⟨-, rfl⟩ := rebase_spec hs
    exact ⟨rfl, le_rfl, .inl rfl⟩
  | abortCheckpoint => exact (abortCheckpoint_beside hs).grows
  | endCheckpoint => exact (endCheckpoint_beside hs).grows

/-- Every step keeps the rows and the log together, a truncation if no commit
is in flight. -/
theorem Core.step (h : e.Core settled) (hs : e.step a = some e')
    (ha : a = .reset → e.flights = []) : ∃ settled', e'.Core settled' := by
  cases a with
  | append writes len => exact ⟨_, h.append hs⟩
  | sync upTo => exact ⟨_, h.sync hs⟩
  | wait i => exact ⟨_, h.wait hs⟩
  | enter i => exact ⟨_, h.enter hs⟩
  | apply i => exact ⟨_, h.apply hs⟩
  | finish i =>
    obtain ⟨f, rest, -, hcore, -⟩ := h.finish hs
    exact ⟨_, hcore⟩
  | beginCheckpoint todo => exact ⟨_, (beginCheckpoint_beside hs).core h⟩
  | scanLeaf upTo missed => exact ⟨_, (scanLeaf_beside hs).core h⟩
  | writeSnapshot => exact ⟨_, (writeSnapshot_beside hs).core h⟩
  | rename => exact ⟨_, (rename_beside hs).core h⟩
  | reset => exact ⟨_, h.reset hs (ha rfl)⟩
  | rebase => exact ⟨_, h.rebase hs⟩
  | abortCheckpoint => exact ⟨_, (abortCheckpoint_beside hs).core h⟩
  | endCheckpoint => exact ⟨_, (endCheckpoint_beside hs).core h⟩

/-- A checkpoint that has renamed its snapshot can only truncate or fail. -/
theorem ckpt_of_renamed (hck : e.ckpt = some .renamed) (hs : e.step a = some e')
    (hreset : a ≠ .reset) (habort : a ≠ .abortCheckpoint) : e'.ckpt = some .renamed := by
  cases a with
  | append writes len => simp [Engine.step, Engine.append, hck] at hs
  | sync upTo =>
    simp only [Engine.step, Engine.sync] at hs
    split at hs
    · cases hs
      exact hck
    · cases hs
  | wait i =>
    obtain ⟨f, -, -, -, rfl⟩ := wait_spec hs
    exact hck
  | enter i =>
    obtain ⟨f, -, -, -, rfl⟩ := enter_spec hs
    exact hck
  | apply i =>
    obtain ⟨f, done, w, pending, -, -, rfl⟩ := apply_spec hs
    exact hck
  | finish i =>
    obtain ⟨f, done, -, -, rfl⟩ := finish_spec hs
    exact hck
  | beginCheckpoint todo => simp [Engine.step, Engine.beginCheckpoint, hck] at hs
  | scanLeaf upTo missed => simp [Engine.step, Engine.scanLeaf, hck] at hs
  | writeSnapshot => simp [Engine.step, Engine.writeSnapshot, hck] at hs
  | rename => simp [Engine.step, Engine.rename, hck] at hs
  | reset => exact absurd rfl hreset
  | rebase => simp [Engine.step, Engine.rebase, hck] at hs
  | abortCheckpoint => exact absurd rfl habort
  | endCheckpoint => simp [Engine.step, Engine.endCheckpoint, hck] at hs

/-- When the installs have caught up with the durable log, the rows are those
of its durable part. -/
theorem Core.labels (h : e.Core settled) (hheld : e.installHeld = false)
    (hcaught : ∀ f ∈ e.flights, e.durable < f.fin) : e.Labels e.trees e.durable := by
  refine ⟨h.durable_le, ?_⟩
  have hrows : e.appliedRows = [] := by
    unfold appliedRows
    split
    · next f rest hfl =>
      rw [installHeld, List.any_eq_false] at hheld
      have hf := hheld f (by rw [hfl]; simp)
      unfold applied
      split
      · next hph => simp [hph] at hf
      · rfl
    · rfl
  have hsettled : settled.filter (fun x => x.fin ≤ e.durable) = settled :=
    List.filter_eq_self.mpr fun x hx => by simpa using h.settled_durable x hx
  have hflights : (e.flights.map Flight.logged).filter (fun x => x.fin ≤ e.durable) = [] := by
    rw [List.filter_eq_nil_iff]
    intro x hx
    obtain ⟨f, hf, rfl⟩ := List.mem_map.mp hx
    rw [decide_eq_true_eq, not_le]
    exact hcaught f hf
  rw [rowsAt, h.wal, List.filter_append, hsettled, hflights, List.append_nil, h.trees, hrows,
    List.append_nil]

end Engine

/-! ## What an honest run keeps -/

namespace Server

variable {s s' : Server} {i : Nat} {a : Action}

/-- The invariant.  What was dumped from the log as it is, and what was sent
with the current generation, stays right while the log grows. -/
structure Inv (s : Server) : Prop where
  core : ∃ settled, s.engine.Core settled
  bumped : s.bumped = true → s.engine.ckpt = some .renamed
  dumped : ∀ i image offset truncations, s.sendings i = .dumped image offset truncations →
    truncations ≤ s.truncations ∧
      (truncations = s.truncations → s.engine.Labels image offset)
  sent : ∀ x ∈ s.sent, x.generation ≤ s.generation
  current : ∀ x ∈ s.sent, x.generation = s.generation →
    s.bumped = false ∧ s.engine.Labels x.image x.endOffset
  earlier : ∀ x ∈ s.sent, x.generation < s.generation →
    ∃ p, s.past[x.generation]? = some p ∧ rowsAt p.1 p.2 x.endOffset = x.image

theorem Inv.labelsExact (h : s.Inv) : s.LabelsExact := by
  intro x hx
  rw [stateAt]
  split
  · next heq => rw [(h.current x hx heq).2.2]
  · next hne =>
    obtain ⟨p, hp, hrows⟩ := h.earlier x hx (lt_of_le_of_ne (h.sent x hx) hne)
    rw [hp, Option.map_some, hrows]

theorem Inv.grow {e : Engine} {bumped : Bool} (h : s.Inv) (hcore : ∃ settled, e.Core settled)
    (hgrows : s.engine.Grows e) (hbumped : bumped = true → s.bumped = true ∧ e.ckpt = some .renamed) :
    Inv { s with engine := e, bumped := bumped } where
  core := hcore
  bumped := fun hb => (hbumped hb).2
  dumped := fun i image offset truncations hi =>
    have hold := h.dumped i image offset truncations hi
    ⟨hold.1, fun heq => (hold.2 heq).grows hgrows⟩
  sent := h.sent
  current := by
    intro x hx heq
    obtain ⟨hnot, hlabels⟩ := h.current x hx heq
    refine ⟨?_, hlabels.grows hgrows⟩
    cases bumped with
    | false => rfl
    | true =>
      rw [(hbumped rfl).1] at hnot
      cases hnot
  earlier := h.earlier

/-- The truncation: what is labelled with the new generation is labelled
later. -/
theorem Inv.reset (h : s.Inv) (hs : s.engineStep .reset = some s') (hidle : s.engine.flights = []) :
    s'.Inv := by
  simp only [engineStep] at hs
  split at hs
  · next hbumped =>
    obtain ⟨e, he, rfl⟩ := Option.map_eq_some_iff.mp hs
    obtain ⟨settled, hcore⟩ := h.core
    exact
      { core := ⟨_, hcore.reset he hidle⟩
        bumped := fun hb => by cases hb
        dumped := by
          intro i image offset truncations hi
          obtain ⟨hle, -⟩ := h.dumped i image offset truncations hi
          refine ⟨hle.trans (Nat.le_succ _), fun heq => ?_⟩
          have heq : truncations = s.truncations + 1 := heq
          omega
        sent := h.sent
        current := by
          intro x hx heq
          obtain ⟨hnot, -⟩ := h.current x hx heq
          rw [hbumped] at hnot
          cases hnot
        earlier := h.earlier }
  · cases hs

theorem Inv.engineStep (h : s.Inv) (hs : s.engineStep a = some s')
    (hidle : a = .reset → s.engine.flights = []) : s'.Inv := by
  obtain ⟨settled, hcore⟩ := h.core
  rcases eq_or_ne a .reset with rfl | hne
  · exact h.reset hs (hidle rfl)
  rcases eq_or_ne a .abortCheckpoint with rfl | habort
  · obtain ⟨e, he, rfl⟩ := Option.map_eq_some_iff.mp hs
    have hbeside := Engine.abortCheckpoint_beside he
    exact h.grow ⟨_, hbeside.core hcore⟩ hbeside.grows fun hb => by cases hb
  have hstep : s.engineStep a = (s.engine.step a).map fun e => { s with engine := e } := by
    unfold Server.engineStep
    split
    · contradiction
    · contradiction
    · rfl
  rw [hstep] at hs
  obtain ⟨e, he, rfl⟩ := Option.map_eq_some_iff.mp hs
  refine h.grow (hcore.step he hidle) (Engine.step_grows he hne) fun hb => ⟨hb, ?_⟩
  -- between the bump and the truncation the checkpoint does nothing else
  exact Engine.ckpt_of_renamed (h.bumped hb) he hne habort

theorem Inv.bump (h : s.Inv) (hs : s.bump = some s') : s'.Inv := by
  unfold Server.bump at hs
  split at hs
  · next hck hnot =>
    cases hs
    have hgen : ∀ x ∈ s.sent, x.generation < s.generation + 1 :=
      fun x hx => Nat.lt_succ_of_le (h.sent x hx)
    have hgeneration : generation { s with
        past := s.past ++ [(s.engine.beforeLog, s.engine.wal)], bumped := true } =
          s.generation + 1 := List.length_append
    exact
      { core := h.core
        bumped := fun _ => hck
        dumped := h.dumped
        sent := by
          intro x hx
          rw [hgeneration]
          exact (hgen x hx).le
        current := by
          intro x hx heq
          rw [hgeneration] at heq
          have := hgen x hx
          omega
        earlier := by
          intro x hx _
          rcases Nat.lt_or_eq_of_le (h.sent x hx) with hlt | heq
          · obtain ⟨p, hp, hrows⟩ := h.earlier x hx hlt
            exact ⟨p, by rw [List.getElem?_append_left hlt]; exact hp, hrows⟩
          · obtain ⟨-, -, hrows⟩ := h.current x hx heq
            refine ⟨(s.engine.beforeLog, s.engine.wal), ?_, hrows⟩
            rw [heq]
            exact List.getElem?_concat_length }
  · cases hs

theorem Inv.dump (h : s.Inv) (hs : s.dump i = some s') (hcaught : s.caughtUp = true) : s'.Inv := by
  unfold Server.dump at hs
  split at hs
  · split at hs
    · next hguard =>
      cases hs
      obtain ⟨settled, hcore⟩ := h.core
      rw [caughtUp, List.all_eq_true] at hcaught
      refine { h with dumped := ?_ }
      intro j image offset truncations hj
      have hj : Function.update s.sendings i _ j = _ := hj
      rw [Function.update_apply] at hj
      split at hj
      · cases hj
        exact ⟨le_rfl, fun _ => hcore.labels hguard.2 fun f hf => by simpa using hcaught f hf⟩
      · exact h.dumped j image offset truncations hj
    · cases hs
  · cases hs

theorem Inv.send (h : s.Inv) (hs : s.send i = some s') (hsteady : s.steady i = true) : s'.Inv := by
  unfold Server.send at hs
  split at hs
  · next image offset truncations hi =>
    cases hs
    simp only [steady, hi, Bool.and_eq_true, decide_eq_true_eq, Bool.not_eq_true'] at hsteady
    have hlabels := (h.dumped i image offset truncations hi).2 hsteady.1
    exact
      { core := h.core
        bumped := h.bumped
        dumped := by
          intro j image offset truncations hj
          have hj : Function.update s.sendings i _ j = _ := hj
          rw [Function.update_apply] at hj
          split at hj
          · cases hj
          · exact h.dumped j image offset truncations hj
        sent := by
          intro x hx
          rcases List.mem_cons.mp hx with rfl | hx
          · exact le_rfl
          · exact h.sent x hx
        current := by
          intro x hx heq
          rcases List.mem_cons.mp hx with rfl | hx
          · exact ⟨hsteady.2, hlabels⟩
          · exact h.current x hx heq
        earlier := by
          intro x hx hlt
          rcases List.mem_cons.mp hx with rfl | hx
          · exact absurd hlt (lt_irrefl _)
          · exact h.earlier x hx hlt }
  · cases hs

theorem Inv.honestStep (h : s.Inv) (hs : s.HonestStep s') : s'.Inv := by
  obtain ⟨a, ha, hdump, hsend, hreset⟩ := hs
  cases a with
  | engine a => exact h.engineStep ha fun heq => hreset (by rw [heq])
  | bump => exact h.bump ha
  | dump i => exact h.dump ha (hdump i rfl)
  | send i => exact h.send ha (hsend i rfl)

theorem inv_start {tables : List String} {snapshot : Trees} {wal : List Logged} {len : Nat}
    (h : Engine.Opened tables snapshot wal len) : (start tables snapshot wal len).Inv where
  core := ⟨wal, (Engine.inv_start h).core⟩
  bumped := fun hb => by cases hb
  dumped := fun i image offset truncations hi => by cases hi
  sent := fun x hx => by cases hx
  current := fun x hx => by cases hx
  earlier := fun x hx => by cases hx

/-- In every honest run the served snapshots are labelled with their true
position. -/
theorem honest_labels_exact {tables : List String} {snapshot : Trees} {wal : List Logged}
    {len : Nat} (hopen : Engine.Opened tables snapshot wal len)
    (hrun : Relation.ReflTransGen HonestStep (start tables snapshot wal len) s) :
    s.LabelsExact := by
  have hinv : s.Inv :=
    Transition.invariant (inv_start hopen) (fun _ _ h hs => h.honestStep hs) hrun
  exact hinv.labelsExact

/-! ## Two runs -/

/-- The condition of an honest step, as a check. -/
def honest (s : Server) : ServerAction → Bool
  | .dump _ => s.caughtUp
  | .send i => s.steady i
  | .engine .reset => s.engine.flights.isEmpty
  | _ => true

theorem honestStep_spec {a : ServerAction} (hs : (if s.honest a then s.step a else none) = some s') :
    s.HonestStep s' := by
  split at hs
  case isFalse => cases hs
  case isTrue hhonest =>
    refine ⟨a, hs, ?_, ?_, ?_⟩
    · rintro i rfl
      exact hhonest
    · rintro i rfl
      exact hhonest
    · rintro rfl
      exact List.isEmpty_iff.mp hhonest

/-- The first commit in flight is made durable and installed. -/
def installUpTo (fin : Nat) : List ServerAction :=
  [.engine (.sync fin), .engine (.wait 0), .engine (.enter 0), .engine (.apply 0), .engine (.finish 0)]

/-- A snapshot beside a commit that is not durable, and one behind a
checkpoint. -/
def twoSnapshots : List ServerAction :=
  .engine (.append [(("t", [1]), some [7])] 10) :: installUpTo 18 ++
  [.engine (.append [(("t", [2]), some [8])] 10), .dump 0, .send 0] ++
  installUpTo 28 ++
  [.engine (.beginCheckpoint ["t"]), .engine (.scanLeaf none []), .engine .writeSnapshot,
    .engine .rename, .bump, .engine .reset, .engine .rebase, .engine .endCheckpoint, .dump 0, .send 0]

theorem twoSnapshots_runs :
    (Transition.exec (fun a s => if s.honest a then s.step a else none) (fun _ => true) twoSnapshots
      (start ["t"] ∅ [] headerLen)).map
        (fun s => s.sent.map fun x => (x.image.size, x.endOffset, x.generation)) =
      some [(2, 8, 1), (1, 18, 0)] := by
  decide +kernel

theorem honest_labels_exact_twoSnapshots :
    ∃ s : Server, (s.sent.map fun x => (x.image.size, x.endOffset, x.generation)) =
        [(2, 8, 1), (1, 18, 0)] ∧
      s.LabelsExact := by
  obtain ⟨s, hexec, hsent⟩ := Option.map_eq_some_iff.mp twoSnapshots_runs
  exact ⟨s, hsent, honest_labels_exact Engine.opened_empty
    (Transition.exec_runs (fun _ _ _ hs => honestStep_spec hs) hexec)⟩

/-- A commit is durable and not installed when the rows are copied. -/
def aheadOfInstalls : List ServerAction :=
  [.engine (.append [(("t", [1]), some [7])] 10), .engine (.sync 18), .dump 0, .send 0]

theorem aheadOfInstalls_runs :
    (Transition.exec (fun a s => s.step a) (fun _ => true) aheadOfInstalls
      (start ["t"] ∅ [] headerLen)).map (fun s => s.sent.map fun x =>
        (x.image[Engine.lostKey]?,
          (s.stateAt x.generation x.endOffset).bind fun rows => rows[Engine.lostKey]?)) =
      some [(none, some [7])] := by
  decide +kernel

/-- The snapshot lacks a transaction that its offset covers. -/
theorem snapshot_lacks_durable_commit :
    ¬ ∀ s : Server, Relation.ReflTransGen Steps (start ["t"] ∅ [] headerLen) s → s.LabelsExact := by
  intro hlabels
  obtain ⟨s, hexec, hsent⟩ := Option.map_eq_some_iff.mp aheadOfInstalls_runs
  have hexact := hlabels s (Transition.exec_runs (fun a _ _ hs => ⟨a, hs⟩) hexec)
  obtain ⟨x, hx, hrow⟩ : ∃ x ∈ s.sent, (x.image[Engine.lostKey]?,
      (s.stateAt x.generation x.endOffset).bind fun rows => rows[Engine.lostKey]?) =
        (none, some [7]) := by
    rw [← List.mem_map, hsent]
    simp
  rw [hexact x hx, Option.bind_some, Prod.mk.injEq] at hrow
  rw [hrow.1] at hrow
  cases hrow.2

end Server

end HenchDB.Commit
