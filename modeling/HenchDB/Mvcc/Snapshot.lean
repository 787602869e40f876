import HenchDB.Mvcc.Pipeline

/-!
# Snapshot reads are consistent

For a snapshot registered at epoch `R` the version buffer and the tree together
determine every row as of `R` (`Resolves`).  Commits above `R` keep this, since
they record a row before they replace it, and collection keeps it, since it
only drops what ends by the oldest registered epoch.  The one exception is a
collection that finds no snapshot registered while a commit is half installed:
it drops the entries of that commit, and a snapshot pinned before the commit is
published would read its rows.
-/

namespace HenchDB.Mvcc

open VersionState (decodeAt recordInstall recordCommitBatch)

variable {Row E : Type} {decodeStored : String → Bytes → Except E Row}

/-! ## The committed state -/

section AsOf

variable {base : Trees} {log : List Commit} {c : Commit} {R : Nat} {k : TKey}

/-- A later commit is not seen. -/
theorem asOf_append_of_lt (h : R < c.epoch) : asOf base (log ++ [c]) R k = asOf base log R k := by
  simp [asOf, List.foldl_append, not_le.mpr h]

/-- An earlier commit leaves what it writes. -/
theorem asOf_append_of_le (h : c.epoch ≤ R) :
    asOf base (log ++ [c]) R k = (c.batch.writes.lookup k).getD (asOf base log R k) := by
  simp [asOf, List.foldl_append, h]

/-- Two epochs with no commit between them see the same. -/
theorem asOf_congr {R' : Nat} : ∀ {log : List Commit},
    (∀ c ∈ log, c.epoch ≤ R ↔ c.epoch ≤ R') → asOf base log R k = asOf base log R' k := by
  intro log
  induction log using List.reverseRecOn with
  | nil => intro _; rfl
  | append_singleton log c ih =>
    intro h
    have hlog := ih fun c' hc' => h c' (by simp [hc'])
    have hc := h c (by simp)
    by_cases hle : c.epoch ≤ R
    · rw [asOf_append_of_le hle, asOf_append_of_le (hc.mp hle), hlog]
    · rw [asOf_append_of_lt (not_le.mp hle), asOf_append_of_lt (not_le.mp fun h' => hle (hc.mpr h')),
        hlog]

end AsOf

/-! ## Resolution -/

/-- The keys of a batch are distinct, so an earlier part lacks a later key. -/
theorem lookup_eq_none_of_nodup {done pending : List Write}
    {w : Write} (h : ((done ++ w :: pending).map Prod.fst).Nodup) :
    done.lookup w.1 = none := by
  rw [List.lookup_eq_none_iff]
  intro p hp
  rw [List.map_append, List.nodup_append] at h
  have hne := h.2.2 p.1 (List.mem_map_of_mem hp) w.1 (by simp)
  simpa using hne.symm

/-- The tree and the version buffer determine the value of a key at `R`: the
tree when no commit above `R` changed it, the chain otherwise. -/
structure Resolves (decodeStored : String → Bytes → Except E Row) (trees : Trees)
    (vs : VersionState Row) (R : Nat) (k : TKey) (value : Option Bytes) : Prop where
  /-- The key was not changed above `R`. -/
  tree : vs.committedEpoch k ≤ R → trees[k]? = value ∧ vs.chainAt k R = none
  /-- The key was changed above `R`. -/
  chain : R < vs.committedEpoch k →
    ∃ row, vs.chainAt k R = some row ∧ decodeAt decodeStored k value = .ok row

section Resolves

variable {trees : Trees} {vs : VersionState Row} {R oldest : Nat} {k : TKey}
  {value : Option Bytes}

theorem Resolves.decodeAt_of_chainAt {row : Option Row}
    (h : Resolves decodeStored trees vs R k value) (hc : vs.chainAt k R = some row) :
    decodeAt decodeStored k value = .ok row := by
  by_cases hlt : R < vs.committedEpoch k
  · obtain ⟨row', hrow, hval⟩ := h.chain hlt
    rw [hc] at hrow
    cases hrow
    exact hval
  · rw [(h.tree (not_lt.mp hlt)).2] at hc
    cases hc

/-- Collection at or below `R` is not seen at `R`. -/
theorem Resolves.pruned (h : Resolves decodeStored trees vs R k value) (ho : vs.Ordered)
    (hR : oldest ≤ R) : Resolves decodeStored trees (vs.pruned oldest) R k value where
  tree hle := by
    rw [VersionState.chainAt_pruned ho hR]
    exact h.tree (not_lt.mp fun hlt => absurd hle
      (not_le.mpr ((VersionState.lt_committedEpoch_pruned hR).mpr hlt)))
  chain hlt := by
    rw [VersionState.chainAt_pruned ho hR]
    exact h.chain ((VersionState.lt_committedEpoch_pruned hR).mp hlt)

/-- Recording what a commit above `R` supersedes. -/
theorem Resolves.supersede {epoch : Nat} {prev : Option Row} {k' : TKey}
    (h : Resolves decodeStored trees vs R k value) (hR : R < epoch)
    (hprev : decodeAt decodeStored k' trees[k']? = .ok prev) :
    Resolves decodeStored trees (vs.supersede k' epoch prev) R k value := by
  by_cases hk : k' = k
  · subst hk
    constructor
    · intro hle
      rw [VersionState.committedEpoch_supersede, if_pos rfl] at hle
      omega
    · intro _
      rw [VersionState.chainAt_supersede_self hR]
      by_cases hold : R < vs.committedEpoch k'
      · obtain ⟨row, hrow, hval⟩ := h.chain hold
        exact ⟨row, by rw [hrow]; rfl, hval⟩
      · obtain ⟨htree, hnone⟩ := h.tree (not_lt.mp hold)
        exact ⟨prev, by rw [hnone]; rfl, htree ▸ hprev⟩
  · constructor
    · rw [VersionState.committedEpoch_supersede, if_neg hk, VersionState.chainAt_supersede_ne hk]
      exact h.tree
    · rw [VersionState.committedEpoch_supersede, if_neg hk, VersionState.chainAt_supersede_ne hk]
      exact h.chain

/-- Applying a row whose change is recorded above `R`, or that is no change. -/
theorem Resolves.applyWrite {w : Write}
    (h : Resolves decodeStored trees vs R k value)
    (hw : R < vs.committedEpoch w.1 ∨ trees[w.1]? = w.2) :
    Resolves decodeStored (applyWrite trees w) vs R k value where
  tree hle := by
    obtain ⟨htree, hnone⟩ := h.tree hle
    refine ⟨?_, hnone⟩
    rw [getElem?_applyWrite]
    split
    · next hk =>
      subst hk
      rcases hw with hlt | heq
      · omega
      · rw [← heq, htree]
    · exact htree
  chain := h.chain

end Resolves

/-! ## Recording a batch -/

/-- What recording at `epoch` does to the version buffer. -/
structure Recorded (decodeStored : String → Bytes → Except E Row) (trees : Trees) (epoch : Nat)
    (vs vs' : VersionState Row) : Prop where
  ordered : vs'.Ordered
  bounded : vs'.Bounded epoch
  snapshots : vs'.snapshots = vs.snapshots
  nextSnapshotId : vs'.nextSnapshotId = vs.nextSnapshotId
  /-- Readers below `epoch` see what they saw. -/
  resolves : ∀ R k value, R < epoch → Resolves decodeStored trees vs R k value →
    Resolves decodeStored trees vs' R k value
  /-- A key once superseded above a read epoch stays so. -/
  committed : ∀ R k, R < epoch → R < vs.committedEpoch k → R < vs'.committedEpoch k
  /-- The rows recorded are those of the batch. -/
  committed_eq : ∀ k, vs'.committedEpoch k = vs.committedEpoch k ∨ vs'.committedEpoch k = epoch

section Recording

variable {trees : Trees} {epoch : Nat} {vs vs' vs'' : VersionState Row}

theorem Recorded.refl (ho : vs.Ordered) (hb : vs.Bounded epoch) :
    Recorded decodeStored trees epoch vs vs where
  ordered := ho
  bounded := hb
  snapshots := rfl
  nextSnapshotId := rfl
  resolves _ _ _ _ h := h
  committed _ _ _ h := h
  committed_eq _ := .inl rfl

theorem Recorded.trans (h : Recorded decodeStored trees epoch vs vs')
    (h' : Recorded decodeStored trees epoch vs' vs'') :
    Recorded decodeStored trees epoch vs vs'' where
  ordered := h'.ordered
  bounded := h'.bounded
  snapshots := h'.snapshots.trans h.snapshots
  nextSnapshotId := h'.nextSnapshotId.trans h.nextSnapshotId
  resolves R k value hR hr := h'.resolves R k value hR (h.resolves R k value hR hr)
  committed R k hR hc := h'.committed R k hR (h.committed R k hR hc)
  committed_eq k := by
    rcases h'.committed_eq k with heq | heq
    · rw [heq]
      exact h.committed_eq k
    · exact .inr heq

/-- One row of the batch, whose chain ends below `epoch` so far. -/
theorem recordInstall_recorded {w : Write} (ho : vs.Ordered) (hb : vs.Bounded epoch)
    (hfresh : ∀ chain, vs.chains[w.1]? = some chain → ∀ e ∈ chain, e.1 < epoch)
    (h : recordInstall decodeStored trees epoch vs w = .ok vs') :
    Recorded decodeStored trees epoch vs vs' ∧
      (∀ k, k ≠ w.1 → vs'.chains[k]? = vs.chains[k]?) ∧
      (trees[w.1]? ≠ w.2 → vs'.committedEpoch w.1 = epoch) := by
  unfold recordInstall at h
  split at h
  · next hsame =>
    cases h
    exact ⟨.refl ho hb, fun _ _ => rfl, fun hne => absurd hsame hne⟩
  · split at h
    · next prev hprev =>
      cases h
      refine ⟨?_, fun k hk => ?_, fun _ => ?_⟩
      · exact
          { ordered := ho.supersede hfresh
            bounded := hb.supersede
            snapshots := rfl
            nextSnapshotId := rfl
            resolves := fun R k value hR hr => hr.supersede hR hprev
            committed := fun R k hR hc => by
              rw [VersionState.committedEpoch_supersede]
              split
              · exact hR
              · exact hc
            committed_eq := fun k => by
              rw [VersionState.committedEpoch_supersede]
              split
              · exact .inr rfl
              · exact .inl rfl }
      · rw [VersionState.getElem?_chains_supersede, if_neg hk.symm]
      · rw [VersionState.committedEpoch_supersede, if_pos rfl]
    · cases h

theorem recordCommitBatch_recorded : ∀ {ws : List Write} {vs : VersionState Row},
    (ws.map Prod.fst).Nodup → vs.Ordered → vs.Bounded epoch →
    (∀ w ∈ ws, ∀ chain, vs.chains[w.1]? = some chain → ∀ e ∈ chain, e.1 < epoch) →
    Recorded decodeStored trees epoch vs (recordCommitBatch decodeStored trees epoch ws vs).1 ∧
      ((recordCommitBatch decodeStored trees epoch ws vs).2 = .ok () →
        ∀ k ∈ Engine.changedKeys trees ws,
          (recordCommitBatch decodeStored trees epoch ws vs).1.committedEpoch k = epoch)
  | [], vs, _, ho, hb, _ => ⟨.refl ho hb, fun _ k hk => by simp [Engine.changedKeys] at hk⟩
  | w :: ws, vs, hnd, ho, hb, hfresh => by
    rw [List.map_cons, List.nodup_cons] at hnd
    rw [recordCommitBatch]
    cases hrec : recordInstall decodeStored trees epoch vs w with
    | error e => exact ⟨.refl ho hb, fun h => by cases h⟩
    | ok vs' =>
      obtain ⟨hone, hother, hchanged⟩ :=
        recordInstall_recorded ho hb (hfresh w (by simp)) hrec
      have hfresh' : ∀ w' ∈ ws, ∀ chain, vs'.chains[w'.1]? = some chain →
          ∀ e ∈ chain, e.1 < epoch := by
        intro w' hw' chain hc
        have hne : w'.1 ≠ w.1 := fun h => hnd.1 (h ▸ List.mem_map_of_mem hw')
        rw [hother w'.1 hne] at hc
        exact hfresh w' (by simp [hw']) chain hc
      obtain ⟨hrest, hkeys⟩ :=
        recordCommitBatch_recorded hnd.2 hone.ordered hone.bounded hfresh'
      refine ⟨hone.trans hrest, fun hok k hk => ?_⟩
      obtain ⟨w', hw', rfl⟩ := List.mem_map.mp hk
      obtain ⟨hmem, hne⟩ := List.mem_filter.mp hw'
      rcases List.mem_cons.mp hmem with rfl | hmem
      · -- later rows leave the epoch of an earlier one at `epoch`
        rcases hrest.committed_eq w'.1 with heq | heq
        · rw [heq]
          exact hchanged (by simpa using hne)
        · exact heq
      · exact hkeys hok w'.1 (List.mem_map_of_mem (List.mem_filter.mpr ⟨hmem, hne⟩))

end Recording

/-! ## The state between two steps -/

namespace Engine

variable {s s' : Engine Row E} {c : Commit} {R : Nat} {k : TKey}

/-- The committed value of a key at an epoch. -/
def value (s : Engine Row E) (R : Nat) (k : TKey) : Option Bytes := asOf s.base s.log R k

def lastRecorded (s : Engine Row E) : Nat :=
  match s.installing with
  | some i => i.commit.epoch
  | none => s.visibleEpoch

/-- Nothing in the log is above the visible epoch, and the trees hold the rows
of the visible epoch. -/
structure Settled (log : List Commit) (visible : Nat) (trees : Trees)
    (value : TKey → Option Bytes) : Prop where
  visible : ∀ c ∈ log, c.epoch ≤ visible
  tree : ∀ k : TKey, trees[k]? = value k

/-- The last commit of the log is not published, and `done` of its rows are
applied. -/
structure HalfInstalled (log : List Commit) (visible : Nat) (trees : Trees)
    (value : TKey → Option Bytes) (c : Commit) (done : List Write) : Prop where
  log : ∃ older, log = older ++ [c] ∧ ∀ c' ∈ older, c'.epoch ≤ visible
  above : visible < c.epoch
  tree : ∀ k : TKey, trees[k]? = (done.lookup k).getD (value k)

/-- The holder of the install lock. -/
def PhaseOk (s : Engine Row E) : Prop :=
  match s.installing with
  | none => Settled s.log s.visibleEpoch s.trees (s.value s.visibleEpoch)
  | some { commit := c, recorded := _, phase := .published } =>
    Settled s.log s.visibleEpoch s.trees (s.value s.visibleEpoch) ∧ c.epoch = s.visibleEpoch
  | some { commit := c, recorded := _, phase := .failed } =>
    HalfInstalled s.log s.visibleEpoch s.trees (s.value s.visibleEpoch) c []
  | some { commit := c, recorded := recorded, phase := .applying pending } =>
    ∃ done, c.batch.writes = done ++ pending ∧
      HalfInstalled s.log s.visibleEpoch s.trees (s.value s.visibleEpoch) c done ∧
      ∀ w ∈ c.batch.writes, w.1 ∈ recorded ∨ w.2 = s.value s.visibleEpoch w.1

def ResolvesAt (decodeStored : String → Bytes → Except E Row) (s : Engine Row E) (R : Nat) :
    Prop :=
  ∀ k, Resolves decodeStored s.trees s.versions R k (s.value R k)

/-- The pipeline and the version buffer, in every reachable state. -/
structure CoreOk (decodeStored : String → Bytes → Except E Row) (s : Engine Row E) : Prop where
  ordered : s.versions.Ordered
  bounded : s.versions.Bounded s.lastRecorded
  /-- The queue stands in epoch order above everything recorded. -/
  queue : s.queue.Pairwise fun a b => a.epoch < b.epoch
  queue_above : ∀ c ∈ s.queue, s.lastRecorded < c.epoch ∧ c.epoch < s.commitEpoch
  recorded_lt : s.lastRecorded < s.commitEpoch
  phase : s.PhaseOk
  /-- A registered snapshot keeps the history of the commit being installed. -/
  kept : ∀ id R : Nat, s.versions.snapshots[id]? = some R → s.historyKept = true
  current : s.historyKept = true → s.ResolvesAt decodeStored s.visibleEpoch
  pinned : ∀ id R : Nat, s.versions.snapshots[id]? = some R →
    R ≤ s.visibleEpoch ∧ id < s.versions.nextSnapshotId ∧ s.ResolvesAt decodeStored R

/-! ## What readers rely on -/

/-- A step loses nothing a reader at `R` relies on. -/
structure Keeps (s s' : Engine Row E) (R : Nat) : Prop where
  value : ∀ k, s'.value R k = s.value R k
  committed : ∀ k, R < s.versions.committedEpoch k → R < s'.versions.committedEpoch k

/-- A tree state is the row at `R`, or was superseded above `R`. -/
def Seen (decodeStored : String → Bytes → Except E Row) (s : Engine Row E) (R : Nat) (k : TKey)
    (current : Option Row) : Prop :=
  s.rowAt decodeStored R k = .ok current ∨ R < s.versions.committedEpoch k

/-- What a session has read so far. -/
def ReaderOk (decodeStored : String → Bytes → Except E Row) (s : Engine Row E) :
    Reader Row → Prop
  | .idle => True
  | .pinned pin => s.versions.snapshots[pin.id]? = some pin.readEpoch
  | .fetched pin k current =>
    s.versions.snapshots[pin.id]? = some pin.readEpoch ∧
      s.Seen decodeStored pin.readEpoch k current
  | .scanning pin table cursor rows =>
    s.versions.snapshots[pin.id]? = some pin.readEpoch ∧
      (rows.map Prod.fst).Nodup ∧ (∀ e ∈ rows, e.1 < cursor) ∧
      (∀ e ∈ rows, s.Seen decodeStored pin.readEpoch (table, e.1) (some e.2)) ∧
      ∀ k < cursor, k ∉ rows.map Prod.fst → s.Seen decodeStored pin.readEpoch (table, k) none
  | .resolving pin table rest kept =>
    s.versions.snapshots[pin.id]? = some pin.readEpoch ∧
      ((rest ++ kept).map Prod.fst).Nodup ∧
      (∀ e ∈ rest, s.Seen decodeStored pin.readEpoch (table, e.1) (some e.2)) ∧
      (∀ e ∈ kept, s.rowAt decodeStored pin.readEpoch (table, e.1) = .ok (some e.2)) ∧
      ∀ k ∉ (rest ++ kept).map Prod.fst, s.Seen decodeStored pin.readEpoch (table, k) none

end Engine

def Reader.pin? : Reader Row → Option SnapshotPin
  | .idle => none
  | .pinned pin => some pin
  | .fetched pin _ _ => some pin
  | .scanning pin _ _ _ => some pin
  | .resolving pin _ _ _ => some pin

def Answer.readEpoch : Answer Row E → Nat
  | .row readEpoch _ _ => readEpoch
  | .scan readEpoch _ _ => readEpoch

/-- An answer stays right as long as the rows of its epoch stay what they were. -/
theorem Answer.Consistent.congr {a : Answer Row E} {f g : Nat → TKey → Except E (Option Row)}
    (h : a.Consistent f) (hfg : ∀ k, g a.readEpoch k = f a.readEpoch k) : a.Consistent g := by
  match a with
  | .row _ k (.ok found) => exact (hfg k).trans h
  | .row _ _ (.error _) => exact h
  | .scan R table (.ok rows) =>
    refine ⟨h.1, fun k row => (h.2 k row).trans ?_⟩
    have heq : g R (table, k) = f R (table, k) := hfg (table, k)
    rw [heq]
  | .scan _ _ (.error _) => exact h

namespace Engine

variable {s s' : Engine Row E} {c : Commit} {R : Nat} {k : TKey}

/-- Every reachable state. -/
structure Inv (decodeStored : String → Bytes → Except E Row) (s : Engine Row E) : Prop where
  core : s.CoreOk decodeStored
  readers : ∀ r, s.ReaderOk decodeStored (s.readers r)
  /-- Two sessions hold different snapshots. -/
  distinct : ∀ r r' pin pin', (s.readers r).pin? = some pin → (s.readers r').pin? = some pin' →
    pin.id = pin'.id → r = r'
  answers : ∀ a ∈ s.answers, a.readEpoch ≤ s.visibleEpoch ∧ a.Consistent (s.rowAt decodeStored)

theorem Keeps.rowAt (h : Keeps s s' R) (k : TKey) :
    s'.rowAt decodeStored R k = s.rowAt decodeStored R k :=
  congrArg (decodeAt decodeStored k) (h.value k)

theorem Seen.keeps {current : Option Row} (hs : s.Seen decodeStored R k current)
    (h : Keeps s s' R) : s'.Seen decodeStored R k current := by
  rcases hs with hrow | hlt
  · exact .inl ((h.rowAt k).trans hrow)
  · exact .inr (h.committed k hlt)

/-- A session is not disturbed by a step that keeps its snapshot. -/
theorem ReaderOk.keeps {reader : Reader Row} (h : s.ReaderOk decodeStored reader)
    (hkeep : ∀ pin, reader.pin? = some pin →
      s'.versions.snapshots[pin.id]? = some pin.readEpoch ∧ Keeps s s' pin.readEpoch) :
    s'.ReaderOk decodeStored reader := by
  cases reader with
  | idle => trivial
  | pinned pin => exact (hkeep pin rfl).1
  | fetched pin k current =>
    obtain ⟨hreg, hk⟩ := hkeep pin rfl
    exact ⟨hreg, h.2.keeps hk⟩
  | scanning pin table cursor rows =>
    obtain ⟨hreg, hk⟩ := hkeep pin rfl
    obtain ⟨-, hnd, hlt, hrows, habsent⟩ := h
    exact ⟨hreg, hnd, hlt, fun e he => (hrows e he).keeps hk,
      fun k hc hn => (habsent k hc hn).keeps hk⟩
  | resolving pin table rest kept =>
    obtain ⟨hreg, hk⟩ := hkeep pin rfl
    obtain ⟨-, hnd, hrest, hkept, habsent⟩ := h
    exact ⟨hreg, hnd, fun e he => (hrest e he).keeps hk,
      fun e he => (hk.rowAt _).trans (hkept e he), fun k hn => (habsent k hn).keeps hk⟩

theorem ReaderOk.registered {reader : Reader Row} {pin : SnapshotPin}
    (h : s.ReaderOk decodeStored reader) (hpin : reader.pin? = some pin) :
    s.versions.snapshots[pin.id]? = some pin.readEpoch := by
  cases reader with
  | idle => cases hpin
  | pinned p => cases hpin; exact h
  | fetched p k current => cases hpin; exact h.1
  | scanning p table cursor rows => cases hpin; exact h.1
  | resolving p table rest kept => cases hpin; exact h.1

/-! ## Collection -/

variable {vs : VersionState Row}

/-- Collection that finds a snapshot prunes below every registered epoch. -/
theorem gcLocked_of_registered {id : Nat} (h : vs.snapshots[id]? = some R) :
    ∃ oldest, vs.oldestPinned = some oldest ∧ vs.gcLocked = vs.pruned oldest ∧ oldest ≤ R := by
  cases ho : vs.oldestPinned with
  | none =>
    rw [VersionState.oldestPinned_eq_none ho id] at h
    cases h
  | some oldest =>
    refine ⟨oldest, rfl, ?_, (VersionState.oldestPinned_spec ho).2 id R h⟩
    rw [VersionState.gcLocked, ho]

@[simp]
theorem gcLocked_snapshots (vs : VersionState Row) : vs.gcLocked.snapshots = vs.snapshots := by
  unfold VersionState.gcLocked
  split <;> rfl

@[simp]
theorem gcLocked_nextSnapshotId (vs : VersionState Row) :
    vs.gcLocked.nextSnapshotId = vs.nextSnapshotId := by
  unfold VersionState.gcLocked
  split <;> rfl

theorem gcLocked_ordered (h : vs.Ordered) : vs.gcLocked.Ordered := by
  unfold VersionState.gcLocked
  split
  · intro k chain hc
    simp at hc
  · exact h.pruned _

theorem gcLocked_bounded {last : Nat} (h : vs.Bounded last) :
    vs.gcLocked.Bounded last := by
  unfold VersionState.gcLocked
  split
  · constructor
    · intro k
      simp [VersionState.committedEpoch]
    · intro k chain hc
      simp at hc
  · exact h.pruned _

/-- The visible epoch resolves without any history when no commit is half
installed, or when the one that is changes no row. -/
theorem PhaseOk.resolves_of_empty (h : s.PhaseOk) (hkept : s.historyKept = true)
    (hcommitted : ∀ k, s.versions.committedEpoch k = 0)
    (hchain : ∀ k R, s.versions.chainAt k R = none) :
    s.ResolvesAt decodeStored s.visibleEpoch := by
  have htree : ∀ k : TKey, s.trees[k]? = s.value s.visibleEpoch k := by
    unfold PhaseOk at h
    unfold historyKept at hkept
    split at h
    · exact h.tree
    · exact h.1.tree
    · intro k
      simpa using h.tree k
    · next c recorded pending hi =>
      obtain ⟨done, hdone, hhalf, hrec⟩ := h
      intro k
      rw [hhalf.tree k]
      -- a recorded key would still carry the epoch of the commit
      have hnone : recorded = [] := by
        cases recorded with
        | nil => rfl
        | cons k' rest =>
          rw [hi] at hkept
          have heq : s.versions.committedEpoch k' = c.epoch := by
            simpa using (List.all_eq_true.mp hkept) k' (by simp)
          have := hhalf.above
          rw [hcommitted k'] at heq
          omega
      cases hl : done.lookup k with
      | none => rfl
      | some v =>
        have hmem : (k, v) ∈ c.batch.writes := hdone ▸ List.mem_append_left _
          (mem_of_lookup hl)
        rcases hrec (k, v) hmem with hin | heq
        · simp [hnone] at hin
        · exact heq
  intro k
  constructor
  · intro _
    exact ⟨htree k, hchain k _⟩
  · intro hlt
    rw [hcommitted k] at hlt
    omega

theorem historyKept_iff : s.historyKept = true ↔
    ∀ c recorded pending, s.installing = some ⟨c, recorded, .applying pending⟩ →
      ∀ k ∈ recorded, s.versions.committedEpoch k = c.epoch := by
  unfold historyKept
  split
  · next c recorded pending hi =>
    constructor
    · intro h c' recorded' pending' heq
      rw [hi] at heq
      cases heq
      simpa using h
    · intro h
      simpa using h c recorded pending hi
  · next hno =>
    simp only [true_iff]
    intro c recorded pending heq
    exact absurd heq (hno c recorded pending)

theorem PhaseOk.above {recorded : List TKey} {pending : List Write}
    (h : s.PhaseOk) (hi : s.installing = some ⟨c, recorded, .applying pending⟩) :
    s.visibleEpoch < c.epoch := by
  unfold PhaseOk at h
  rw [hi] at h
  obtain ⟨_, _, hhalf, _⟩ := h
  exact hhalf.above

/-- Collection keeps the pipeline. -/
theorem CoreOk.gc (h : s.CoreOk decodeStored) :
    ({ s with versions := s.versions.gcLocked } : Engine Row E).CoreOk decodeStored where
  ordered := gcLocked_ordered h.ordered
  bounded := gcLocked_bounded h.bounded
  queue := h.queue
  queue_above := h.queue_above
  recorded_lt := h.recorded_lt
  phase := h.phase
  kept id R hid := by
    have hreg : s.versions.snapshots[id]? = some R := by simpa using hid
    obtain ⟨oldest, -, hgc, hle⟩ := gcLocked_of_registered hreg
    refine historyKept_iff.mpr fun c recorded pending hi k hk => ?_
    have hold := historyKept_iff.mp (h.kept id R hreg) c recorded pending hi k hk
    have habove := h.phase.above hi
    have hR := (h.pinned id R hreg).1
    show VersionState.committedEpoch s.versions.gcLocked k = c.epoch
    rw [hgc, VersionState.committedEpoch_pruned, hold, if_pos (by omega)]
  current hkept := by
    cases ho : s.versions.oldestPinned with
    | none =>
      have hgc : s.versions.gcLocked = { s.versions with chains := ∅, committed := ∅ } := by
        rw [VersionState.gcLocked, ho]
      refine PhaseOk.resolves_of_empty (s := { s with versions := s.versions.gcLocked })
        h.phase hkept ?_ ?_
      · intro k
        simp [hgc, VersionState.committedEpoch]
      · intro k R
        simp [hgc, VersionState.chainAt]
    | some oldest =>
      obtain ⟨id, hid⟩ := (VersionState.oldestPinned_spec ho).1
      have hgc : s.versions.gcLocked = s.versions.pruned oldest := by
        rw [VersionState.gcLocked, ho]
      intro k
      have hres := (h.current (h.kept id oldest hid) k).pruned h.ordered (h.pinned id oldest hid).1
      show Resolves decodeStored s.trees s.versions.gcLocked s.visibleEpoch k _
      rw [hgc]
      exact hres
  pinned id R hid := by
    have hreg : s.versions.snapshots[id]? = some R := by simpa using hid
    obtain ⟨oldest, -, hgc, hle⟩ := gcLocked_of_registered hreg
    obtain ⟨hR, hid', hres⟩ := h.pinned id R hreg
    refine ⟨hR, by simpa using hid', fun k => ?_⟩
    show Resolves decodeStored s.trees s.versions.gcLocked R k _
    rw [hgc]
    exact (hres k).pruned h.ordered hle

/-- Collection loses nothing a registered reader relies on. -/
theorem Keeps.gc {id : Nat} (hid : s.versions.snapshots[id]? = some R) :
    Keeps s { s with versions := s.versions.gcLocked } R where
  value _ := rfl
  committed k hk := by
    obtain ⟨oldest, -, hgc, hle⟩ := gcLocked_of_registered hid
    show R < VersionState.committedEpoch s.versions.gcLocked k
    rw [hgc]
    exact (VersionState.lt_committedEpoch_pruned hle).mpr hk

/-! ## Steps of the pipeline -/

/-- A step that touches no session keeps the invariant if it keeps the pipeline
and what the registered readers rely on. -/
theorem Inv.pipeline (h : s.Inv decodeStored) (hcore : s'.CoreOk decodeStored)
    (hreaders : s'.readers = s.readers) (hanswers : s'.answers = s.answers)
    (hvisible : s.visibleEpoch ≤ s'.visibleEpoch)
    (hvalue : ∀ R ≤ s.visibleEpoch, ∀ k, s'.value R k = s.value R k)
    (hkeep : ∀ id R : Nat, s.versions.snapshots[id]? = some R →
      s'.versions.snapshots[id]? = some R ∧ Keeps s s' R) : s'.Inv decodeStored where
  core := hcore
  readers r := by
    rw [hreaders]
    exact (h.readers r).keeps fun pin hpin => hkeep _ _ ((h.readers r).registered hpin)
  distinct := by
    rw [hreaders]
    exact h.distinct
  answers a ha := by
    rw [hanswers] at ha
    obtain ⟨hle, hcons⟩ := h.answers a ha
    refine ⟨hle.trans hvisible, hcons.congr fun k => ?_⟩
    exact congrArg (decodeAt decodeStored k) (hvalue _ hle k)

theorem Inv.gcVersions (h : s.Inv decodeStored) : s.gcVersions.Inv decodeStored :=
  h.pipeline h.core.gc rfl rfl le_rfl (fun _ _ _ => rfl) fun id R hid =>
    ⟨by simpa [Engine.gcVersions] using hid, .gc hid⟩

theorem CoreOk.append (h : s.CoreOk decodeStored) (batch : Batch) :
    (s.append batch).CoreOk decodeStored where
  ordered := h.ordered
  bounded := h.bounded
  queue := by
    show (s.queue ++ [_]).Pairwise _
    rw [List.pairwise_append]
    refine ⟨h.queue, by simp, fun a ha b hb => ?_⟩
    rw [List.mem_singleton.mp hb]
    exact (h.queue_above a ha).2
  queue_above := by
    intro c hc
    show s.lastRecorded < c.epoch ∧ c.epoch < s.commitEpoch + 1
    rcases List.mem_append.mp hc with hc | hc
    · have := h.queue_above c hc
      omega
    · rw [List.mem_singleton.mp hc]
      exact ⟨h.recorded_lt, Nat.lt_succ_self _⟩
  recorded_lt := Nat.lt_succ_of_lt h.recorded_lt
  phase := h.phase
  kept := h.kept
  current := h.current
  pinned := h.pinned

theorem CoreOk.appendFailed (h : s.CoreOk decodeStored) : s.appendFailed.CoreOk decodeStored where
  ordered := h.ordered
  bounded := h.bounded
  queue := h.queue
  queue_above c hc := ⟨(h.queue_above c hc).1, Nat.lt_succ_of_lt (h.queue_above c hc).2⟩
  recorded_lt := Nat.lt_succ_of_lt h.recorded_lt
  phase := h.phase
  kept := h.kept
  current := h.current
  pinned := h.pinned

theorem CoreOk.recorded (h : s.CoreOk decodeStored) {queue : List Commit}
    (hq : s.queue = c :: queue) :
    Recorded decodeStored s.trees c.epoch s.versions
        (recordCommitBatch decodeStored s.trees c.epoch c.batch.writes s.versions).1 ∧
      ((recordCommitBatch decodeStored s.trees c.epoch c.batch.writes s.versions).2 = .ok () →
        ∀ k ∈ changedKeys s.trees c.batch.writes,
          (recordCommitBatch decodeStored s.trees c.epoch c.batch.writes s.versions).1.committedEpoch
            k = c.epoch) := by
  have hlt := (h.queue_above c (by simp [hq])).1
  refine recordCommitBatch_recorded c.batch.nodup h.ordered (h.bounded.mono hlt.le) ?_
  intro w _ chain hc e he
  exact lt_of_le_of_lt (h.bounded.chains w.1 chain hc e he) hlt

theorem CoreOk.record (h : s.CoreOk decodeStored) (hs : s.record decodeStored = some s') :
    s'.CoreOk decodeStored ∧ s'.readers = s.readers ∧ s'.answers = s.answers ∧
      s'.visibleEpoch = s.visibleEpoch ∧ (∀ R ≤ s.visibleEpoch, ∀ k, s'.value R k = s.value R k) ∧
      ∀ id R : Nat, s.versions.snapshots[id]? = some R →
        s'.versions.snapshots[id]? = some R ∧ Keeps s s' R := by
  unfold Engine.record at hs
  split at hs
  · next c queue hi hq =>
    cases hs
    obtain ⟨hrec, hkeys⟩ := h.recorded hq
    have hlast : s.lastRecorded = s.visibleEpoch := by rw [lastRecorded, hi]
    have habove : s.visibleEpoch < c.epoch := hlast ▸ (h.queue_above c (by simp [hq])).1
    have hsettled : Settled s.log s.visibleEpoch s.trees (s.value s.visibleEpoch) := by
      have := h.phase
      unfold PhaseOk at this
      rwa [hi] at this
    have hvalue : ∀ R ≤ s.visibleEpoch, ∀ k,
        asOf s.base (s.log ++ [c]) R k = s.value R k := fun R hR k =>
      asOf_append_of_lt (lt_of_le_of_lt hR habove)
    have hcurrent := h.current (by rw [historyKept, hi])
    have hhalf : HalfInstalled (s.log ++ [c]) s.visibleEpoch s.trees
        (asOf s.base (s.log ++ [c]) s.visibleEpoch) c [] :=
      { log := ⟨s.log, rfl, hsettled.visible⟩
        above := habove
        tree := fun k => (hsettled.tree k).trans (hvalue _ le_rfl k).symm }
    generalize hbatch :
      recordCommitBatch decodeStored s.trees c.epoch c.batch.writes s.versions = batch
      at hrec hkeys ⊢
    obtain ⟨vs', result⟩ := batch
    have hresolves : ∀ R ≤ s.visibleEpoch, s.ResolvesAt decodeStored R → ∀ k,
        Resolves decodeStored s.trees vs' R k (asOf s.base (s.log ++ [c]) R k) := by
      intro R hR hres k
      rw [hvalue R hR k]
      exact hrec.resolves R k _ (lt_of_le_of_lt hR habove) (hres k)
    refine ⟨?_, rfl, rfl, rfl, hvalue, fun id R hid => ⟨?_, ?_⟩⟩
    · exact
        { ordered := hrec.ordered
          bounded := hrec.bounded
          queue := (List.pairwise_cons.mp (hq ▸ h.queue)).2
          queue_above := fun c' hc' =>
            ⟨(List.pairwise_cons.mp (hq ▸ h.queue)).1 c' hc',
              (h.queue_above c' (by simp [hq, hc'])).2⟩
          recorded_lt := (h.queue_above c (by simp [hq])).2
          phase := by
            cases result with
            | error e => exact hhalf
            | ok u =>
              refine ⟨[], rfl, hhalf, fun w hw => ?_⟩
              by_cases hsame : s.trees[w.1]? = w.2
              · exact .inr (hsame ▸ hhalf.tree w.1)
              · exact .inl (List.mem_map_of_mem (List.mem_filter.mpr ⟨hw, by simpa using hsame⟩))
          kept := fun _ _ _ => by
            refine historyKept_iff.mpr fun c' recorded pending heq k hk => ?_
            cases result with
            | error e => cases heq
            | ok u =>
              cases heq
              exact hkeys rfl k hk
          current := fun _ => hresolves _ le_rfl hcurrent
          pinned := fun id R hid => by
            obtain ⟨hR, hlt, hres⟩ := h.pinned id R (hrec.snapshots ▸ hid)
            exact ⟨hR, hrec.nextSnapshotId ▸ hlt, hresolves R hR hres⟩ }
    · exact hrec.snapshots ▸ hid
    · have hR := (h.pinned id R hid).1
      exact { value := hvalue R hR
              committed := fun k => hrec.committed R k (lt_of_le_of_lt hR habove) }
  · cases hs

theorem Inv.record (h : s.Inv decodeStored) (hs : s.record decodeStored = some s') :
    s'.Inv decodeStored := by
  obtain ⟨hcore, hreaders, hanswers, hvisible, hvalue, hkeep⟩ := h.core.record hs
  exact h.pipeline hcore hreaders hanswers hvisible.ge hvalue hkeep

/-- The row a commit is about to apply is recorded, or is what the tree holds. -/
theorem CoreOk.recorded_or_same (h : s.CoreOk decodeStored) (hkept : s.historyKept = true)
    {recorded : List TKey} {w : Write} {pending : List Write}
    (hi : s.installing = some ⟨c, recorded, .applying (w :: pending)⟩) :
    s.visibleEpoch < s.versions.committedEpoch w.1 ∨ s.trees[w.1]? = w.2 := by
  have hphase := h.phase
  unfold PhaseOk at hphase
  rw [hi] at hphase
  obtain ⟨done, hdone, hhalf, hrec⟩ := hphase
  rcases hrec w (by simp [hdone]) with hin | heq
  · left
    rw [historyKept_iff.mp hkept c recorded _ hi w.1 hin]
    exact hhalf.above
  · right
    rw [heq, hhalf.tree w.1, lookup_eq_none_of_nodup (hdone ▸ c.batch.nodup)]
    rfl

theorem CoreOk.apply (h : s.CoreOk decodeStored) (hs : s.apply = some s') :
    s'.CoreOk decodeStored ∧ s'.readers = s.readers ∧ s'.answers = s.answers ∧
      s'.visibleEpoch = s.visibleEpoch ∧ (∀ R k, s'.value R k = s.value R k) ∧
      s'.versions = s.versions := by
  unfold Engine.apply at hs
  split at hs
  · next c recorded w pending hi =>
    cases hs
    have hresolves : ∀ R ≤ s.visibleEpoch, s.historyKept = true →
        s.ResolvesAt decodeStored R → ∀ k,
        Resolves decodeStored (applyWrite s.trees w) s.versions R k (s.value R k) := by
      intro R hR hkept hres k
      refine (hres k).applyWrite ?_
      rcases h.recorded_or_same hkept hi with hlt | hsame
      · exact .inl (lt_of_le_of_lt hR hlt)
      · exact .inr hsame
    have hkept_eq : ({ s with
        trees := applyWrite s.trees w
        installing := some ⟨c, recorded, .applying pending⟩ } : Engine Row E).historyKept =
        s.historyKept := by
      rw [historyKept, historyKept, hi]
    refine ⟨?_, rfl, rfl, rfl, fun _ _ => rfl, rfl⟩
    exact
      { ordered := h.ordered
        bounded := by
          have := h.bounded
          rwa [lastRecorded, hi] at this
        queue := h.queue
        queue_above := by
          have := h.queue_above
          rwa [lastRecorded, hi] at this
        recorded_lt := by
          have := h.recorded_lt
          rwa [lastRecorded, hi] at this
        phase := by
          have hphase := h.phase
          unfold PhaseOk at hphase
          rw [hi] at hphase
          obtain ⟨done, hdone, hhalf, hrec⟩ := hphase
          refine ⟨done ++ [w], by simp [hdone], ?_, hrec⟩
          refine { log := hhalf.log, above := hhalf.above, tree := fun k => ?_ }
          rw [getElem?_applyWrite, List.lookup_append]
          split
          · next hk =>
            subst hk
            rw [lookup_eq_none_of_nodup (hdone ▸ c.batch.nodup)]
            rw [Option.none_or, show List.lookup w.1 [w] = some w.2 from List.lookup_cons_self]
            rfl
          · next hk =>
            have hne : (k == w.1) = false := by simpa using fun h => hk h.symm
            obtain ⟨k', row⟩ := w
            simp only [List.lookup_cons, List.lookup_nil, hne, Option.or_none]
            exact hhalf.tree k
        kept := fun id R hid => hkept_eq.trans (h.kept id R hid)
        current := fun hkept =>
          have hold : s.historyKept = true := hkept_eq.symm.trans hkept
          hresolves _ le_rfl hold (h.current hold)
        pinned := fun id R hid =>
          have hpin := h.pinned id R hid
          ⟨hpin.1, hpin.2.1, hresolves R hpin.1 (h.kept id R hid) hpin.2.2⟩ }
  · cases hs

theorem Inv.apply (h : s.Inv decodeStored) (hs : s.apply = some s') : s'.Inv decodeStored := by
  obtain ⟨hcore, hreaders, hanswers, hvisible, hvalue, hvs⟩ := h.core.apply hs
  refine h.pipeline hcore hreaders hanswers hvisible.ge (fun R _ => hvalue R) fun id R hid => ?_
  exact ⟨hvs ▸ hid, { value := hvalue R, committed := fun k hk => hvs ▸ hk }⟩

/-- Publishing: the rows of the trees are those of the published epoch. -/
theorem HalfInstalled.settled {base : Trees} {log : List Commit} {visible : Nat} {trees : Trees}
    (h : HalfInstalled log visible trees (asOf base log visible) c c.batch.writes) :
    Settled log c.epoch trees (asOf base log c.epoch) := by
  obtain ⟨older, rfl, holder⟩ := h.log
  constructor
  · intro c' hc'
    rcases List.mem_append.mp hc' with hc' | hc'
    · exact (holder c' hc').trans h.above.le
    · rw [List.mem_singleton.mp hc']
  · intro k
    rw [h.tree k, asOf_append_of_lt h.above, asOf_append_of_le le_rfl]
    congr 1
    refine asOf_congr fun c' hc' => ?_
    have := holder c' hc'
    have := h.above
    omega

theorem CoreOk.publish (h : s.CoreOk decodeStored) (hs : s.publish = some s') :
    s'.CoreOk decodeStored ∧ s'.readers = s.readers ∧ s'.answers = s.answers ∧
      s.visibleEpoch ≤ s'.visibleEpoch ∧ (∀ R k, s'.value R k = s.value R k) ∧
      s'.versions = s.versions := by
  unfold Engine.publish at hs
  split at hs
  · next c recorded hi =>
    cases hs
    have hphase := h.phase
    unfold PhaseOk at hphase
    rw [hi] at hphase
    obtain ⟨done, hdone, hhalf, -⟩ := hphase
    rw [List.append_nil] at hdone
    subst hdone
    have hsettled : Settled s.log c.epoch s.trees (asOf s.base s.log c.epoch) :=
      HalfInstalled.settled hhalf
    have hbounded : s.versions.Bounded c.epoch := by
      have := h.bounded
      rwa [lastRecorded, hi] at this
    refine ⟨?_, rfl, rfl, hhalf.above.le, fun _ _ => rfl, rfl⟩
    exact
      { ordered := h.ordered
        bounded := hbounded
        queue := h.queue
        queue_above := by
          have := h.queue_above
          rwa [lastRecorded, hi] at this
        recorded_lt := by
          have := h.recorded_lt
          rwa [lastRecorded, hi] at this
        phase := ⟨hsettled, rfl⟩
        kept := fun _ _ _ => rfl
        current := fun _ k =>
          { tree := fun _ => ⟨hsettled.tree k, hbounded.chainAt_eq_none k⟩
            chain := fun hlt => absurd hlt (not_lt.mpr (hbounded.committed k)) }
        pinned := fun id R hid =>
          have hpin := h.pinned id R hid
          ⟨hpin.1.trans hhalf.above.le, hpin.2.1, hpin.2.2⟩ }
  · cases hs

theorem Inv.publish (h : s.Inv decodeStored) (hs : s.publish = some s') : s'.Inv decodeStored := by
  obtain ⟨hcore, hreaders, hanswers, hvisible, hvalue, hvs⟩ := h.core.publish hs
  refine h.pipeline hcore hreaders hanswers hvisible (fun R _ => hvalue R) fun id R hid => ?_
  exact ⟨hvs ▸ hid, { value := hvalue R, committed := fun k hk => hvs ▸ hk }⟩

/-- The frontier moves on. -/
theorem CoreOk.release (h : s.CoreOk decodeStored) {recorded : List TKey}
    (hi : s.installing = some ⟨c, recorded, .published⟩) :
    ({ s with installing := none } : Engine Row E).CoreOk decodeStored := by
  have hphase := h.phase
  unfold PhaseOk at hphase
  rw [hi] at hphase
  obtain ⟨hsettled, hepoch⟩ := hphase
  have hlast : s.lastRecorded = s.visibleEpoch := by rw [lastRecorded, hi]; exact hepoch
  exact
    { ordered := h.ordered
      bounded := hlast ▸ h.bounded
      queue := h.queue
      queue_above := hlast ▸ h.queue_above
      recorded_lt := hlast ▸ h.recorded_lt
      phase := hsettled
      kept := fun _ _ _ => rfl
      current := fun _ => h.current (by rw [historyKept, hi])
      pinned := h.pinned }

theorem Inv.finish (h : s.Inv decodeStored) (hs : s.finish = some s') : s'.Inv decodeStored := by
  unfold Engine.finish at hs
  split at hs
  · next c recorded hi =>
    cases hs
    refine h.pipeline (h.core.release hi).gc rfl rfl le_rfl (fun _ _ _ => rfl) fun id R hid => ?_
    exact ⟨by simpa using hid, { value := fun _ => rfl, committed := (Keeps.gc hid).committed }⟩
  · cases hs

end Engine

end HenchDB.Mvcc
