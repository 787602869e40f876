import HenchDB.Commit.Invariant

/-!
# Checkpoints in an idle window lose no commit

A checkpoint reads every key once, unless a row is moved behind its scan; what it
has read is right for the snapshot if redo brings it up to date, and right for a
truncation if no commit changed the row behind the scan.  The truncation moves the
whole log to the rows before the log; in an idle window the snapshot has all of it.

A commit in flight gets its turn because the commits before it can all go on to
their ends (`Inv.reach_start`), as long as their installs end.
-/

namespace HenchDB.Commit

open Std (ExtTreeMap)
open Transition (Ends)

namespace Engine

variable {s s' : Engine} {settled : List Logged} {f : Flight} {i : Nat} {k : TKey}

/-! ## Steps of a checkpoint -/

variable {snapshot : Trees} {upTo : Option Bytes} {g : Flight} {rest : List Flight}

/-- A step of a checkpoint that leaves the log alone. -/
theorem Core.setCkpt {ckpt : Option Ckpt} {stale moved : Bool} (h : s.Core settled)
    (hs : s' = { s with ckpt := ckpt, stale := stale, moved := moved, snapshot := snapshot })
    (hold : s.ckpt ≠ some .truncated) (hnew : s'.ckpt ≠ some .truncated) : s'.Core settled := by
  subst hs
  exact
    { wal := h.wal
      settled_durable := h.settled_durable
      durable_le := h.durable_le
      chain := fun _ => h.chain hold
      idle := fun hck => absurd hck hnew
      waited := h.waited
      installing := h.installing
      trees := h.trees }

theorem Inv.setCkpt {ckpt : Option Ckpt} {stale moved : Bool} (h : s.Inv settled)
    (hs : s' = { s with ckpt := ckpt, stale := stale, moved := moved, snapshot := snapshot })
    (hold : s.ckpt ≠ some .truncated) (hnew : s'.ckpt ≠ some .truncated)
    (hsnapshot : ∀ k : TKey, lastWrite s.durableWrites k = none → s'.snapshot[k]? = s.beforeLog[k]?)
    (hck : ∀ c, s'.ckpt = some c → s'.CkptOk c) : s'.Inv settled := by
  have hcore := h.core.setCkpt hs hold hnew
  subst hs
  exact
    { hcore with
      acked := h.acked
      txns := h.txns
      snapshot := hsnapshot
      known := h.known
      flights_known := h.flights_known
      ckpt := hck }

theorem Inv.beginCheckpoint {todo : List String} (h : s.Inv settled)
    (hs : s.beginCheckpoint todo = some s') : s'.Inv settled := by
  unfold Engine.beginCheckpoint at hs
  split at hs
  · next hguard =>
    obtain ⟨hnone, hnodup, hall⟩ := hguard
    rw [Option.isNone_iff_eq_none] at hnone
    have heq := (Option.some.inj hs).symm
    refine h.setCkpt heq (by simp [hnone]) (by simp [heq]) (by rw [heq]; exact h.snapshot) ?_
    intro c hc
    rw [heq] at hc
    cases hc
    refine ⟨hnodup, fun _ k => ⟨fun hk => ?_, fun _ => by simp⟩⟩
    -- At the beginning only the keys of no table count as scanned.
    have hout : k.1 ∉ s.tables := by
      intro hmem
      rw [heq] at hk
      have hin := hall k.1 hmem
      simp [scanned, hin] at hk
    have hgone : s.trees[k]? = none := by
      rcases Option.eq_none_or_eq_some s.trees[k]? with hk' | ⟨raw, hk'⟩
      · exact hk'
      · exact absurd (h.known k raw hk') hout
    refine { redo := fun hlast => ?_, fresh := fun _ => ?_ }
    · rw [heq] at hlast
      have := h.trees_of_untouched hlast
      rw [heq]
      simp only [ExtTreeMap.getElem?_empty]
      rw [← hgone]
      exact this
    · rw [heq]
      simp [hgone]
  · cases hs

/-- The place of a key is in the leaf that is read. -/
def inLeaf (table : String) (cursor : Bytes) (upTo : Option Bytes) (k : TKey) : Prop :=
  k.1 = table ∧ cursor ≤ k.2 ∧ ∀ b ∈ upTo, k.2 < b

theorem getElem?_insertMany_leafRows {trees image : Trees} {table : String} {cursor : Bytes}
    (hnew : inLeaf table cursor upTo k → image[k]? = none) :
    (inLeaf table cursor upTo k →
      (image.insertMany (leafRows trees table cursor upTo))[k]? = trees[k]?) ∧
    (¬ inLeaf table cursor upTo k →
      (image.insertMany (leafRows trees table cursor upTo))[k]? = image[k]?) := by
  -- A key without a row in the leaf is left alone.
  have hout : (∀ raw, (k, raw) ∉ leafRows trees table cursor upTo) →
      (image.insertMany (leafRows trees table cursor upTo))[k]? = image[k]? := by
    intro hno
    refine ExtTreeMap.getElem?_insertMany_list_of_contains_eq_false ?_
    rw [← Bool.not_eq_true, List.contains_iff_mem]
    intro hmem
    obtain ⟨⟨k', raw⟩, hraw, rfl⟩ := List.mem_map.mp hmem
    exact hno raw hraw
  refine ⟨fun hin => ?_, fun hin => hout fun raw hraw => hin (mem_leafRows.mp hraw).2⟩
  rcases Option.eq_none_or_eq_some trees[k]? with hk | ⟨raw, hk⟩
  · rw [hk, hout, hnew hin]
    intro raw hraw
    rw [(mem_leafRows.mp hraw).1] at hk
    cases hk
  · rw [hk]
    refine ExtTreeMap.getElem?_insertMany_list_of_mem Std.ReflCmp.compare_self ?_
      (mem_leafRows.mpr ⟨hk, hin⟩)
    exact List.Pairwise.filter _ ExtTreeMap.distinct_keys_toList

/-- Reading a leaf marks its keys, and no others, as scanned. -/
theorem scanned_scanLeaf {table : String} {todo : List String} {cursor : Bytes} {image : Trees}
    (hck : s.ckpt = some (.scanning (table :: todo) cursor image)) (hnodup : (table :: todo).Nodup)
    {missed : List Bytes} (hs : s.scanLeaf upTo missed = some s') :
    ∃ todo' cursor', todo'.Nodup ∧
      s' = { s with
        ckpt := some (.scanning todo' cursor' (image.insertMany
          ((leafRows s.trees table cursor upTo).filter fun r => !missed.contains r.1.2)))
        moved := s.moved || (leafRows s.trees table cursor upTo).any fun r => missed.contains r.1.2 } ∧
      (∀ k, s'.scanned k = true ↔ s.scanned k = true ∨ inLeaf table cursor upTo k) ∧
      ∀ k, s.scanned k = true → ¬ inLeaf table cursor upTo k := by
  have hold : ∀ k : TKey, s.scanned k = true ↔
      k.1 ∉ table :: todo ∨ k.1 = table ∧ k.2 < cursor := by
    intro k
    simp [scanned, hck, eq_comm (a := table) (b := k.1)]
  have hdisjoint : ∀ k, s.scanned k = true → ¬ inLeaf table cursor upTo k := by
    intro k hk hin
    rcases (hold k).mp hk with hk | hk
    · exact hk (by simp [hin.1])
    · exact absurd hk.2 (not_lt.mpr hin.2.1)
  unfold scanLeaf at hs
  rw [hck] at hs
  cases upTo with
  | some b =>
    simp only at hs
    split at hs
    · next hb =>
      have heq := (Option.some.inj hs).symm
      refine ⟨table :: todo, b, hnodup, heq, fun k => ?_, hdisjoint⟩
      have hnew : s'.scanned k = true ↔ k.1 ∉ table :: todo ∨ k.1 = table ∧ k.2 < b := by
        simp [heq, scanned, eq_comm (a := table) (b := k.1)]
      rw [hnew, hold]
      unfold inLeaf
      constructor
      · rintro (hk | hk)
        · exact Or.inl (Or.inl hk)
        · rcases lt_or_ge k.2 cursor with hlt | hge
          · exact Or.inl (Or.inr ⟨hk.1, hlt⟩)
          · exact Or.inr ⟨hk.1, hge, by simpa using hk.2⟩
      · rintro ((hk | hk) | hk)
        · exact Or.inl hk
        · exact Or.inr ⟨hk.1, lt_of_lt_of_le hk.2 hb⟩
        · exact Or.inr ⟨hk.1, hk.2.2 b rfl⟩
    · cases hs
  | none =>
    have heq := (Option.some.inj hs).symm
    refine ⟨todo, [], (List.nodup_cons.mp hnodup).2, heq, fun k => ?_, hdisjoint⟩
    have hnew : s'.scanned k = true ↔ k.1 ∉ todo := by
      simp [heq, scanned]
    rw [hnew, hold]
    unfold inLeaf
    constructor
    · intro hk
      rcases eq_or_ne k.1 table with htab | htab
      · rcases lt_or_ge k.2 cursor with hlt | hge
        · exact Or.inl (Or.inr ⟨htab, hlt⟩)
        · exact Or.inr ⟨htab, hge, by simp⟩
      · exact Or.inl (Or.inl (by simp [htab, hk]))
    · rintro ((hk | hk) | hk) hmem
      · exact hk (by simp [hmem])
      · exact (List.nodup_cons.mp hnodup).1 (hk.1 ▸ hmem)
      · exact (List.nodup_cons.mp hnodup).1 (hk.1 ▸ hmem)

theorem Inv.scanLeaf {missed : List Bytes} (h : s.Inv settled) (hs : s.scanLeaf upTo missed = some s') :
    s'.Inv settled := by
  obtain ⟨table, todo, cursor, image, hck⟩ : ∃ table todo cursor image,
      s.ckpt = some (.scanning (table :: todo) cursor image) := by
    unfold Engine.scanLeaf at hs
    split at hs
    · next table todo cursor image hck => exact ⟨table, todo, cursor, image, hck⟩
    · cases hs
  obtain ⟨hnodup, hstill⟩ := h.ckpt _ hck
  obtain ⟨todo', cursor', hnodup', heq, hscanned, hdisjoint⟩ := scanned_scanLeaf hck hnodup hs
  refine h.setCkpt heq (by simp [hck]) (by simp [heq]) (by rw [heq]; exact h.snapshot) ?_
  intro c hc
  rw [heq] at hc
  cases hc
  have hrows : s'.trees = s.trees ∧ s'.beforeLog = s.beforeLog ∧
      s'.durableWrites = s.durableWrites ∧ s'.stale = s.stale := by
    rw [heq]
    exact ⟨rfl, rfl, rfl, rfl⟩
  obtain ⟨htrees, hbefore, hwrites, hstale⟩ := hrows
  refine ⟨hnodup', fun hmoved => ?_⟩
  -- Without a row that is missed the whole leaf is read.
  rw [heq, Bool.or_eq_false_iff, List.any_eq_false] at hmoved
  have hread := hstill hmoved.1
  rw [List.filter_eq_self.mpr fun r hr => by simpa using hmoved.2 r hr]
  have hlookup : ∀ k : TKey,
      (inLeaf table cursor upTo k →
        (image.insertMany (leafRows s.trees table cursor upTo))[k]? = s.trees[k]?) ∧
      (¬ inLeaf table cursor upTo k →
        (image.insertMany (leafRows s.trees table cursor upTo))[k]? = image[k]?) :=
    fun k => getElem?_insertMany_leafRows fun hin => (hread k).2 (by
      rw [← Bool.not_eq_true]
      exact fun hk => hdisjoint k hk hin)
  refine fun k => ⟨fun hk => ?_, fun hk => ?_⟩
  · rcases (hscanned k).mp hk with hk | hin
    · have hsame := (hlookup k).2 (hdisjoint k hk)
      have hr := (hread k).1 hk
      refine { redo := ?_, fresh := ?_ }
      · rw [hsame, hwrites, hbefore]
        exact hr.redo
      · rw [hsame, hstale, htrees]
        exact hr.fresh
    · have hsame := (hlookup k).1 hin
      refine { redo := ?_, fresh := ?_ }
      · rw [hsame, hwrites, hbefore]
        exact h.trees_of_untouched
      · rw [hsame, htrees]
        exact fun _ => rfl
  · have hno : ¬ (s.scanned k = true ∨ inLeaf table cursor upTo k) := by
      rw [← hscanned k, hk]
      simp
    rw [(hlookup k).2 fun hin => hno (Or.inr hin)]
    refine (hread k).2 ?_
    rw [← Bool.not_eq_true]
    exact fun hk => hno (Or.inl hk)

theorem Inv.writeSnapshot (h : s.Inv settled) (hs : s.writeSnapshot = some s') :
    s'.Inv settled := by
  unfold Engine.writeSnapshot at hs
  split at hs
  · next cursor image hck =>
    have heq := (Option.some.inj hs).symm
    obtain ⟨-, hread⟩ := h.ckpt _ hck
    refine h.setCkpt heq (by simp [hck]) (by simp [heq]) (by rw [heq]; exact h.snapshot) ?_
    intro c hc
    rw [heq] at hc
    cases hc
    intro hstill k
    rw [heq] at hstill
    have hr := (hread hstill k).1 (by simp [scanned, hck])
    rw [heq]
    exact { redo := hr.redo, fresh := hr.fresh }
  · cases hs

theorem Inv.rename (h : s.Inv settled) (hs : s.rename = some s') (hmoved : s.moved = false) :
    s'.Inv settled := by
  unfold Engine.rename at hs
  split at hs
  · next image hck =>
    have heq := (Option.some.inj hs).symm
    have hread : ∀ k : TKey, s.ReadOk image k := h.ckpt _ hck hmoved
    refine h.setCkpt heq (by simp [hck]) (by simp [heq]) ?_ ?_
    · rw [heq]
      exact fun k => (hread k).redo
    · intro c hc
      rw [heq] at hc
      cases hc
      rw [heq]
      exact fun hst k => (hread k).fresh hst
  · cases hs

theorem Inv.abortCheckpoint (h : s.Inv settled) (hs : s.abortCheckpoint = some s') :
    s'.Inv settled := by
  have hcases : s.ckpt ≠ some .truncated ∧ s' = { s with ckpt := none } := by
    unfold Engine.abortCheckpoint at hs
    split at hs
    · next hck => exact ⟨by simp [hck], (Option.some.inj hs).symm⟩
    · next hck => exact ⟨by simp [hck], (Option.some.inj hs).symm⟩
    · next hck => exact ⟨by simp [hck], (Option.some.inj hs).symm⟩
    · cases hs
  obtain ⟨hck, heq⟩ := hcases
  refine h.setCkpt heq hck (by simp [heq]) (by rw [heq]; exact h.snapshot) ?_
  intro c hc
  rw [heq] at hc
  cases hc

theorem Inv.endCheckpoint (h : s.Inv settled) (hs : s.endCheckpoint = some s') :
    s'.Inv settled := by
  unfold Engine.endCheckpoint at hs
  split at hs
  · next hck =>
    have heq := (Option.some.inj hs).symm
    refine h.setCkpt heq (by simp [hck]) (by simp [heq]) (by rw [heq]; exact h.snapshot) ?_
    intro c hc
    rw [heq] at hc
    cases hc
  · cases hs

/-- A step of a checkpoint that leaves the log alone. -/
def Beside (s s' : Engine) : Prop :=
  ∃ ckpt stale moved snapshot,
    s' = { s with ckpt := ckpt, stale := stale, moved := moved, snapshot := snapshot } ∧
      s.ckpt ≠ some .truncated ∧ s'.ckpt ≠ some .truncated

theorem beginCheckpoint_beside {todo : List String} (hs : s.beginCheckpoint todo = some s') :
    s.Beside s' := by
  unfold Engine.beginCheckpoint at hs
  split at hs
  · next hguard =>
    cases hs
    rw [Option.isNone_iff_eq_none] at hguard
    exact ⟨_, _, _, _, rfl, by simp [hguard.1], by simp⟩
  · cases hs

theorem scanLeaf_beside {missed : List Bytes} (hs : s.scanLeaf upTo missed = some s') : s.Beside s' := by
  unfold Engine.scanLeaf at hs
  split at hs
  · next hck =>
    dsimp only at hs
    split at hs
    · split at hs
      · cases hs
        exact ⟨_, _, _, _, rfl, by simp [hck], by simp⟩
      · cases hs
    · cases hs
      exact ⟨_, _, _, _, rfl, by simp [hck], by simp⟩
  · cases hs

theorem writeSnapshot_beside (hs : s.writeSnapshot = some s') : s.Beside s' := by
  unfold Engine.writeSnapshot at hs
  split at hs
  · next hck =>
    cases hs
    exact ⟨_, _, _, _, rfl, by simp [hck], by simp⟩
  · cases hs

theorem rename_beside (hs : s.rename = some s') : s.Beside s' := by
  unfold Engine.rename at hs
  split at hs
  · next hck =>
    cases hs
    exact ⟨_, _, _, _, rfl, by simp [hck], by simp⟩
  · cases hs

theorem abortCheckpoint_beside (hs : s.abortCheckpoint = some s') : s.Beside s' := by
  unfold Engine.abortCheckpoint at hs
  split at hs
  case h_4 => cases hs
  all_goals
    next hck =>
      cases hs
      exact ⟨_, _, _, _, rfl, by simp [hck], by simp⟩

theorem endCheckpoint_beside (hs : s.endCheckpoint = some s') : s.Beside s' := by
  unfold Engine.endCheckpoint at hs
  split at hs
  · next hck =>
    cases hs
    exact ⟨_, _, _, _, rfl, by simp [hck], by simp⟩
  · cases hs

/-- Without commits in flight the rows are those of the whole history. -/
theorem Core.trees_idle (h : s.Core settled) (hfl : s.flights = []) :
    s.trees = replay s.base s.history.flatten := by
  have hwal : s.wal = settled := by rw [h.wal, hfl, List.map_nil, List.append_nil]
  have hrows : s.appliedRows = [] := by rw [appliedRows, hfl]
  rw [h.trees, hrows, List.append_nil, history, hwal, List.flatten_append, replay_append,
    ← List.flatMap_def]
  rfl

theorem reset_spec (hs : s.reset = some s') :
    s.ckpt = some .renamed ∧ s' = { s with
      wal := []
      written := headerLen
      durable := headerLen
      before := s.history
      ckpt := some .truncated } := by
  unfold Engine.reset at hs
  split at hs
  · next hck => exact ⟨hck, (Option.some.inj hs).symm⟩
  · cases hs

/-- The truncation with no commit in flight. -/
theorem Core.reset (h : s.Core settled) (hs : s.reset = some s') (hfl : s.flights = []) :
    s'.Core [] := by
  obtain ⟨-, rfl⟩ := reset_spec hs
  exact
    { wal := by rw [hfl]; rfl
      settled_durable := by simp
      durable_le := le_rfl
      chain := fun hck' => absurd rfl hck'
      idle := fun _ => hfl
      waited := by
        rw [show _ = [] from hfl]
        simp
      installing := by
        intro i f done pending hf
        rw [show _ = [] from hfl] at hf
        cases hf
      trees := by
        have hrows : s.appliedRows = [] := by rw [appliedRows, hfl]
        show s.trees = replay (replay s.base s.history.flatten) (_ ++ s.appliedRows)
        rw [hrows]
        exact h.trees_idle hfl }

theorem Inv.reset (h : s.Inv settled) (hs : s.reset = some s') (hidle : s.idle = true) :
    s'.Inv [] := by
  rw [Engine.idle, Bool.and_eq_true, List.isEmpty_iff, Bool.not_eq_true'] at hidle
  obtain ⟨hfl, hstale⟩ := hidle
  have hcore := h.core.reset hs hfl
  obtain ⟨hck, rfl⟩ := reset_spec hs
  have hwal : s.wal = settled := by rw [h.wal, hfl, List.map_nil, List.append_nil]
  have hsnapshot : ∀ k : TKey, s.snapshot[k]? = s.trees[k]? := h.ckpt _ hck hstale
  exact
    { hcore with
      acked := by
        intro txn htxn
        have := h.acked txn htxn
        show txn < s.history.length + _
        rw [history, hwal, List.length_append, List.length_map]
        simpa using this
      txns := by
        intro i f hf
        rw [show _ = [] from hfl] at hf
        cases hf
      snapshot := by
        intro k _
        show s.snapshot[k]? = (replay s.base s.history.flatten)[k]?
        rw [hsnapshot k, h.core.trees_idle hfl]
      known := h.known
      flights_known := by
        rw [show _ = [] from hfl]
        simp
      ckpt := by
        intro c hc
        cases hc
        trivial }

theorem rebase_spec (hs : s.rebase = some s') :
    s.ckpt = some .truncated ∧ s' = { s with frontier := s.written, ckpt := some .rebased } := by
  unfold Engine.rebase at hs
  split at hs
  · next hck =>
    split at hs
    · cases hs
    · exact ⟨hck, (Option.some.inj hs).symm⟩
  · cases hs

theorem Core.rebase (h : s.Core settled) (hs : s.rebase = some s') : s'.Core settled := by
  obtain ⟨hck, rfl⟩ := rebase_spec hs
  have hfl := h.idle hck
  exact
    { wal := h.wal
      settled_durable := h.settled_durable
      durable_le := h.durable_le
      chain := by
        intro _
        rw [hfl]
        rfl
      idle := fun _ => hfl
      waited := h.waited
      installing := h.installing
      trees := h.trees }

theorem Inv.rebase (h : s.Inv settled) (hs : s.rebase = some s') : s'.Inv settled := by
  have hcore := h.core.rebase hs
  obtain ⟨-, rfl⟩ := rebase_spec hs
  exact
    { hcore with
      acked := h.acked
      txns := h.txns
      snapshot := h.snapshot
      known := h.known
      flights_known := h.flights_known
      ckpt := by
        intro c hc
        cases hc
        trivial }

/-! ## Runs -/

/-- What `Database::open` finds: entries below the end of the log, rows of the
tables in the catalog. -/
structure Opened (tables : List String) (snapshot : Trees) (wal : List Logged) (len : Nat) :
    Prop where
  /-- The log ends at `len`. -/
  fin_le : ∀ e ∈ wal, e.fin ≤ len
  /-- Redo leaves rows of the tables only. -/
  known : ∀ (k : TKey) raw,
    (replay snapshot (wal.flatMap Logged.writes))[k]? = some raw → k.1 ∈ tables

theorem inv_start {tables : List String} {wal : List Logged} {len : Nat}
    (h : Opened tables snapshot wal len) : (start tables snapshot wal len).Inv wal where
  wal := (List.append_nil _).symm
  settled_durable := h.fin_le
  acked := by simp [start]
  txns := by simp [start]
  durable_le := le_rfl
  chain := fun _ => rfl
  idle := by simp [start]
  waited := by simp [start]
  installing := by simp [start]
  trees := by
    show replay snapshot _ = replay snapshot (_ ++ [])
    rw [List.append_nil]
  snapshot := fun _ _ => rfl
  known := h.known
  flights_known := by simp [start]
  ckpt := by simp [start]

/-! ## Installs that end -/

variable {hangs : List Write → Write → Bool} {writes : List Write}

/-- The commits in flight have writes whose installs end. -/
def AllEnd (hangs : List Write → Write → Bool) (s : Engine) : Prop :=
  ∀ f ∈ s.flights, Ends hangs (s.history.take f.txn).flatten f.writes

theorem Inv.txn_lt (h : s.Inv settled) (hf : f ∈ s.flights) : f.txn < s.history.length := by
  obtain ⟨i, hi⟩ := List.mem_iff_getElem?.mp hf
  have hlt := (List.getElem?_eq_some_iff.mp hi).1
  rw [h.txns i f hi, history, h.wal]
  simp only [List.length_append, List.length_map]
  omega

/-- Nothing is appended, and the commits in flight are some of those from before. -/
theorem AllEnd.keeps (h : s.AllEnd hangs) (hhistory : s'.history = s.history)
    (hflights : ∀ f ∈ s'.flights, ∃ g ∈ s.flights, f.txn = g.txn ∧ f.writes = g.writes) :
    s'.AllEnd hangs := by
  intro f hf
  obtain ⟨g, hg, htxn, hwrites⟩ := hflights f hf
  rw [hhistory, htxn, hwrites]
  exact h g hg

theorem AllEnd.append {len : Nat} (h : s.AllEnd hangs) (hinv : s.Inv settled)
    (hs : s.append writes len = some s') (hends : Ends hangs s.history.flatten writes) :
    s'.AllEnd hangs := by
  unfold Engine.append at hs
  split at hs
  · have heq := (Option.some.inj hs).symm
    have hhistory : s'.history = s.history ++ [writes] := by
      rw [heq]
      simp [history, Flight.logged]
    intro f hf
    rw [heq] at hf
    rcases List.mem_append.mp hf with hf | hf
    · rw [hhistory, List.take_append_of_le_length (hinv.txn_lt hf).le]
      exact h f hf
    · cases List.mem_singleton.mp hf
      rw [hhistory, List.take_append_of_le_length le_rfl, List.take_length]
      exact hends
  · cases hs

theorem AllEnd.setPhase {phase : FlightPhase} {trees : Trees} {stale : Bool} (h : s.AllEnd hangs)
    (hf : s.flights[i]? = some f) :
    AllEnd hangs { s.setPhase i f phase with trees := trees, stale := stale } := by
  refine h.keeps rfl fun g hg => ?_
  rcases mem_flights_setPhase hg with hg | rfl
  · exact ⟨g, hg, rfl, rfl⟩
  · exact ⟨f, List.mem_of_getElem? hf, rfl, rfl⟩

theorem AllEnd.beside (h : s.AllEnd hangs) (hs : s.Beside s') : s'.AllEnd hangs := by
  obtain ⟨ckpt, stale, moved, snapshot, rfl, -, -⟩ := hs
  exact h

theorem AllEnd.step {a : Action} (h : s.AllEnd hangs) (hinv : s.Inv settled) (hs : s.step a = some s')
    (hends : ∀ writes len, a = .append writes len → Ends hangs s.history.flatten writes) :
    s'.AllEnd hangs := by
  cases a with
  | append writes len => exact h.append hinv hs (hends writes len rfl)
  | sync upTo =>
    simp only [Engine.step, Engine.sync] at hs
    split at hs
    · cases hs
      exact h
    · cases hs
  | wait i =>
    obtain ⟨f, hf, -, -, rfl⟩ := wait_spec hs
    exact h.setPhase hf
  | enter i =>
    obtain ⟨f, hf, -, -, rfl⟩ := enter_spec hs
    exact h.setPhase hf
  | apply i =>
    obtain ⟨f, done, w, pending, hf, -, rfl⟩ := apply_spec hs
    exact h.setPhase hf
  | finish i =>
    obtain ⟨f, done, -, -, rfl⟩ := finish_spec hs
    exact h.keeps rfl fun g hg => ⟨g, List.mem_of_mem_eraseIdx hg, rfl, rfl⟩
  | beginCheckpoint todo => exact h.beside (beginCheckpoint_beside hs)
  | scanLeaf upTo missed => exact h.beside (scanLeaf_beside hs)
  | writeSnapshot => exact h.beside (writeSnapshot_beside hs)
  | rename => exact h.beside (rename_beside hs)
  | reset =>
    obtain ⟨-, rfl⟩ := reset_spec hs
    exact h.keeps (List.append_nil _) fun g hg => ⟨g, hg, rfl, rfl⟩
  | rebase =>
    obtain ⟨-, rfl⟩ := rebase_spec hs
    exact h
  | abortCheckpoint => exact h.beside (abortCheckpoint_beside hs)
  | endCheckpoint => exact h.beside (endCheckpoint_beside hs)

/-- Every step but the truncation keeps the invariant, and so does a
truncation in an idle window. -/
theorem Inv.step (h : s.Inv settled) (hs : s.SparingStep hangs s') : ∃ settled', s'.Inv settled' := by
  obtain ⟨a, hs, -, hrename, hreset⟩ := hs
  cases a with
  | append writes len => exact ⟨settled, h.append hs⟩
  | sync upTo => exact ⟨settled, h.sync hs⟩
  | wait i => exact ⟨settled, h.wait hs⟩
  | enter i => exact ⟨settled, h.enter hs⟩
  | apply i => exact ⟨settled, h.apply hs⟩
  | finish i => exact h.finish hs
  | beginCheckpoint todo => exact ⟨settled, h.beginCheckpoint hs⟩
  | scanLeaf upTo missed => exact ⟨settled, h.scanLeaf hs⟩
  | writeSnapshot => exact ⟨settled, h.writeSnapshot hs⟩
  | rename => exact ⟨settled, h.rename hs (hrename rfl)⟩
  | reset => exact ⟨[], h.reset hs (hreset rfl)⟩
  | rebase => exact ⟨settled, h.rebase hs⟩
  | abortCheckpoint => exact ⟨settled, h.abortCheckpoint hs⟩
  | endCheckpoint => exact ⟨settled, h.endCheckpoint hs⟩

/-! ## Every commit in flight gets its turn -/

open Relation

abbrev CanReach (hangs : List Write → Write → Bool) : Engine → Engine → Prop :=
  ReflTransGen (CommitterStep hangs)

/-- A step of a commit in flight or of the syncer. -/
theorem CommitterStep.keeps (h : s.Inv settled) (hends : s.AllEnd hangs) (hs : s.CommitterStep hangs s') :
    (∃ settled', s'.Inv settled') ∧ s'.AllEnd hangs := by
  obtain ⟨i, hs | hs | hs | hs | ⟨hs, -⟩⟩ := hs
  · exact ⟨⟨settled, h.sync hs⟩, hends.step (a := .sync i) h hs nofun⟩
  · exact ⟨⟨settled, h.wait hs⟩, hends.step (a := .wait i) h hs nofun⟩
  · exact ⟨⟨settled, h.enter hs⟩, hends.step (a := .enter i) h hs nofun⟩
  · exact ⟨h.finish hs, hends.step (a := .finish i) h hs nofun⟩
  · exact ⟨⟨settled, h.apply hs⟩, hends.step (a := .apply i) h hs nofun⟩

theorem setPhase_flights {phase : FlightPhase} (hfl : s.flights = g :: rest) :
    (s.setPhase 0 g phase).flights = { g with phase := phase } :: rest := by
  rw [Engine.setPhase, hfl]
  rfl

/-- A commit that installs applies its rows and finishes. -/
theorem finish_installing :
    ∀ (pending done : List Write) (s : Engine) (g : Flight), s.flights = g :: rest →
      g.phase = .installing done pending → Ends hangs ((s.history.take g.txn).flatten ++ done) pending →
        ∃ s', s.CanReach hangs s' ∧ s'.flights = rest
  | [], done, s, g, hfl, hph, _ => by
    have hstep : s.finish 0 = some { s with
        frontier := g.fin
        flights := s.flights.eraseIdx 0
        acked := g.txn :: s.acked } := by
      rw [finish, hfl]
      simp only [List.getElem?_cons_zero, hph]
    refine ⟨_, .single ⟨0, .inr (.inr (.inr (.inl hstep)))⟩, ?_⟩
    rw [hfl]
    rfl
  | w :: pending, done, s, g, hfl, hph, hends => by
    obtain ⟨s₁, hstep, hfl₁, hhistory⟩ : ∃ s₁, s.apply 0 = some s₁ ∧
        s₁.flights = { g with phase := .installing (done ++ [w]) pending } :: rest ∧
          s₁.history = s.history := by
      refine ⟨{ s.setPhase 0 g (.installing (done ++ [w]) pending) with
        trees := applyWrite s.trees w
        stale := s.stale || (s.scanned w.1 && s.trees[w.1]? ≠ w.2) }, ?_, setPhase_flights hfl, rfl⟩
      rw [Engine.apply, hfl]
      simp only [List.getElem?_cons_zero, hph]
    have hrest : Ends hangs ((s₁.history.take g.txn).flatten ++ (done ++ [w])) pending := by
      rw [hhistory, ← List.append_assoc]
      exact hends.behind
    obtain ⟨s', hreach, hfl'⟩ := finish_installing pending (done ++ [w]) s₁ _ hfl₁ rfl hrest
    refine ⟨s', .head ⟨0, .inr (.inr (.inr (.inr ⟨hstep, fun f d x p hf hph' => ?_⟩)))⟩ hreach, hfl'⟩
    rw [hfl] at hf
    obtain rfl : g = f := Option.some.inj hf
    rw [hph] at hph'
    obtain ⟨rfl, hsame⟩ := FlightPhase.installing.inj hph'
    obtain ⟨rfl, -⟩ := List.cons.inj hsame
    exact hends.head

/-- The first commit in flight, once durable, enters and finishes. -/
theorem Inv.finish_durable (h : s.Inv settled) (hends : s.AllEnd hangs) (hfl : s.flights = g :: rest)
    (hph : g.phase = .durable) :
    ∃ s', s.CanReach hangs s' ∧ s'.flights = rest := by
  have hck : s.ckpt ≠ some .truncated := by
    intro hck
    rw [h.idle hck] at hfl
    cases hfl
  have hchain := h.chain hck
  rw [hfl] at hchain
  have hstart : s.frontier = g.start := hchain.1.symm
  have hfree : s.installHeld = false := by
    rw [installHeld, List.any_eq_false]
    intro f hf
    split
    · next done pending hinst =>
      obtain ⟨i, hi⟩ := List.mem_iff_getElem?.mp hf
      obtain ⟨rfl, -⟩ := h.installing i f done pending hi hinst
      rw [hfl] at hi
      rw [Option.some.inj hi, hinst] at hph
      cases hph
    · simp
  have hstep : s.enter 0 = some (s.setPhase 0 g (.installing [] g.writes)) := by
    rw [Engine.enter, hfl]
    simp only [List.getElem?_cons_zero, hph]
    rw [if_pos ⟨hstart, hfree⟩]
  have hall : Ends hangs ((s.history.take g.txn).flatten ++ []) g.writes := by
    rw [List.append_nil]
    exact hends g (by rw [hfl]; exact List.mem_cons_self)
  obtain ⟨s', hreach, hfl'⟩ := finish_installing g.writes [] _ _ (setPhase_flights hfl) rfl hall
  exact ⟨s', .head ⟨0, .inr (.inr (.inl hstep))⟩ hreach, hfl'⟩

/-- The first commit in flight, once synced, goes on to its end. -/
theorem Inv.finish_synced (h : s.Inv settled) (hends : s.AllEnd hangs) (hfl : s.flights = g :: rest)
    (hph : g.phase = .appended) (hfin : g.fin ≤ s.durable) :
    ∃ s', s.CanReach hangs s' ∧ s'.flights = rest := by
  have hstep : s.wait 0 = some (s.setPhase 0 g .durable) := by
    rw [Engine.wait, hfl]
    simp only [List.getElem?_cons_zero, hph, if_pos hfin]
  obtain ⟨s', hreach, hfl'⟩ := (h.wait hstep).finish_durable
    (hends.step (a := .wait 0) h hstep nofun) (setPhase_flights hfl) rfl
  exact ⟨s', .head ⟨0, .inr (.inl hstep)⟩ hreach, hfl'⟩

/-- The first commit in flight can always go on to its end. -/
theorem Inv.finish_first (h : s.Inv settled) (hends : s.AllEnd hangs) (hfl : s.flights = g :: rest) :
    ∃ s', s.CanReach hangs s' ∧ s'.flights = rest := by
  cases hph : g.phase with
  | installing done pending =>
    obtain ⟨-, -, hwrites⟩ := h.installing 0 g done pending (by rw [hfl]; rfl) hph
    refine finish_installing pending done s g hfl hph (Ends.behind ?_)
    rw [← hwrites]
    exact hends g (by rw [hfl]; exact List.mem_cons_self)
  | durable => exact h.finish_durable hends hfl hph
  | appended =>
    rcases le_or_gt g.fin s.durable with hfin | hfin
    · exact h.finish_synced hends hfl hph hfin
    · -- The syncer can make the log durable up to the end of its entry.
      have hck : s.ckpt ≠ some .truncated := by
        intro hck
        rw [h.idle hck] at hfl
        cases hfl
      have hwritten : g.fin ≤ s.written := by
        have := (h.chain hck).bounds (span g) (by rw [hfl]; simp)
        exact this.2.2
      have hentry : ∃ e ∈ s.wal, e.fin = g.fin := by
        refine ⟨g.logged, ?_, rfl⟩
        rw [h.wal, hfl]
        simp
      have hstep : s.sync g.fin = some { s with durable := g.fin } := by
        rw [Engine.sync, if_pos ⟨hfin.le, hwritten, hentry⟩]
      obtain ⟨s', hreach, hfl'⟩ := (h.sync hstep).finish_synced
        (hends.step (a := .sync g.fin) h hstep nofun) hfl hph le_rfl
      exact ⟨s', .head ⟨g.fin, .inl hstep⟩ hreach, hfl'⟩

/-- One commit after the other finishes, up to any commit in flight. -/
theorem Inv.reach_start : ∀ {i : Nat} {s : Engine} {settled : List Logged} {f : Flight},
    s.Inv settled → s.AllEnd hangs → s.flights[i]? = some f →
      ∃ s', s.CanReach hangs s' ∧ s'.frontier = f.start
  | 0, s, _, f, h, _, hf => by
    have hck : s.ckpt ≠ some .truncated := by
      intro hck
      rw [h.idle hck] at hf
      cases hf
    cases hfl : s.flights with
    | nil => simp [hfl] at hf
    | cons g rest =>
      rw [hfl] at hf
      obtain rfl : g = f := Option.some.inj hf
      have hchain := h.chain hck
      rw [hfl] at hchain
      exact ⟨s, .refl, hchain.1.symm⟩
  | i + 1, s, _, f, h, hends, hf => by
    cases hfl : s.flights with
    | nil => simp [hfl] at hf
    | cons g rest =>
      rw [hfl, List.getElem?_cons_succ] at hf
      obtain ⟨s₁, hreach, hrest⟩ := h.finish_first hends hfl
      obtain ⟨⟨_, hinv⟩, hends₁⟩ : (∃ settled₁, s₁.Inv settled₁) ∧ s₁.AllEnd hangs :=
        Transition.invariant (P := fun s : Engine => (∃ settled, s.Inv settled) ∧ s.AllEnd hangs)
          ⟨⟨_, h⟩, hends⟩ (fun _ _ hP hs => hs.keeps hP.1.choose_spec hP.2) hreach
      rw [← hrest] at hf
      obtain ⟨s', hreach', hstart⟩ := hinv.reach_start hends₁ hf
      exact ⟨s', hreach.trans hreach', hstart⟩

theorem Inv.unblocked (h : s.Inv settled) (hends : s.AllEnd hangs) : s.Unblocked hangs := by
  intro f hf
  obtain ⟨i, hi⟩ := List.mem_iff_getElem?.mp hf
  exact h.reach_start hends hi

/-! ## Checkpoints -/

/-- One commit appended, synced and installed, then a whole checkpoint. -/
def quietSchedule : List Action :=
  [.append [(("t", [1]), some [7])] 10, .sync 18, .wait 0, .enter 0, .apply 0, .finish 0,
    .beginCheckpoint ["t"], .scanLeaf none [], .writeSnapshot, .rename, .reset, .rebase,
    .endCheckpoint]

/-- One key in a tree of one leaf is in no gap. -/
def noneHangs : List Write → Write → Bool := fun _ _ => false

/-- A step of a schedule whose snapshots have every row and whose truncations come in idle windows. -/
def sparingStep (a : Action) (s : Engine) : Option Engine :=
  match a with
  | .rename => if s.moved then none else s.rename
  | .reset => if s.idle then s.reset else none
  | a => s.step a

theorem sparingStep_spec (a : Action) (s s' : Engine) (h : sparingStep a s = some s') :
    s.SparingStep noneHangs s' := by
  have hends : ∀ writes : List Write, Ends noneHangs s.history.flatten writes := fun _ _ _ _ _ => rfl
  unfold sparingStep at h
  split at h
  · split at h
    · cases h
    · next hmoved => exact ⟨.rename, h, nofun, fun _ => by simpa using hmoved, nofun⟩
  · split at h
    · next hidle => exact ⟨.reset, h, nofun, nofun, fun _ => hidle⟩
    · cases h
  · next hrename hreset =>
    exact ⟨a, h, fun _ _ _ => hends _, fun ha => absurd ha hrename, fun ha => absurd ha hreset⟩

theorem opened_empty : Opened ["t"] ∅ [] headerLen where
  fin_le := by simp
  known := by simp [replay]

/-- A commit is durable and waits for its turn while a whole checkpoint scans,
renames and truncates; it then installs and returns. -/
def lostSchedule : List Action :=
  [.append [(("t", [1]), some [7])] 10, .sync 18, .wait 0, .beginCheckpoint ["t"], .scanLeaf none [],
    .writeSnapshot, .rename, .reset, .rebase, .endCheckpoint, .enter 0, .apply 0, .finish 0]

/-- The row of `t` with key 1. -/
def lostKey : TKey := ("t", [1])

theorem lostSchedule_loses :
    (Transition.exec (fun a s => s.step a) (fun _ => true) lostSchedule
      (start ["t"] ∅ [] headerLen)).map (fun s =>
        (s.acked, s.history.length, (s.recover s.durable)[lostKey]?,
          (replay s.base s.history.flatten)[lostKey]?)) = some ([0], 1, none, some [7]) := by
  decide +kernel

end Engine

end HenchDB.Commit
