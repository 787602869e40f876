import HenchDB.Replication.Stream

/-!
# The position of the replica

The replica stands behind a list of whole records of a log, `pre`: its offset
is their length, its buffer is what redo of them leaves buffered, and its
tables are those of the transactions redo applied (`Standing`).  A new
connection starts with an empty buffer, so the position has to be one where
nothing is buffered.

Every chunk in flight is a piece of the log of the generation that the replica
will be in when it arrives (`InFlight`), because the feeder changes the
generation of its cursor only together with a snapshot.
-/

namespace HenchDB.Replication

open Wal
open Relation (ReflTransGen)
open Std (ExtTreeMap)

/-! ## Logs that grow -/

namespace Gen

/-- A log with more transactions. -/
def Extends (g g' : Gen) : Prop := g'.base = g.base ∧ g.txns <+: g'.txns

/-- The transactions are well-formed and their records kept. -/
structure Ok (g : Gen) : Prop where
  wellFormed : ∀ t ∈ g.txns, t.wellFormed = true
  kept : ∀ r ∈ g.records, RecordKept r

variable {g g' : Gen} {pre : List Record}

theorem Extends.refl (g : Gen) : g.Extends g := ⟨rfl, List.prefix_rfl⟩

theorem Extends.records (h : g.Extends g') : g.records <+: g'.records := by
  obtain ⟨-, more, hmore⟩ := h
  rw [Gen.records, Gen.records, ← hmore, List.flatMap_append]
  exact List.prefix_append _ _

theorem Extends.bytes (h : g.Extends g') : g.bytes <+: g'.bytes := by
  obtain ⟨more, hmore⟩ := h.records
  rw [Gen.bytes, Gen.bytes, ← hmore, frames_append, ← List.append_assoc]
  exact List.prefix_append _ _

/-- Redo of the records up to an offset gives the tables at the offset. -/
theorem stateAt_of_redo (h : g.Ok) (hpre : pre <+: g.records) :
    g.stateAt (logStart + (frames pre).length) =
      g.base.applyRecords (redo pre).applied.flatten := by
  have hwhole : wholeRecords g.records (frames pre).length = pre := by
    obtain ⟨post, hpost⟩ := hpre
    rw [← hpost, wholeRecords_append_of_le _ le_rfl, wholeRecords_of_le le_rfl]
  have hrun := run_wholeTxns (s := Redo.start) h.wellFormed rfl (frames pre).length
  rw [← Gen.records, hwhole] at hrun
  have happlied : (redo pre).applied =
      (wholeTxns g.txns (frames pre).length).map Txn.records := hrun
  rw [happlied, stateAt, Nat.add_sub_cancel_left, ← List.flatMap_def]

end Gen

/-! ## Where the replica stands -/

/-- A catalog and an offset behind the records `pre` of a log, with what is
buffered there. -/
structure Standing (g : Gen) (pre : List Record) (offset : Nat)
    (pending : ExtTreeMap Nat (List Record)) (tables : Catalog) : Prop where
  pre_le : pre <+: g.records
  offset_eq : offset = logStart + (frames pre).length
  pending_eq : pending = (redo pre).pending
  tables_eq : g.base.applyRecords (redo pre).applied.flatten = .ok tables

namespace Standing

variable {g g' : Gen} {pre : List Record} {offset : Nat} {pending : ExtTreeMap Nat (List Record)}
  {tables : Catalog}

theorem extend (h : Standing g pre offset pending tables) (hext : g.Extends g') :
    Standing g' pre offset pending tables where
  pre_le := h.pre_le.trans hext.records
  offset_eq := h.offset_eq
  pending_eq := h.pending_eq
  tables_eq := by
    rw [hext.1]
    exact h.tables_eq

theorem stateAt (h : Standing g pre offset pending tables) (hok : g.Ok) :
    g.stateAt offset = .ok tables := by
  rw [h.offset_eq, Gen.stateAt_of_redo hok h.pre_le]
  exact h.tables_eq

/-- Behind whole transactions nothing is buffered. -/
theorem of_txns (hok : g.Ok) (k : Nat)
    (htables : g.stateAt (logStart + (frames ((g.txns.take k).flatMap Txn.log)).length) = .ok tables) :
    Standing g ((g.txns.take k).flatMap Txn.log)
      (logStart + (frames ((g.txns.take k).flatMap Txn.log)).length) ∅ tables := by
  have hpre : (g.txns.take k).flatMap Txn.log <+: g.records := by
    have hsplit : g.records = (g.txns.take k).flatMap Txn.log ++ (g.txns.drop k).flatMap Txn.log := by
      rw [Gen.records, ← List.flatMap_append, List.take_append_drop]
    rw [hsplit]
    exact List.prefix_append _ _
  refine { pre_le := hpre, offset_eq := rfl, pending_eq := ?_, tables_eq := ?_ }
  · exact (pending_run_logs (s := Redo.start)
      (fun t ht => hok.wellFormed t (List.take_subset k _ ht)) rfl).symm
  · rw [← Gen.stateAt_of_redo hok hpre]
    exact htables

theorem chunk (h : Standing g pre offset pending tables) (hok : g.Ok) {data : Bytes}
    (hdata : data <+: g.bytes.drop offset) {rs : List Record}
    (hscan : decodeWalRange false data = .ok (rs, [])) {tables' : Catalog}
    (happly : tables.applyRecords (Redo.run { pending := pending, applied := [] } rs).applied.flatten =
      .ok tables') :
    Standing g (pre ++ rs) (offset + data.length)
      (Redo.run { pending := pending, applied := [] } rs).pending tables' := by
  obtain ⟨post, hpost⟩ := h.pre_le
  -- What is left of the log behind the offset.
  have hrest : g.bytes.drop offset = frames post := by
    rw [Gen.bytes, ← hpost, frames_append, ← List.append_assoc, h.offset_eq]
    refine List.drop_left' ?_
    rw [List.length_append, length_header]
    rfl
  have hcut : data = (frames post).take data.length := by
    rw [← hrest]
    exact List.prefix_iff_eq_take.mp hdata
  have hkept : ∀ r ∈ post, RecordKept r := fun r hr =>
    hok.kept r (by rw [← hpost]; exact List.mem_append_right _ hr)
  have hdecode := decodeWalRange_take (fun r hr => (hkept r hr).reread) data.length
  rw [← hcut, hscan] at hdecode
  obtain ⟨hrs, htorn⟩ : rs = wholeRecords post data.length ∧ [] = tornBytes post data.length := by
    simpa using hdecode
  have hframes : data = frames rs := by
    conv_lhs => rw [hcut]
    rw [take_frames, ← htorn, List.append_nil, hrs]
  obtain ⟨hpend, happ⟩ := Redo.run_frame (redo pre) rs
  rw [← redo_append, ← h.pending_eq] at hpend happ
  refine { pre_le := ?_, offset_eq := ?_, pending_eq := hpend.symm, tables_eq := ?_ }
  · rw [← hpost, hrs]
    exact (List.prefix_append_right_inj _).mpr ( wholeRecords_prefix _ _)
  · rw [h.offset_eq, frames_append, List.length_append, hframes]
    omega
  · rw [happ, List.flatten_append, Catalog.applyRecords_append, h.tables_eq]
    exact happly

end Standing

/-! ## What is in flight -/

/-- A generation, with none below every other. -/
def rank : Option Nat → Nat
  | none => 0
  | some g => g + 1

namespace System

/-- A frame that arrives in generation `γ`, and the generation behind it. -/
def FrameOk (s : System) (γ : Option Nat) : Frame → Option Nat → Prop
  | .walChunk offset data, δ =>
    δ = γ ∧ ∃ g gen, γ = some g ∧ s.genAt g = some gen ∧ data <+: gen.bytes.drop offset
  | .snapshot image endOffset g, δ =>
    δ = some g ∧ rank γ ≤ rank (some g) ∧
      ∃ gen pre, s.genAt g = some gen ∧ Standing gen pre endOffset ∅ image

def InFlight (s : System) : Option Nat → List Frame → Option Nat → Prop
  | γ, [], δ => δ = γ
  | γ, f :: fs, δ => ∃ γ', s.FrameOk γ f γ' ∧ s.InFlight γ' fs δ

def Grows (s s' : System) : Prop :=
  ∀ g gen, s.genAt g = some gen → ∃ gen', s'.genAt g = some gen' ∧ gen.Extends gen'

variable {s s' : System} {γ δ : Option Nat} {f : Frame} {fs : List Frame}

theorem FrameOk.grow (h : s.FrameOk γ f δ) (hgrow : s.Grows s') : s'.FrameOk γ f δ := by
  cases f with
  | walChunk offset data =>
    obtain ⟨hδ, g, gen, hγ, hgen, hdata⟩ := h
    obtain ⟨gen', hgen', hext⟩ := hgrow g gen hgen
    refine ⟨hδ, g, gen', hγ, hgen', hdata.trans ?_⟩
    obtain ⟨more, hmore⟩ := hext.bytes
    rw [← hmore, List.drop_append]
    exact List.prefix_append _ _
  | snapshot image endOffset g =>
    obtain ⟨hδ, hrank, gen, pre, hgen, hstand⟩ := h
    obtain ⟨gen', hgen', hext⟩ := hgrow g gen hgen
    exact ⟨hδ, hrank, gen', pre, hgen', hstand.extend hext⟩

theorem InFlight.grow (h : s.InFlight γ fs δ) (hgrow : s.Grows s') : s'.InFlight γ fs δ := by
  induction fs generalizing γ with
  | nil => exact h
  | cons f fs ih =>
    obtain ⟨γ', hf, hfs⟩ := h
    exact ⟨γ', hf.grow hgrow, ih hfs⟩

/-- A frame is put behind the others. -/
theorem InFlight.append {ε : Option Nat} (h : s.InFlight γ fs δ) (hf : s.FrameOk δ f ε) :
    s.InFlight γ (fs ++ [f]) ε := by
  induction fs generalizing γ with
  | nil =>
    obtain rfl : δ = γ := h
    exact ⟨ε, hf, rfl⟩
  | cons f' fs ih =>
    obtain ⟨γ', hf', hfs⟩ := h
    exact ⟨γ', hf', ih hfs⟩

theorem FrameOk.rank_le (h : s.FrameOk γ f δ) : rank γ ≤ rank δ := by
  cases f with
  | walChunk offset data =>
    rw [h.1]
  | snapshot image endOffset g =>
    rw [h.1]
    exact h.2.1

theorem InFlight.rank_le (h : s.InFlight γ fs δ) : rank γ ≤ rank δ := by
  induction fs generalizing γ with
  | nil =>
    obtain rfl : δ = γ := h
    exact le_rfl
  | cons f fs ih =>
    obtain ⟨γ', hf, hfs⟩ := h
    exact hf.rank_le.trans (ih hfs)

/-- Every reachable state; `δ` is the generation behind the frames in flight. -/
structure Inv (s : System) (δ : Option Nat) : Prop where
  gens : ∀ g gen, s.genAt g = some gen → gen.Ok
  durable : ∃ k, s.durable = logStart + (frames ((s.current.txns.take k).flatMap Txn.log)).length
  standing : ∀ g, s.replica.generation = some g → ∃ gen pre, s.genAt g = some gen ∧
    Standing gen pre s.replica.applied s.replica.pending s.replica.tables
  idle : s.replica.connected = false → s.replica.pending = ∅ ∧ s.down = []
  inFlight : s.InFlight s.replica.generation s.down δ
  known : rank δ ≤ rank (some s.generation)
  requests : ∀ r ∈ s.up, rank r.generation ≤ rank s.replica.generation
  cursor : s.replica.connected = true → ∀ g n, s.feeder.cursor = some (g, n) →
    s.feeder.phase = .served ∨ δ = some g
  served : s.replica.connected = true → s.feeder.phase = .served → δ = some s.generation
  checked : s.replica.connected = true → ∀ g n, s.feeder.cursor = some (g, n) →
    s.feeder.phase = .polling ∨ s.feeder.phase = .served ∨ g = s.generation

theorem Inv.exact (h : s.Inv δ) : s.Exact := by
  intro g hg
  obtain ⟨gen, pre, hgen, hstand⟩ := h.standing g hg
  exact ⟨gen, hgen, hstand.stateAt (h.gens g gen hgen)⟩

/-! ## Steps of the primary -/

theorem genAt_current (s : System) : s.genAt s.generation = some s.current := by
  simp [genAt, generation]

theorem Grows.of_eq (hpast : s'.past = s.past) (hcurrent : s'.current = s.current) :
    s.Grows s' := by
  intro g gen hgen
  refine ⟨gen, ?_, Gen.Extends.refl gen⟩
  rw [genAt, hpast, hcurrent]
  exact hgen

/-- A log is an earlier one or the current one. -/
theorem genAt_cases {g : Nat} {gen : Gen} (h : s.genAt g = some gen) :
    (g < s.generation ∧ s.past[g]? = some gen) ∨ (g = s.generation ∧ gen = s.current) := by
  rw [genAt, List.getElem?_append] at h
  split at h
  · next hlt => exact Or.inl ⟨hlt, h⟩
  · next hge =>
    rw [List.getElem?_singleton] at h
    split at h
    · next hzero =>
      have hle : g ≤ s.past.length := Nat.sub_eq_zero_iff_le.mp hzero
      exact Or.inr ⟨Nat.le_antisymm hle (Nat.not_lt.mp hge), (Option.some.inj h).symm⟩
    · cases h

theorem genAt_of_past {g : Nat} {gen : Gen} (h : s.past[g]? = some gen) : s.genAt g = some gen := by
  rw [genAt, List.getElem?_append_left (List.getElem?_eq_some_iff.mp h).1]
  exact h

theorem Grows.of_extends (hpast : s'.past = s.past) (hext : s.current.Extends s'.current) :
    s.Grows s' := by
  intro g gen hgen
  rcases genAt_cases hgen with ⟨-, hold⟩ | ⟨rfl, rfl⟩
  · refine ⟨gen, genAt_of_past ?_, Gen.Extends.refl gen⟩
    rw [hpast]
    exact hold
  · refine ⟨s'.current, ?_, hext⟩
    rw [generation, ← hpast]
    exact s'.genAt_current

theorem Inv.commit {t : Txn} (h : s.Inv δ) (hs : s.commit t = some s')
    (hkept : ∀ r ∈ t.log, RecordKept r) : s'.Inv δ := by
  unfold System.commit at hs
  dsimp only at hs
  split at hs
  · next hguard =>
    have heq := (Option.some.inj hs).symm
    have hext : s.current.Extends s'.current := by
      rw [heq]
      exact ⟨rfl, List.prefix_append _ _⟩
    have hgrow : s.Grows s' := Grows.of_extends (by rw [heq]) hext
    have hok := h.gens _ _ s.genAt_current
    have hok' : s'.current.Ok := by
      rw [heq]
      refine { wellFormed := fun t' ht' => ?_, kept := fun r hr => ?_ }
      · rcases List.mem_append.mp ht' with ht' | ht'
        · exact hok.wellFormed t' ht'
        · rw [List.mem_singleton.mp ht']
          exact hguard.1
      · rw [Gen.records, List.flatMap_append] at hr
        rcases List.mem_append.mp hr with hr | hr
        · exact hok.kept r hr
        · exact hkept r (by simpa using hr)
    have hpast : s'.past = s.past := by rw [heq]
    have hgens : ∀ g gen, s'.genAt g = some gen → gen.Ok := by
      intro g gen hg
      rcases genAt_cases hg with ⟨-, hold⟩ | ⟨-, hnow⟩
      · rw [hpast] at hold
        exact h.gens g gen (genAt_of_past hold)
      · rw [hnow]
        exact hok'
    subst heq
    exact
      { gens := hgens
        durable := by
          obtain ⟨k, hk⟩ := h.durable
          refine ⟨min k s.current.txns.length, ?_⟩
          rw [List.take_append_of_le_length (Nat.min_le_right _ _), ← List.take_take,
            List.take_length]
          exact hk
        standing := by
          intro g hg
          obtain ⟨gen, pre, hgen, hstand⟩ := h.standing g hg
          obtain ⟨gen', hgen', hext'⟩ := hgrow g gen hgen
          exact ⟨gen', pre, hgen', hstand.extend hext'⟩
        idle := h.idle
        inFlight := h.inFlight.grow hgrow
        known := h.known
        requests := h.requests
        cursor := h.cursor
        served := h.served
        checked := h.checked }
  · cases hs

theorem Inv.sync {k : Nat} (h : s.Inv δ) (hs : s.sync k = some s') : s'.Inv δ := by
  unfold System.sync at hs
  dsimp only at hs
  split at hs
  · cases hs
    exact
      { gens := h.gens
        durable := ⟨k, rfl⟩
        standing := h.standing
        idle := h.idle
        inFlight := h.inFlight.grow (Grows.of_eq rfl rfl)
        known := h.known
        requests := h.requests
        cursor := h.cursor
        served := h.served
        checked := h.checked }
  · cases hs

theorem Inv.reset (h : s.Inv δ) (hs : s.reset = some s')
    (hphase : s.replica.connected = true → s.feeder.phase = .polling) : s'.Inv δ := by
  unfold System.reset at hs
  split at hs
  · next base hbase =>
    have heq := (Option.some.inj hs).symm
    have hpast : s'.past = s.past ++ [s.current] := by rw [heq]
    have hold : ∀ g gen, s.genAt g = some gen → s'.genAt g = some gen := by
      intro g gen hg
      refine genAt_of_past ?_
      rw [hpast]
      exact hg
    have hgrow : s.Grows s' := fun g gen hg => ⟨gen, hold g gen hg, Gen.Extends.refl gen⟩
    have hgens : ∀ g gen, s'.genAt g = some gen → gen.Ok := by
      intro g gen hg
      rcases genAt_cases hg with ⟨-, hlog⟩ | ⟨-, hnow⟩
      · rw [hpast] at hlog
        exact h.gens g gen hlog
      · rw [hnow, heq]
        exact { wellFormed := by simp, kept := by simp [Gen.records] }
    have hgen : s'.generation = s.generation + 1 := by
      rw [generation, hpast, List.length_append]
      rfl
    subst heq
    exact
      { gens := hgens
        durable := ⟨0, rfl⟩
        standing := by
          intro g hg
          obtain ⟨gen, pre, hgen, hstand⟩ := h.standing g hg
          exact ⟨gen, pre, hold g gen hgen, hstand⟩
        idle := h.idle
        inFlight := h.inFlight.grow hgrow
        known := by
          have hknown := h.known
          rw [hgen]
          show rank δ ≤ s.generation + 1 + 1
          exact hknown.trans (Nat.le_succ _)
        requests := h.requests
        cursor := h.cursor
        served := by
          intro hconn hserved
          have hpolling := hphase hconn
          rw [hserved] at hpolling
          cases hpolling
        checked := fun hconn _ _ _ => Or.inl (hphase hconn) }
  · cases hs

/-! ## Steps of the feeder -/

theorem Inv.sendSnapshot (h : s.Inv δ) (hconn : s.replica.connected = true)
    (hs : s.sendSnapshot = some s') : s'.Inv (some s.generation) := by
  unfold System.sendSnapshot at hs
  split at hs
  · next image himage =>
    obtain ⟨k, hk⟩ := h.durable
    have hok := h.gens _ _ s.genAt_current
    rw [hk] at himage
    have hstand := Standing.of_txns hok k himage
    have hframe : s.FrameOk δ (.snapshot image s.durable s.generation) (some s.generation) :=
      ⟨rfl, h.known, s.current, _, s.genAt_current, by rw [hk]; exact hstand⟩
    cases hs
    exact
      { gens := h.gens
        durable := h.durable
        standing := h.standing
        idle := by
          intro hidle
          rw [show s.replica.connected = false from hidle] at hconn
          cases hconn
        inFlight := (h.inFlight.append hframe).grow (Grows.of_eq rfl rfl)
        known := le_rfl
        requests := h.requests
        cursor := fun _ _ _ _ => Or.inl rfl
        served := fun _ _ => rfl
        checked := fun _ _ _ _ => Or.inr (Or.inl rfl) }
  · cases hs

/-- The feeder moves and nothing else does. -/
theorem Inv.feed (h : s.Inv δ) (fd : Feeder)
    (hcursor : s.replica.connected = true → ∀ g n, fd.cursor = some (g, n) → δ = some g)
    (hserved : fd.phase ≠ .served)
    (hchecked : s.replica.connected = true → ∀ g n, fd.cursor = some (g, n) →
      fd.phase = .polling ∨ g = s.generation) :
    ({ s with feeder := fd } : System).Inv δ where
  gens := h.gens
  durable := h.durable
  standing := h.standing
  idle := h.idle
  inFlight := h.inFlight.grow (Grows.of_eq rfl rfl)
  known := h.known
  requests := h.requests
  cursor := fun hconn g n hg => Or.inr (hcursor hconn g n hg)
  served := fun _ hphase => absurd hphase hserved
  checked := by
    intro hconn g n hg
    rcases hchecked hconn g n hg with hpolling | hnow
    · exact Or.inl hpolling
    · exact Or.inr (Or.inr hnow)

theorem Inv.feedCheck (h : s.Inv δ) (hs : s.feedCheck = some s') : ∃ δ', s'.Inv δ' := by
  unfold System.feedCheck at hs
  split at hs
  · next g n hconn hphase hcursor =>
    split at hs
    · next hnow =>
      cases hs
      refine ⟨δ, h.feed { s.feeder with phase := .checked } ?_ (by simp) ?_⟩
      · intro _ g' n' hg'
        rcases h.cursor hconn g' n' hg' with hserved | hδ
        · rw [hphase] at hserved
          cases hserved
        · exact hδ
      · intro _ g' n' hg'
        have hsame : some (g, n) = some (g', n') := hcursor.symm.trans hg'
        cases hsame
        exact Or.inr hnow
    · exact ⟨_, h.sendSnapshot hconn hs⟩
  · cases hs

theorem Inv.feedSize (h : s.Inv δ) (hs : s.feedSize = some s') : s'.Inv δ := by
  unfold System.feedSize at hs
  split at hs
  · next hconn hphase =>
    cases hs
    refine h.feed { s.feeder with phase := .sized s.durable } ?_ (by simp) ?_
    · intro _ g n hg
      rcases h.cursor hconn g n hg with hserved | hδ
      · rw [hphase] at hserved
        cases hserved
      · exact hδ
    · intro _ g n hg
      rcases h.checked hconn g n hg with hpolling | hserved | hnow
      · rw [hphase] at hpolling
        cases hpolling
      · rw [hphase] at hserved
        cases hserved
      · exact Or.inr hnow
  · cases hs

theorem Inv.feedRead (h : s.Inv δ) (hs : s.feedRead = some s') : ∃ δ', s'.Inv δ' := by
  unfold System.feedRead at hs
  split at hs
  · next durable g next hconn hphase hcursor =>
    have hδ : δ = some g := by
      rcases h.cursor hconn g next hcursor with hserved | hδ
      · rw [hphase] at hserved
        cases hserved
      · exact hδ
    have hnow : g = s.generation := by
      rcases h.checked hconn g next hcursor with hpolling | hserved | hnow
      · rw [hphase] at hpolling
        cases hpolling
      · rw [hphase] at hserved
        cases hserved
      · exact hnow
    split at hs
    · exact ⟨_, h.sendSnapshot hconn hs⟩
    · split at hs
      · exact ⟨_, h.sendSnapshot hconn hs⟩
      · dsimp only at hs
        split at hs
        · cases hs
          refine ⟨δ, h.feed { s.feeder with phase := .polling } ?_ (by simp) ?_⟩
          · intro _ g' n' hg'
            have hsame : some (g, next) = some (g', n') := hcursor.symm.trans hg'
            cases hsame
            exact hδ
          · exact fun _ _ _ _ => Or.inl rfl
        · -- The chunk is a piece of the log of the generation of the cursor.
          have hframe : s.FrameOk δ
              (.walChunk next ((s.current.bytes.drop next).take (min (durable - next) chunkBytes)))
              δ :=
            ⟨rfl, g, s.current, hδ, hnow ▸ s.genAt_current, List.take_prefix _ _⟩
          cases hs
          exact ⟨δ,
            { gens := h.gens
              durable := h.durable
              standing := h.standing
              idle := by
                intro hidle
                rw [show s.replica.connected = false from hidle] at hconn
                cases hconn
              inFlight := (h.inFlight.append hframe).grow (Grows.of_eq rfl rfl)
              known := h.known
              requests := h.requests
              cursor := by
                intro _ g' n' hg'
                cases hg'
                exact Or.inr hδ
              served := fun _ hserved => nomatch hserved
              checked := fun _ _ _ _ => Or.inl rfl }⟩
  · cases hs

theorem Inv.feedResume (h : s.Inv δ) (hs : s.feedResume = some s') : s'.Inv δ := by
  unfold System.feedResume at hs
  split at hs
  · next hconn hphase =>
    cases hs
    refine h.feed { cursor := some (s.generation, s.durable), phase := .polling } ?_ (by simp) ?_
    · intro _ g n hg
      cases hg
      exact h.served hconn hphase
    · exact fun _ _ _ _ => Or.inl rfl
  · cases hs

theorem rank_inj (h : rank γ = rank δ) : γ = δ := by
  cases γ <;> cases δ <;> simp_all [rank]

/-- A request that names the current generation comes from a replica with
nothing but that generation in flight to it. -/
theorem Inv.feedRequest (h : s.Inv δ) (hs : s.feedRequest = some s') : ∃ δ', s'.Inv δ' := by
  unfold System.feedRequest at hs
  split at hs
  · next r up hconn hphase hup =>
    have hless : ({ s with up := up } : System).Inv δ :=
      { gens := h.gens
        durable := h.durable
        standing := h.standing
        idle := h.idle
        inFlight := h.inFlight.grow (Grows.of_eq rfl rfl)
        known := h.known
        requests := fun r' hr' => h.requests r' (by rw [hup]; exact List.mem_cons_of_mem _ hr')
        cursor := h.cursor
        served := h.served
        checked := h.checked }
    dsimp only at hs
    split at hs
    · exact ⟨_, hless.sendSnapshot hconn hs⟩
    · next hguard =>
      cases hs
      have hgen : r.generation = some s.generation :=
        not_not.mp fun hne => hguard (Or.inl hne)
      have hδ : δ = some s.generation := by
        have hreq := h.requests r (by rw [hup]; exact List.mem_cons_self)
        rw [hgen] at hreq
        exact rank_inj (Nat.le_antisymm h.known (hreq.trans h.inFlight.rank_le))
      refine ⟨δ, hless.feed { s.feeder with cursor := some (s.generation, r.fromOffset) } ?_ ?_ ?_⟩
      · intro _ g n hg
        cases hg
        exact hδ
      · intro hserved
        rw [show s.feeder.phase = .served from hserved] at hphase
        cases hphase
      · exact fun _ _ _ _ => Or.inl hphase
  · cases hs

/-! ## Steps of the replica -/

theorem Inv.connect (h : s.Inv δ) (hs : s.connect = some s') : ∃ δ', s'.Inv δ' := by
  unfold System.connect at hs
  split at hs
  · cases hs
  · next hconn =>
    obtain ⟨hpending, -⟩ := h.idle (by simpa using hconn)
    cases hs
    exact ⟨s.replica.generation,
      { gens := h.gens
        durable := h.durable
        standing := by
          intro g hg
          obtain ⟨gen, pre, hgen, hstand⟩ := h.standing g hg
          rw [hpending] at hstand
          exact ⟨gen, pre, hgen, hstand⟩
        idle := fun _ => ⟨rfl, rfl⟩
        inFlight := rfl
        known := h.inFlight.rank_le.trans h.known
        requests := by
          intro r hr
          rw [List.mem_singleton.mp hr]
        cursor := fun _ _ _ hg => nomatch hg
        served := fun _ hserved => nomatch hserved
        checked := fun _ _ _ hg => nomatch hg }⟩

theorem Inv.disconnected (h : s.Inv δ) (hpending : s.replica.pending = ∅) :
    s.disconnected.Inv s.replica.generation where
  gens := h.gens
  durable := h.durable
  standing := h.standing
  idle := fun _ => ⟨hpending, rfl⟩
  inFlight := rfl
  known := h.inFlight.rank_le.trans h.known
  requests := fun _ hr => nomatch hr
  cursor := fun hconn _ _ _ => nomatch hconn
  served := fun hconn _ => nomatch hconn
  checked := fun hconn _ _ _ => nomatch hconn

theorem Inv.drop (h : s.Inv δ) (hs : s.drop = some s')
    (hquiet : s.replica.connected = true → s'.replica.connected = false → s.replica.pending = ∅) :
    ∃ δ', s'.Inv δ' := by
  unfold System.drop at hs
  split at hs
  · next hconn =>
    cases hs
    exact ⟨_, h.disconnected (hquiet hconn rfl)⟩
  · cases hs

theorem Inv.taken {down : List Frame} {replica : Replica} {up : List Request} (h : s.Inv δ)
    (hconn : s.replica.connected = true) (hgen : replica.generation = γ)
    (hconn' : replica.connected = true) (hflight : s.InFlight γ down δ)
    (hstanding : ∀ g, γ = some g → ∃ gen pre,
      s.genAt g = some gen ∧ Standing gen pre replica.applied replica.pending replica.tables)
    (hrequests : ∀ r ∈ up, rank r.generation ≤ rank γ) :
    ({ s with down := down, up := up, replica := replica } : System).Inv δ where
  gens := h.gens
  durable := h.durable
  standing := by
    intro g hg
    exact hstanding g (hgen ▸ hg)
  idle := by
    intro hidle
    rw [show replica.connected = false from hidle] at hconn'
    cases hconn'
  inFlight := by
    rw [hgen]
    exact hflight.grow (Grows.of_eq rfl rfl)
  known := h.known
  requests := by
    intro r hr
    rw [hgen]
    exact hrequests r hr
  cursor := fun _ => h.cursor hconn
  served := fun _ => h.served hconn
  checked := fun _ => h.checked hconn

theorem Inv.receive (h : s.Inv δ) (hs : s.receive = some s')
    (hquiet : s.replica.connected = true → s'.replica.connected = false → s.replica.pending = ∅) :
    ∃ δ', s'.Inv δ' := by
  unfold System.receive at hs
  split at hs
  · next offset data down hconn hdown =>
    have hflight := h.inFlight
    rw [hdown] at hflight
    obtain ⟨γ', ⟨rfl, g, gen, hγ, hgen, hdata⟩, hflight⟩ := hflight
    have hless : ({ s with down := down } : System).Inv δ :=
      h.taken hconn rfl hconn hflight h.standing h.requests
    dsimp only at hs
    split at hs
    · -- A chunk from elsewhere is answered with the position.
      cases hs
      refine ⟨δ, h.taken hconn rfl hconn hflight h.standing ?_⟩
      intro r hr
      rcases List.mem_append.mp hr with hr | hr
      · exact h.requests r hr
      · rw [List.mem_singleton.mp hr]
    · next hat =>
      have hat : offset = s.replica.applied := not_not.mp hat
      unfold System.applyChunk at hs
      split at hs
      · cases hs
        exact ⟨_, hless.disconnected (hquiet hconn rfl)⟩
      · next rs left hscan =>
        split at hs
        · next hleft =>
          dsimp only at hs
          split at hs
          · next tables htables =>
            cases hs
            obtain ⟨gen', pre, hgen', hstand⟩ := h.standing g hγ
            obtain rfl : gen = gen' := Option.some.inj (hgen.symm.trans hgen')
            rw [List.isEmpty_iff.mp hleft] at hscan
            rw [hat] at hdata
            have hstand' := hstand.chunk (h.gens g gen hgen) hdata hscan htables
            refine ⟨δ, h.taken hconn rfl hconn hflight ?_ h.requests⟩
            intro g' hg'
            obtain rfl : g = g' := Option.some.inj (hγ.symm.trans hg')
            exact ⟨gen, _, hgen, hstand'⟩
          · cases hs
        · cases hs
          exact ⟨_, hless.disconnected (hquiet hconn rfl)⟩
  · next image endOffset g down hconn hdown =>
    have hflight := h.inFlight
    rw [hdown] at hflight
    obtain ⟨γ', ⟨rfl, hrank, gen, pre, hgen, hstand⟩, hflight⟩ := hflight
    have heq := (Option.some.inj hs).symm
    unfold System.applySnapshot at heq
    split at heq
    · next hfence =>
      -- Snapshots arrive in the order of their generations.
      exfalso
      rw [Bool.and_eq_true] at hfence
      obtain ⟨-, hfence⟩ := hfence
      cases hγ : s.replica.generation with
      | none => simp [hγ] at hfence
      | some g₀ =>
        have hlt : g < g₀ := by simpa [hγ] using hfence
        rw [hγ] at hrank
        have : g₀ + 1 ≤ g + 1 := hrank
        omega
    · subst heq
      refine ⟨δ, h.taken hconn rfl hconn hflight ?_ ?_⟩
      · intro g' hg'
        obtain rfl : g = g' := Option.some.inj hg'
        exact ⟨gen, pre, hgen, hstand⟩
      · intro r hr
        exact (h.requests r hr).trans hrank
  · cases hs

/-! ## Runs -/

theorem inv_start (base tables : Catalog) : (start base tables).Inv none where
  gens := by
    intro g gen hg
    rcases genAt_cases hg with ⟨-, hold⟩ | ⟨-, rfl⟩
    · cases hold
    · exact { wellFormed := by simp [start], kept := by simp [start, Gen.records] }
  durable := ⟨0, rfl⟩
  standing := fun _ hg => nomatch hg
  idle := fun _ => ⟨rfl, rfl⟩
  inFlight := rfl
  known := Nat.zero_le _
  requests := fun _ hr => nomatch hr
  cursor := fun hconn _ _ _ => nomatch hconn
  served := fun hconn _ => nomatch hconn
  checked := fun hconn _ _ _ => nomatch hconn

theorem Inv.steadyStep (h : s.Inv δ) (hs : s.SteadyStep s') : ∃ δ', s'.Inv δ' := by
  obtain ⟨a, hstep, hquiet, hreset, hkept⟩ := hs
  cases a with
  | commit t => exact ⟨δ, h.commit hstep (hkept t rfl)⟩
  | sync k => exact ⟨δ, h.sync hstep⟩
  | reset => exact ⟨δ, h.reset hstep (hreset rfl)⟩
  | feedCheck => exact h.feedCheck hstep
  | feedSize => exact ⟨δ, h.feedSize hstep⟩
  | feedRead => exact h.feedRead hstep
  | feedResume => exact ⟨δ, h.feedResume hstep⟩
  | feedRequest => exact h.feedRequest hstep
  | connect => exact h.connect hstep
  | drop => exact h.drop hstep hquiet
  | receive => exact h.receive hstep hquiet

/-- In every run of steady steps the tables of the replica are those of the
transactions below its position. -/
theorem steady_runs_exact (base tables : Catalog)
    (h : ReflTransGen SteadyStep (start base tables) s) : s.Exact := by
  suffices hinv : ∃ δ, s.Inv δ by
    obtain ⟨δ, hinv⟩ := hinv
    exact hinv.exact
  induction h with
  | refl => exact ⟨none, inv_start base tables⟩
  | tail _ hstep ih =>
    obtain ⟨δ, hinv⟩ := ih
    exact hinv.steadyStep hstep

/-! ## A run with two connections -/

/-- `SteadyStep` as a check. -/
def steadyStep (a : Action) (s : System) : Option System :=
  match s.step a with
  | none => none
  | some s' =>
    if (s.replica.connected && !s'.replica.connected && !s.replica.pending.isEmpty) then none
    else
      match a with
      | .reset => if s.replica.connected && s.feeder.phase != .polling then none else some s'
      | .commit t => if t.log.all recordKept then some s' else none
      | _ => some s'

theorem steadyStep_spec (a : Action) (s s' : System) (h : steadyStep a s = some s') :
    s.SteadyStep s' := by
  unfold steadyStep at h
  split at h
  · cases h
  · next s₁ hstep =>
    split at h
    · cases h
    · next hquiet =>
      have hend : ∀ s₂ : System, s₁ = s₂ → s.replica.connected = true →
          s₂.replica.connected = false → s.replica.pending = ∅ := by
        rintro s₂ rfl hconn hconn'
        have : s.replica.pending.isEmpty = true := by simpa [hconn, hconn'] using hquiet
        exact ExtTreeMap.isEmpty_iff.mp this
      split at h
      · split at h
        · cases h
        · next hphase =>
          cases h
          refine ⟨.reset, hstep, hend _ rfl, fun _ hconn => ?_, fun t ht => nomatch ht⟩
          simpa [hconn] using hphase
      · next t =>
        split at h
        · next hkept =>
          cases h
          refine ⟨.commit t, hstep, hend _ rfl, (fun ha => nomatch ha), fun t' ht' r hr => ?_⟩
          cases ht'
          exact kept_of_recordKept (List.all_eq_true.mp hkept r hr)
        · cases h
      · next hreset hcommit =>
        cases h
        exact ⟨a, hstep, hend _ rfl, fun ha => absurd ha hreset,
          fun t ht => absurd ht (hcommit t)⟩

def createDb (id : Nat) (name : String) : Txn :=
  { id := id, records := [.createDatabase id name], ts := 0 }

/-- Two transactions over two connections, and a snapshot behind a checkpoint. -/
def twoConnections : List Action :=
  [.connect, .feedRequest, .feedResume, .receive, .commit (createDb 1 "a"), .sync 1,
    .feedCheck, .feedSize, .feedRead, .receive, .drop, .commit (createDb 2 "b"), .sync 2,
    .connect, .feedRequest, .feedCheck, .feedSize, .feedRead, .receive, .reset, .feedCheck,
    .feedResume, .receive]

theorem twoConnections_runs :
    (Transition.exec steadyStep (fun _ => true) twoConnections
      (start Catalog.empty Catalog.empty)).map
        (fun s => (s.replica.generation, s.replica.applied, s.replica.tables.databases.toList)) =
      some (some 1, 8, ["a", "b", "default"]) := by
  decide +kernel

theorem steady_runs_exact_twoConnections :
    ∃ s : System, ReflTransGen SteadyStep (start Catalog.empty Catalog.empty) s ∧
      s.replica.generation = some 1 ∧ s.replica.tables.databases.toList = ["a", "b", "default"] ∧
      s.Exact := by
  obtain ⟨s, hexec, hends⟩ := Option.map_eq_some_iff.mp twoConnections_runs
  simp only [Prod.mk.injEq] at hends
  have hrun : ReflTransGen SteadyStep (start Catalog.empty Catalog.empty) s :=
    Transition.exec_runs steadyStep_spec hexec
  exact ⟨s, hrun, hends.1, hends.2.2, steady_runs_exact _ _ hrun⟩

/-! ## A connection that ends inside a transaction -/

section Reconnect

variable {base c c' : Catalog} {t : Txn} {r r' : Record}

/-- A primary with one durable transaction, and a replica of its generation. -/
def oneTxn (base : Catalog) (t : Txn) (feeder : Feeder) (replica : Replica) (up : List Request)
    (down : List Frame) : System where
  past := []
  current := { base := base, txns := [t] }
  durable := logStart + (frames t.log).length
  feeder := feeder
  replica := replica
  up := up
  down := down

/-- A connected replica at a position in the first generation. -/
def standingAt (offset : Nat) (pending : ExtTreeMap Nat (List Record)) (tables : Catalog) :
    Replica where
  generation := some 0
  applied := offset
  anchored := true
  connected := true
  pending := pending
  tables := tables

def feedingFrom (offset : Nat) : Feeder := { cursor := some (0, offset), phase := .polling }

/-- The replica takes the snapshot of the empty log, then a transaction is
logged. -/
theorem steps_logged (hwf : t.wellFormed = true) (hc : base.applyRecords t.records = .ok c) :
    ReflTransGen Steps (start base base)
      (oneTxn base t (feedingFrom logStart) (standingAt logStart ∅ base) [] []) := by
  have hsnap : (Gen.mk base []).stateAt logStart = .ok base := rfl
  have hrun : Transition.exec (fun a s => System.step s a) (fun _ => true)
      [.connect, .feedRequest, .feedResume, .receive, .commit t, .sync 1] (start base base) =
      some (oneTxn base t (feedingFrom logStart) (standingAt logStart ∅ base) [] []) := by
    simp [Transition.exec, System.step, start, System.connect, System.feedRequest,
      System.sendSnapshot, hsnap, generation, System.feedResume, System.receive,
      System.applySnapshot, System.commit, hwf, hc, Except.toOption, System.sync, oneTxn,
      feedingFrom, standingAt]
  exact Transition.exec_runs (fun a _ _ ha => ⟨a, ha⟩) hrun

theorem feedRead_chunk {g next durable : Nat} {data : Bytes} (hconn : s.replica.connected = true)
    (hfeeder : s.feeder = { cursor := some (g, next), phase := .sized durable })
    (hdurable : next ≤ durable) (hstart : logStart ≤ next) (hend : next ≤ s.current.bytes.length)
    (hdata : (s.current.bytes.drop next).take (min (durable - next) chunkBytes) = data)
    (hne : data ≠ []) :
    s.feedRead = some { s with
      down := s.down ++ [.walChunk next data]
      feeder := { cursor := some (g, next + data.length), phase := .polling } } := by
  have hsome : data.isEmpty = false := by simpa using hne
  unfold System.feedRead
  simp [hconn, hfeeder, hdata, hsome, Nat.not_lt.mpr hdurable, Nat.not_lt.mpr hstart,
    Nat.not_lt.mpr hend]

theorem receive_chunk {offset : Nat} {data : Bytes} {rs : List Record}
    (hconn : s.replica.connected = true) (hdown : s.down = [.walChunk offset data])
    (hat : offset = s.replica.applied) (hscan : decodeWalRange false data = .ok (rs, []))
    (happly : s.replica.tables.applyRecords
      (Redo.run { pending := s.replica.pending, applied := [] } rs).applied.flatten = .ok c) :
    s.receive = some { s with
      down := []
      replica := { s.replica with
        applied := s.replica.applied + data.length
        pending := (Redo.run { pending := s.replica.pending, applied := [] } rs).pending
        tables := c } } := by
  unfold System.receive
  simp [hconn, hdown, hat, System.applyChunk, hscan, happly]

/-- One round: the records `mid` fill a chunk, and the replica takes it. -/
theorem steps_round (pre mid post : List Record) (pending : ExtTreeMap Nat (List Record))
    (hlog : t.log = pre ++ (mid ++ post)) (hkept : ∀ r ∈ t.log, RecordKept r) (hne : mid ≠ [])
    (hfill : (frames mid).length = min (frames (mid ++ post)).length chunkBytes)
    (happly : base.applyRecords (Redo.run { pending := pending, applied := [] } mid).applied.flatten =
      .ok c) :
    ReflTransGen Steps
      (oneTxn base t (feedingFrom (logStart + (frames pre).length))
        (standingAt (logStart + (frames pre).length) pending base) [] [])
      (oneTxn base t (feedingFrom (logStart + (frames pre).length + (frames mid).length))
        (standingAt (logStart + (frames pre).length + (frames mid).length)
          (Redo.run { pending := pending, applied := [] } mid).pending c) [] []) := by
  have hrest : (header ++ frames t.log).drop (logStart + (frames pre).length) =
      frames (mid ++ post) := by
    rw [hlog, frames_append, ← List.append_assoc]
    refine List.drop_left' ?_
    rw [List.length_append, length_header]
    rfl
  have hbytes : (Gen.mk base [t]).bytes = header ++ frames t.log := by
    simp [Gen.bytes, Gen.records]
  have hlen : (frames t.log).length = (frames pre).length + (frames (mid ++ post)).length := by
    rw [hlog, frames_append, List.length_append]
  have hdata : (frames (mid ++ post)).take (min (frames (mid ++ post)).length chunkBytes) =
      frames mid := by
    rw [← hfill, frames_append]
    exact List.take_left' rfl
  have hscan : decodeWalRange false (frames mid) = .ok (mid, []) := by
    have hmid : ∀ r ∈ mid, RecordKept r := fun r hr => hkept r (by rw [hlog]; simp [hr])
    have hdecode := decodeWalRange_take (fun r hr => (hmid r hr).reread) (frames mid).length
    rw [wholeRecords_of_le le_rfl, List.take_length] at hdecode
    rw [hdecode, tornBytes, wholeRecords_of_le le_rfl, List.take_length, List.drop_length]
  have hpos : frames mid ≠ [] := by
    intro hm
    have hle := length_le_frames mid
    rw [hm] at hle
    exact hne (List.length_eq_zero_iff.mp (Nat.le_zero.mp hle))
  have hheader : (header ++ frames t.log).length = logStart + (frames t.log).length := by
    rw [List.length_append, length_header]
    rfl
  have hsize : logStart + (frames t.log).length - (logStart + (frames pre).length) =
      (frames (mid ++ post)).length := by omega
  have hend : logStart + (frames pre).length ≤ (Gen.mk base [t]).bytes.length := by
    rw [hbytes, hheader]
    omega
  have hchunk : ((Gen.mk base [t]).bytes.drop (logStart + (frames pre).length)).take
      (min (logStart + (frames t.log).length - (logStart + (frames pre).length)) chunkBytes) =
      frames mid := by
    rw [hbytes, hrest, hsize, hdata]
  have hread := feedRead_chunk (s := oneTxn base t
      { cursor := some (0, logStart + (frames pre).length)
        phase := .sized (logStart + (frames t.log).length) }
      (standingAt (logStart + (frames pre).length) pending base) [] [])
    rfl rfl (by omega) (by omega) hend hchunk hpos
  have hreceive := receive_chunk (s := oneTxn base t
      (feedingFrom (logStart + (frames pre).length + (frames mid).length))
      (standingAt (logStart + (frames pre).length) pending base) []
      [.walChunk (logStart + (frames pre).length) (frames mid)]) rfl rfl rfl hscan happly
  refine .head ⟨.feedCheck, rfl⟩ (.head ⟨.feedSize, rfl⟩ ?_)
  exact .head ⟨.feedRead, hread⟩ (.single ⟨.receive, hreceive⟩)

/-- The connection ends with records buffered and comes back at the position. -/
theorem steps_reconnect {offset : Nat} {pending : ExtTreeMap Nat (List Record)}
    (hstart : logStart ≤ offset) (hend : offset ≤ logStart + (frames t.log).length) :
    ReflTransGen Steps
      (oneTxn base t (feedingFrom offset) (standingAt offset pending base) [] [])
      (oneTxn base t (feedingFrom offset) (standingAt offset ∅ base) [] []) := by
  have hrequest : (oneTxn base t { cursor := none, phase := .polling }
        (standingAt offset ∅ base) [{ generation := some 0, fromOffset := offset }] []).feedRequest =
      some (oneTxn base t (feedingFrom offset) (standingAt offset ∅ base) [] []) := by
    have hguard : ¬ ((some 0 : Option Nat) ≠ some 0 ∨ offset < logStart ∨
        logStart + (frames t.log).length < offset) := by
      simp
      omega
    exact if_neg hguard
  refine .head ⟨.drop, rfl⟩ (.head ⟨.connect, rfl⟩ ?_)
  exact .single ⟨.feedRequest, hrequest⟩

/-- A chunk that ends behind the first of two records, and a connection that
ends there: the first record is lost. -/
theorem reconnect_loses (hwf : t.wellFormed = true) (hrecords : t.records = [r, r'])
    (hkept : ∀ r ∈ t.log, RecordKept r) (hr : (frame r).length = chunkBytes)
    (hrest : (frames [r', .commit t.id (some t.ts)]).length ≤ chunkBytes)
    (hc : base.applyRecords [r, r'] = .ok c) (hc' : base.applyRecords [r'] = .ok c') (hne : c ≠ c') :
    ∃ s, ReflTransGen Steps (start base base) s ∧ ¬ s.Exact := by
  have hlog : t.log = [r] ++ [r', .commit t.id (some t.ts)] := by rw [Txn.log, hrecords]; rfl
  obtain ⟨-, htxns⟩ := Txn.wellFormed_spec hwf
  have hframe : (frames [r]).length = chunkBytes := by simpa [frames] using hr
  have hlen : (frames t.log).length =
      chunkBytes + (frames [r', .commit t.id (some t.ts)]).length := by
    rw [hlog, frames_append, List.length_append, hframe]
  -- The first chunk is the first record, which stays in the buffer.
  have hbuffer : (Redo.run { pending := ∅, applied := [] } [r]).applied = [] :=
    (Redo.run_records (by simpa using htxns r (by simp [hrecords]))).1
  have hfirst := steps_round (c := base) [] [r] _ ∅ hlog hkept (by simp) (by rw [← hlog]; omega)
    (by rw [hbuffer]; rfl)
  -- The second chunk is the rest, which is all that the new connection knows of.
  have happlied : (Redo.run { pending := ∅, applied := [] } [r', .commit t.id (some t.ts)]).applied =
      [[r']] :=
    Redo.run_txn (s := { pending := ∅, applied := [] }) (by simp) (show [r'] ≠ [] by simp)
      (by simpa using htxns r' (by simp [hrecords]))
  have hsecond := steps_round (c := c') [r] [r', .commit t.id (some t.ts)] [] ∅ hlog hkept (by simp)
    (by rw [List.append_nil]; omega) (by rw [happlied]; exact hc')
  refine ⟨_, (steps_logged hwf (hrecords ▸ hc)).trans (hfirst.trans
    ((steps_reconnect ?_ ?_).trans hsecond)), ?_⟩
  · omega
  · show logStart + 0 + (frames [r]).length ≤ _
    omega
  · intro hexact
    obtain ⟨gen, hgen, hstate⟩ := hexact 0 rfl
    obtain rfl : Gen.mk base [t] = gen := Option.some.inj hgen
    have hall : wholeTxns [t] (logStart + (frames [r]).length +
        (frames [r', .commit t.id (some t.ts)]).length - logStart) = [t] := by
      rw [wholeTxns, if_pos (by omega)]
      rfl
    have hstate : base.applyRecords ((wholeTxns [t] (logStart + (frames [r]).length +
        (frames [r', .commit t.id (some t.ts)]).length - logStart)).flatMap Txn.records) =
        .ok c' := hstate
    rw [hall, List.flatMap_singleton, hrecords, hc] at hstate
    exact hne (Except.ok.inj hstate)

def notes : TableDef where
  name := "default.notes"
  schema :=
    { columns :=
        [{ name := "id", ctype := .int, nullable := false, autoIncrement := false, defaultValue := none },
          { name := "body", ctype := .text, nullable := true, autoIncrement := false,
            defaultValue := none }]
      pkIdx := 0 }
  indexes := []
  foreignKeys := []
  stats := none

/-- The table in a directory of its own, with its rows. -/
def notesWith (tree : ExtTreeMap Bytes Bytes) : Catalog where
  databases := Catalog.empty.databases
  tables := (∅ : ExtTreeMap String Table).insert notes.name { Table.new notes with tree := tree }

def noteRow (id : Int64) (length : Nat) : Bytes :=
  encodeRow [.int id, .text (String.ofList (List.replicate length 'a'))]

def putNote (id : Int64) (length : Nat) : Record :=
  .put 1 notes.name (1 :: keyInt id) (noteRow id length)

/-- Two new rows, of which the first fills a chunk. -/
def twoNotes : Txn := { id := 1, records := [putNote 1 65471, putNote 2 1], ts := 0 }

theorem length_putNote (id : Int64) (n : Nat) : (encodePayload (putNote id n)).length = 57 + n := by
  have hname : (utf8 notes.name).length = 13 := by decide +kernel
  have hint : (Datum.leInt id).length = 8 := Codec.length_leBytes 8 _
  simp [putNote, noteRow, encodePayload, length_putStr, length_putBytes, putU64, hname, keyInt,
    length_beBytes, encodeRow, Datum.encode, hint, length_utf8_replicate]
  omega

theorem kept_putNote (id : Int64) {n : Nat} (h : n ≤ 2 ^ 20) : RecordKept (putNote id n) where
  txn := (by decide : 1 < 2 ^ 64)
  size := by
    rw [length_putNote]
    omega
  ts := fun _ _ hr => nomatch hr
  table := fun _ _ hr => nomatch hr

theorem applyRecord_putNote (tree : ExtTreeMap Bytes Bytes) (id : Int64) (n : Nat) :
    (notesWith tree).applyRecord (putNote id n) =
      .ok (notesWith (tree.insert (1 :: keyInt id) (noteRow id n))) := by
  have hget : (notesWith tree).tables[notes.name]? = some { Table.new notes with tree := tree } :=
    ExtTreeMap.getElem?_insert_self
  rw [putNote, Catalog.applyRecord, Catalog.onTable, hget]
  show Except.ok (Catalog.mk _ _) = Except.ok (Catalog.mk _ _)
  congr 2

theorem reconnect_loses_row :
    ¬ ∀ (base tables : Catalog) (s : System),
      ReflTransGen Steps (start base tables) s → s.Exact := by
  intro hexact
  have hcommit : RecordKept (.commit 1 (some 0)) := kept_of_recordKept (by decide +kernel)
  have hkept : ∀ r ∈ twoNotes.log, RecordKept r := by
    intro r hr
    simp only [Txn.log, twoNotes, List.cons_append, List.nil_append, List.mem_cons,
      List.not_mem_nil, or_false] at hr
    rcases hr with rfl | rfl | rfl
    · exact kept_putNote 1 (by decide)
    · exact kept_putNote 2 (by decide)
    · exact hcommit
  have hfirst : (frame (putNote 1 65471)).length = chunkBytes := by
    rw [length_frame, length_putNote]
    rfl
  have hrest : (frames [putNote 2 1, .commit 1 (some 0)]).length ≤ chunkBytes := by
    rw [frames_cons, List.length_append, length_frame, length_putNote]
    decide +kernel
  have hboth : (notesWith ∅).applyRecords [putNote 1 65471, putNote 2 1] =
      .ok (notesWith (((∅ : ExtTreeMap Bytes Bytes).insert (1 :: keyInt 1) (noteRow 1 65471)).insert
        (1 :: keyInt 2) (noteRow 2 1))) := by
    simp only [Catalog.applyRecords, List.foldlM_cons, applyRecord_putNote, List.foldlM_nil]
    rfl
  have hsecond : (notesWith ∅).applyRecords [putNote 2 1] =
      .ok (notesWith ((∅ : ExtTreeMap Bytes Bytes).insert (1 :: keyInt 2) (noteRow 2 1))) := by
    simp only [Catalog.applyRecords, List.foldlM_cons, applyRecord_putNote, List.foldlM_nil]
    rfl
  have hne : notesWith (((∅ : ExtTreeMap Bytes Bytes).insert (1 :: keyInt 1)
        (noteRow 1 65471)).insert (1 :: keyInt 2) (noteRow 2 1)) ≠
      notesWith ((∅ : ExtTreeMap Bytes Bytes).insert (1 :: keyInt 2) (noteRow 2 1)) := by
    intro hsame
    have hrow := congrArg (fun c : Catalog =>
      c.tables[notes.name]?.bind fun t => t.tree[1 :: keyInt 1]?) hsame
    have hkey : keyInt 2 ≠ keyInt 1 := by decide +kernel
    simp [notesWith, hkey] at hrow
  obtain ⟨s, hs, hbad⟩ := reconnect_loses (t := twoNotes) (by decide +kernel) rfl hkept hfirst hrest
    hboth hsecond hne
  exact hbad (hexact _ _ s hs)

end Reconnect

end System

end HenchDB.Replication
