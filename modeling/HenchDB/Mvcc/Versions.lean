import Mathlib.Tactic
import HenchDB.Lib.Chain
import HenchDB.Store

/-!
# The version buffer

Rows are stored once, in the tree of their table.  What a commit supersedes is
kept in the version buffer (`VersionState`): for every `(table, key)` the chain
of older rows and the epoch of the last commit that changed it.  A reader that
holds a snapshot pinned at epoch `R` takes the row of the tree when no commit
above `R` changed the key, and walks the chain otherwise (`snapshotLookup`); a
scan adds the keys that only the chains still know (`snapshotScanExtra`).
`gcLocked` drops what no registered snapshot can ask for.

`HashMap` is `ExtTreeMap`, whose iteration order is one of those a `HashMap`
may have.  `decodeStored` is a parameter: nothing here depends on the row
format.
-/

namespace HenchDB.Mvcc

open Std (ExtTreeMap)

/-- Superseded states of one key, newest first: `(until_epoch, row)`. -/
abbrev RowChain (Row : Type) := List (Nat × Option Row)

/-- `VersionState`.  `snapshots` maps a snapshot id to its read epoch; the
creation time only feeds the age test, which is an input of the reads. -/
structure VersionState (Row : Type) where
  committed : ExtTreeMap TKey Nat
  /-- Superseded states per key. -/
  chains : ExtTreeMap TKey (RowChain Row)
  snapshots : ExtTreeMap Nat Nat
  nextSnapshotId : Nat

/-- `SnapshotPin`: what a session holds. -/
structure SnapshotPin where
  id : Nat
  readEpoch : Nat
  isStatement : Bool
deriving DecidableEq, Repr

inductive ReadError (E : Type) where
  /-- `snapshot exceeded maximum configured age limit`. -/
  | snapshotTooOld
  /-- `snapshot isolation violation: version history missing for table`. -/
  | historyMissing (table : String)
  | decode (e : E)
deriving DecidableEq, Repr

namespace VersionState

variable {Row : Type} {vs : VersionState Row} {k : TKey} {R oldest : Nat}

def new : VersionState Row where
  committed := ∅
  chains := ∅
  snapshots := ∅
  nextSnapshotId := 1

/-- The committed epoch of a key, zero when the buffer has none. -/
def committedEpoch (vs : VersionState Row) (k : TKey) : Nat := (vs.committed[k]?).getD 0

def chainAt (vs : VersionState Row) (k : TKey) (readEpoch : Nat) : Option (Option Row) :=
  (vs.chains[k]?).bind fun chain => Chain.walk readEpoch chain none

/-! ## Garbage collection -/

/-- The smallest epoch a registered snapshot reads at. -/
def oldestPinned (vs : VersionState Row) : Option Nat :=
  (vs.snapshots.toList.map Prod.snd).min?

/-- The history above `oldest`. -/
def pruned (vs : VersionState Row) (oldest : Nat) : VersionState Row :=
  { vs with
    chains := vs.chains.filterMap fun _ chain =>
      let kept := chain.filter fun e => oldest < e.1
      if kept.isEmpty then none else some kept
    committed := vs.committed.filter fun _ e => oldest < e }

/-- `gc_locked`: drop history no registered reader can consult. -/
def gcLocked (vs : VersionState Row) : VersionState Row :=
  match vs.oldestPinned with
  | none => { vs with chains := ∅, committed := ∅ }
  | some oldest => vs.pruned oldest

/-! ## Registration -/

/-- The registry part of `snapshot_pin_active`, `snapshot_pin_statement` and
`snapshot_begin`: a new id, registered at the epoch read. -/
def register (vs : VersionState Row) (readEpoch : Nat) (isStatement : Bool) :
    VersionState Row × SnapshotPin :=
  ({ vs with
      snapshots := vs.snapshots.insert vs.nextSnapshotId readEpoch
      nextSnapshotId := vs.nextSnapshotId + 1 },
    { id := vs.nextSnapshotId, readEpoch := readEpoch, isStatement := isStatement })

/-- `snapshot_end`: remove the pin and collect. -/
def release (vs : VersionState Row) (pin : SnapshotPin) : VersionState Row :=
  gcLocked { vs with snapshots := vs.snapshots.erase pin.id }

/-! ## Recording -/

section Recording

variable {E : Type} (decodeStored : String → Bytes → Except E Row)

/-- The row of a stored value, or of a missing one. -/
def decodeAt (k : TKey) : Option Bytes → Except E (Option Row)
  | none => .ok none
  | some raw => (decodeStored k.1 raw).map some

/-- Put the state that `epoch` supersedes in front of the chain. -/
def supersede (vs : VersionState Row) (k : TKey) (epoch : Nat) (prev : Option Row) :
    VersionState Row :=
  { vs with
    chains := vs.chains.insert k ((epoch, prev) :: (vs.chains[k]?).getD [])
    committed := vs.committed.insert k epoch }

/-- One row of `record_commit_batch`, which is also `record_install`.  Nothing
is recorded when the key is absent before and after, or keeps its bytes. -/
def recordInstall (trees : Trees) (epoch : Nat) (vs : VersionState Row)
    (w : Write) : Except E (VersionState Row) :=
  if trees[w.1]? = w.2 then .ok vs
  else
    match decodeAt decodeStored w.1 trees[w.1]? with
    | .ok prev => .ok (vs.supersede w.1 epoch prev)
    | .error e => .error e

/-- `record_commit_batch`.  A row that does not decode ends the loop; what was
recorded before it stays. -/
def recordCommitBatch (trees : Trees) (epoch : Nat) :
    List Write → VersionState Row → VersionState Row × Except E Unit
  | [], vs => (vs, .ok ())
  | w :: ws, vs =>
    match recordInstall decodeStored trees epoch vs w with
    | .ok vs' => recordCommitBatch trees epoch ws vs'
    | .error e => (vs, .error e)

end Recording

/-! ## Snapshot reads -/

section Reads

variable {E : Type}

/-- `snapshot_lookup`: what a session sees of a key whose tree state is
`current`.  `aged` is the outcome of the age test. -/
def snapshotLookup (vs : VersionState Row) (snapshot : Option SnapshotPin) (aged : Bool)
    (k : TKey) (current : Option Row) : Except (ReadError E) (Option Row) :=
  match snapshot with
  | none => .ok current
  | some snap =>
    if aged then .error .snapshotTooOld
    else if vs.committedEpoch k ≤ snap.readEpoch then .ok current
    else
      match vs.chainAt k snap.readEpoch with
      | some ans => .ok ans
      | none => .error (.historyMissing k.1)

/-- `snapshot_scan_extra`: the keys of `table` that the scan did not see and
whose history shows a row at the snapshot. -/
def snapshotScanExtra (vs : VersionState Row) (snapshot : Option SnapshotPin) (aged : Bool)
    (table : String) (present : List Bytes) : Except (ReadError E) (List (Bytes × Row)) :=
  match snapshot with
  | none => .ok []
  | some snap =>
    if aged then .error .snapshotTooOld
    else
      .ok <| vs.chains.toList.filterMap fun (k, chain) =>
        if k.1 ≠ table ∨ k.2 ∈ present then none
        else
          match Chain.walk snap.readEpoch chain none with
          | some (some row) => some (k.2, row)
          | _ => none

theorem key_of_restored {table : String} {present : List Bytes} {epoch : Nat} {key : TKey}
    {chain : RowChain Row} {b : Bytes × Row}
    (h : (if key.1 ≠ table ∨ key.2 ∈ present then none
      else
        match Chain.walk epoch chain none with
        | some (some row) => some (key.2, row)
        | _ => none) = some b) : key = (table, b.1) := by
  split at h
  · cases h
  · next hin =>
    rw [not_or, not_not] at hin
    split at h
    · cases h
      exact Prod.ext hin.1 rfl
    · cases h

end Reads

/-! ## What each operation changes -/

/-- Every chain stands newest first. -/
def Ordered (vs : VersionState Row) : Prop :=
  ∀ (k : TKey) (chain : RowChain Row), vs.chains[k]? = some chain → Chain.NewestFirst chain

/-- Every epoch in the buffer is at most `last`. -/
structure Bounded (vs : VersionState Row) (last : Nat) : Prop where
  committed : ∀ k, vs.committedEpoch k ≤ last
  chains : ∀ (k : TKey) (chain : RowChain Row), vs.chains[k]? = some chain →
    ∀ e ∈ chain, e.1 ≤ last

theorem Bounded.mono {last last' : Nat} (h : vs.Bounded last) (hle : last ≤ last') :
    vs.Bounded last' where
  committed k := (h.committed k).trans hle
  chains k chain hc e he := (h.chains k chain hc e he).trans hle

theorem Bounded.chainAt_eq_none (h : vs.Bounded R) (k : TKey) : vs.chainAt k R = none := by
  unfold chainAt
  cases hc : vs.chains[k]? with
  | none => rfl
  | some chain => exact Chain.walk_of_forall_le (h.chains k chain hc)

theorem ordered_new : (new : VersionState Row).Ordered := by
  intro k chain h
  simp [new] at h

theorem bounded_new : (new : VersionState Row).Bounded 0 where
  committed k := by simp [committedEpoch, new]
  chains k chain h := by simp [new] at h

section Supersede

variable {epoch : Nat} {prev : Option Row} {k' : TKey}

theorem getElem?_chains_supersede :
    (vs.supersede k epoch prev).chains[k']? =
      if k = k' then some ((epoch, prev) :: (vs.chains[k]?).getD []) else vs.chains[k']? := by
  simp [supersede, ExtTreeMap.getElem?_insert]

theorem committedEpoch_supersede :
    (vs.supersede k epoch prev).committedEpoch k' =
      if k = k' then epoch else vs.committedEpoch k' := by
  simp only [committedEpoch, supersede, ExtTreeMap.getElem?_insert, Std.compare_eq_iff_eq]
  split <;> rfl

/-- A reader below the new entry finds what it found before, or the new entry. -/
theorem chainAt_supersede_self (h : R < epoch) :
    (vs.supersede k epoch prev).chainAt k R = (vs.chainAt k R).or (some prev) := by
  simp only [chainAt, getElem?_chains_supersede, if_true, Option.bind_some]
  rw [Chain.walk_cons h]
  cases vs.chains[k]? <;> rfl

theorem chainAt_supersede_ne (h : k ≠ k') :
    (vs.supersede k epoch prev).chainAt k' R = vs.chainAt k' R := by
  simp [chainAt, getElem?_chains_supersede, h]

theorem Ordered.supersede (h : vs.Ordered)
    (hnew : ∀ chain, vs.chains[k]? = some chain → ∀ e ∈ chain, e.1 < epoch) :
    (vs.supersede k epoch prev).Ordered := by
  intro k' chain hc
  rw [getElem?_chains_supersede] at hc
  split at hc
  · cases hold : vs.chains[k]? with
    | none =>
      rw [hold] at hc
      cases hc
      simp [Chain.NewestFirst]
    | some old =>
      rw [hold] at hc
      cases hc
      exact List.pairwise_cons.mpr ⟨hnew old hold, h k old hold⟩
  · exact h k' chain hc

theorem Bounded.supersede (h : vs.Bounded epoch) : (vs.supersede k epoch prev).Bounded epoch where
  committed k' := by
    rw [committedEpoch_supersede]
    split
    · exact le_rfl
    · exact h.committed k'
  chains k' chain hc e he := by
    rw [getElem?_chains_supersede] at hc
    split at hc
    · cases hc
      rcases List.mem_cons.mp he with rfl | he
      · exact le_rfl
      · cases hold : vs.chains[k]? with
        | none => simp [hold] at he
        | some old => exact h.chains k old hold e (by simpa [hold] using he)
    · exact h.chains k' chain hc e he

end Supersede

section Pruned

theorem getElem?_chains_pruned :
    (vs.pruned oldest).chains[k]? = (vs.chains[k]?).bind fun chain =>
      if (chain.filter fun e => oldest < e.1).isEmpty then none
      else some (chain.filter fun e => oldest < e.1) := by
  simp [pruned]

theorem committedEpoch_pruned :
    (vs.pruned oldest).committedEpoch k =
      if oldest < vs.committedEpoch k then vs.committedEpoch k else 0 := by
  simp only [committedEpoch, pruned, ExtTreeMap.getElem?_filter']
  obtain hc | ⟨e, hc⟩ := Option.eq_none_or_eq_some vs.committed[k]?
  · simp [hc]
  · by_cases he : oldest < e <;> simp [hc, Option.filter, he]

theorem Ordered.pruned (h : vs.Ordered) (oldest : Nat) : (vs.pruned oldest).Ordered := by
  intro k chain hc
  rw [getElem?_chains_pruned, Option.bind_eq_some_iff] at hc
  obtain ⟨old, hold, hc⟩ := hc
  split at hc
  · cases hc
  · cases hc
    exact (h k old hold).filter _

theorem Bounded.pruned {last : Nat} (h : vs.Bounded last) (oldest : Nat) :
    (vs.pruned oldest).Bounded last where
  committed k := by
    rw [committedEpoch_pruned]
    split
    · exact h.committed k
    · exact Nat.zero_le _
  chains k chain hc e he := by
    rw [getElem?_chains_pruned, Option.bind_eq_some_iff] at hc
    obtain ⟨old, hold, hc⟩ := hc
    split at hc
    · cases hc
    · cases hc
      exact h.chains k old hold e (List.mem_filter.mp he).1

/-- Collection below a read epoch is not seen there. -/
theorem chainAt_pruned (h : vs.Ordered) (hR : oldest ≤ R) :
    (vs.pruned oldest).chainAt k R = vs.chainAt k R := by
  unfold chainAt
  rw [getElem?_chains_pruned]
  cases hc : vs.chains[k]? with
  | none => rfl
  | some chain =>
    have hwalk : Chain.walk R (chain.filter fun e => oldest < e.1) none = Chain.walk R chain none :=
      Chain.walk_filter hR (h k chain hc)
    rw [Option.bind_some, Option.bind_some, ← hwalk]
    split
    · next hempty => rw [List.isEmpty_iff.mp hempty]; rfl
    · rfl

theorem lt_committedEpoch_pruned (hR : oldest ≤ R) :
    R < (vs.pruned oldest).committedEpoch k ↔ R < vs.committedEpoch k := by
  rw [committedEpoch_pruned]
  split <;> omega

end Pruned

/-! ## The registry -/

theorem oldestPinned_eq_none (h : vs.oldestPinned = none) (id : Nat) :
    vs.snapshots[id]? = none := by
  rw [oldestPinned, List.min?_eq_none_iff, List.map_eq_nil_iff] at h
  by_contra hid
  obtain ⟨R, hR⟩ := Option.ne_none_iff_exists'.mp hid
  have hmem := ExtTreeMap.mem_toList_iff_getElem?_eq_some.mpr hR
  rw [h] at hmem
  cases hmem

/-- The oldest pinned epoch is below every pinned epoch, and is one of them. -/
theorem oldestPinned_spec (h : vs.oldestPinned = some oldest) :
    (∃ id : Nat, vs.snapshots[id]? = some oldest) ∧
      ∀ (id R : Nat), vs.snapshots[id]? = some R → oldest ≤ R := by
  rw [oldestPinned, List.min?_eq_some_iff] at h
  obtain ⟨hmem, hmin⟩ := h
  obtain ⟨⟨id, R⟩, hid, rfl⟩ := List.mem_map.mp hmem
  refine ⟨⟨id, ExtTreeMap.mem_toList_iff_getElem?_eq_some.mp hid⟩, fun id' R' h' => ?_⟩
  exact hmin R' (List.mem_map.mpr ⟨(id', R'),
    ExtTreeMap.mem_toList_iff_getElem?_eq_some.mpr h', rfl⟩)

end VersionState

end HenchDB.Mvcc
