import HenchDB.Mvcc.Snapshot
import HenchDB.Schema

/-!
# Every read returns the rows of its epoch

The steps of the sessions.  A row read from the tree and resolved later is the
row of the pinned epoch (`snapshotLookup_spec`).  A scan sees every key either
in the tree or in the chains, each key once (`sweep_spec`).
-/

namespace HenchDB.Mvcc

open Std (ExtTreeMap)
open Relation (ReflTransGen)
open VersionState (decodeAt)

variable {Row E : Type} {decodeStored : String → Bytes → Except E Row}

namespace Engine

variable {s s' : Engine Row E} {r R : Nat} {k : TKey} {pin₀ : SnapshotPin}

/-! ## Sessions -/

/-- The pipeline does not depend on the sessions. -/
theorem CoreOk.sessions (h : s.CoreOk decodeStored) (readers : Nat → Reader Row)
    (answers : List (Answer Row E)) :
    ({ s with readers := readers, answers := answers } : Engine Row E).CoreOk decodeStored where
  ordered := h.ordered
  bounded := h.bounded
  queue := h.queue
  queue_above := h.queue_above
  recorded_lt := h.recorded_lt
  phase := h.phase
  kept := h.kept
  current := h.current
  pinned := h.pinned

/-- A session moves under the snapshot it holds. -/
theorem Inv.move {reader : Reader Row} (h : s.Inv decodeStored)
    (hok : s.ReaderOk decodeStored reader) (hpin : reader.pin? = (s.readers r).pin?) :
    (s.setReader r reader).Inv decodeStored where
  core := h.core.sessions _ _
  readers r' := by
    show s.ReaderOk decodeStored (Function.update s.readers r reader r')
    by_cases hr : r' = r
    · subst hr
      rwa [Function.update_self]
    · rw [Function.update_of_ne hr]
      exact h.readers r'
  distinct := by
    have hpins : ∀ r', (Function.update s.readers r reader r').pin? = (s.readers r').pin? := by
      intro r'
      by_cases hr : r' = r
      · subst hr
        rw [Function.update_self, hpin]
      · rw [Function.update_of_ne hr]
    intro r₁ r₂ pin₁ pin₂ h₁ h₂
    exact h.distinct r₁ r₂ pin₁ pin₂ ((hpins r₁).symm.trans h₁) ((hpins r₂).symm.trans h₂)
  answers := h.answers

theorem Inv.answer {a : Answer Row E} (h : s.Inv decodeStored)
    (hpin : (s.readers r).pin? = some pin₀) (hepoch : a.readEpoch ≤ s.visibleEpoch)
    (ha : a.Consistent (s.rowAt decodeStored)) : (s.answer r pin₀ a).Inv decodeStored := by
  have hmove : (s.setReader r (.pinned pin₀)).Inv decodeStored :=
    h.move ((h.readers r).registered hpin) hpin.symm
  exact
    { core := hmove.core.sessions _ _
      readers := hmove.readers
      distinct := hmove.distinct
      answers := fun a' ha' => by
        rcases List.mem_cons.mp ha' with rfl | ha'
        · exact ⟨hepoch, ha⟩
        · exact hmove.answers a' ha' }

/-- What a session with a snapshot can rely on. -/
theorem Inv.registered (h : s.Inv decodeStored) (hpin : (s.readers r).pin? = some pin₀) :
    pin₀.readEpoch ≤ s.visibleEpoch ∧ s.ResolvesAt decodeStored pin₀.readEpoch := by
  obtain ⟨hle, -, hres⟩ := h.core.pinned _ _ ((h.readers r).registered hpin)
  exact ⟨hle, hres⟩

/-! ## Pinning -/

theorem CoreOk.registry (h : s.CoreOk decodeStored) (snapshots : ExtTreeMap Nat Nat) (next : Nat)
    (hkept : ∀ id R : Nat, snapshots[id]? = some R → s.historyKept = true)
    (hpinned : ∀ id R : Nat, snapshots[id]? = some R →
      R ≤ s.visibleEpoch ∧ id < next ∧ s.ResolvesAt decodeStored R) :
    ({ s with
        versions := { s.versions with snapshots := snapshots, nextSnapshotId := next } } :
      Engine Row E).CoreOk decodeStored where
  ordered := h.ordered
  bounded := { committed := h.bounded.committed, chains := h.bounded.chains }
  queue := h.queue
  queue_above := h.queue_above
  recorded_lt := h.recorded_lt
  phase := h.phase
  kept := hkept
  current hk k := { tree := (h.current hk k).tree, chain := (h.current hk k).chain }
  pinned id R hid :=
    have hpin := hpinned id R hid
    ⟨hpin.1, hpin.2.1, fun k => { tree := (hpin.2.2 k).tree, chain := (hpin.2.2 k).chain }⟩

theorem CoreOk.register (h : s.CoreOk decodeStored) (hkept : s.historyKept = true)
    (isStatement : Bool) :
    ({ s with versions := (s.versions.register s.visibleEpoch isStatement).1 } :
      Engine Row E).CoreOk decodeStored := by
  refine h.registry _ _ (fun _ _ _ => hkept) fun id R hid => ?_
  rw [ExtTreeMap.getElem?_insert] at hid
  split at hid
  · next heq =>
    cases hid
    rw [Std.compare_eq_iff_eq] at heq
    subst heq
    exact ⟨le_rfl, Nat.lt_succ_self _, h.current hkept⟩
  · obtain ⟨hle, hlt, hres⟩ := h.pinned id R hid
    exact ⟨hle, Nat.lt_succ_of_lt hlt, hres⟩

theorem Inv.pin {isStatement : Bool} (h : s.Inv decodeStored) (hkept : s.historyKept = true)
    (hs : s.pin r isStatement = some s') : s'.Inv decodeStored := by
  unfold Engine.pin at hs
  split at hs
  · next hidle =>
    cases hs
    have hfresh : ∀ r' pin', (s.readers r').pin? = some pin' →
        pin'.id < s.versions.nextSnapshotId := fun r' pin' hpin =>
      (h.core.pinned _ _ ((h.readers r').registered hpin)).2.1
    have hother : ∀ r' pin', (s.readers r').pin? = some pin' →
        (s.versions.snapshots.insert s.versions.nextSnapshotId s.visibleEpoch)[pin'.id]? =
          some pin'.readEpoch := by
      intro r' pin' hpin
      have hne := hfresh r' pin' hpin
      rw [ExtTreeMap.getElem?_insert, if_neg (by rw [Std.compare_eq_iff_eq]; omega)]
      exact (h.readers r').registered hpin
    -- the new id is above every registered one
    have hnew : ∀ r' pin', (Function.update s.readers r
          (.pinned (s.versions.register s.visibleEpoch isStatement).2) r').pin? = some pin' →
        (r' = r ∧ pin'.id = s.versions.nextSnapshotId) ∨
          (r' ≠ r ∧ (s.readers r').pin? = some pin') := by
      intro r' pin' hpin
      by_cases hr : r' = r
      · subst hr
        rw [Function.update_self] at hpin
        cases hpin
        exact .inl ⟨rfl, rfl⟩
      · rw [Function.update_of_ne hr] at hpin
        exact .inr ⟨hr, hpin⟩
    exact
      { core := (h.core.register hkept isStatement).sessions _ _
        readers := by
          intro r'
          show ReaderOk decodeStored _ (Function.update s.readers r _ r')
          by_cases hr : r' = r
          · subst hr
            rw [Function.update_self]
            show (s.versions.snapshots.insert _ _)[_]? = some _
            simp
          · rw [Function.update_of_ne hr]
            refine (h.readers r').keeps fun pin' hpin => ⟨hother r' pin' hpin, ?_⟩
            exact { value := fun _ => rfl, committed := fun _ hk => hk }
        distinct := by
          intro r₁ r₂ pin₁ pin₂ h₁ h₂ hid
          rcases hnew r₁ pin₁ h₁ with ⟨rfl, hid₁⟩ | ⟨_, hpin₁⟩
          · rcases hnew r₂ pin₂ h₂ with ⟨rfl, _⟩ | ⟨_, hpin₂⟩
            · rfl
            · have := hfresh r₂ pin₂ hpin₂
              omega
          · rcases hnew r₂ pin₂ h₂ with ⟨rfl, hid₂⟩ | ⟨_, hpin₂⟩
            · have := hfresh r₁ pin₁ hpin₁
              omega
            · exact h.distinct r₁ r₂ pin₁ pin₂ hpin₁ hpin₂ hid
        answers := h.answers }
  · cases hs

theorem CoreOk.erase (h : s.CoreOk decodeStored) (id : Nat) :
    ({ s with versions := { s.versions with snapshots := s.versions.snapshots.erase id } } :
      Engine Row E).CoreOk decodeStored := by
  have hsub : ∀ id' R : Nat, (s.versions.snapshots.erase id)[id']? = some R →
      s.versions.snapshots[id']? = some R := by
    intro id' R hid
    rw [ExtTreeMap.getElem?_erase] at hid
    split at hid
    · cases hid
    · exact hid
  exact h.registry _ _ (fun id' R hid => h.kept id' R (hsub id' R hid))
    fun id' R hid => h.pinned id' R (hsub id' R hid)

theorem Inv.unpin (h : s.Inv decodeStored) (hs : s.unpin r = some s') : s'.Inv decodeStored := by
  unfold Engine.unpin at hs
  split at hs
  · next pin hpin =>
    cases hs
    have hreg : ∀ r', r' ≠ r → ∀ pin', (s.readers r').pin? = some pin' →
        (s.versions.snapshots.erase pin.id)[pin'.id]? = some pin'.readEpoch := by
      intro r' hr pin' hpin'
      have hne : pin.id ≠ pin'.id := fun heq =>
        hr (h.distinct r' r pin' pin hpin' (by rw [hpin]; rfl) heq.symm)
      rw [ExtTreeMap.getElem?_erase, if_neg (by rw [Std.compare_eq_iff_eq]; exact hne)]
      exact (h.readers r').registered hpin'
    exact
      { core := (h.core.erase pin.id).gc.sessions _ _
        readers := by
          intro r'
          show ReaderOk decodeStored _ (Function.update s.readers r .idle r')
          by_cases hr : r' = r
          · subst hr
            rw [Function.update_self]
            trivial
          · rw [Function.update_of_ne hr]
            refine (h.readers r').keeps fun pin' hpin' => ⟨?_, ?_⟩
            · show (VersionState.gcLocked _).snapshots[pin'.id]? = _
              rw [gcLocked_snapshots]
              exact hreg r' hr pin' hpin'
            · have hgc := Keeps.gc (s := { s with
                versions := { s.versions with snapshots := s.versions.snapshots.erase pin.id } })
                (hreg r' hr pin' hpin')
              exact { value := fun _ => rfl, committed := hgc.committed }
        distinct := by
          intro r₁ r₂ pin₁ pin₂ h₁ h₂
          have hold : ∀ r' pin', (Function.update s.readers r .idle r').pin? = some pin' →
              (s.readers r').pin? = some pin' := by
            intro r' pin' hp
            by_cases hr : r' = r
            · subst hr
              rw [Function.update_self] at hp
              cases hp
            · rwa [Function.update_of_ne hr] at hp
          exact h.distinct r₁ r₂ pin₁ pin₂ (hold r₁ pin₁ h₁) (hold r₂ pin₂ h₂)
        answers := h.answers }
  · cases hs

/-! ## Reading one key -/

/-- What the tree holds is the row of the epoch, or is superseded. -/
theorem ResolvesAt.seen {current : Option Row} (h : s.ResolvesAt decodeStored R)
    (hdec : decodeAt decodeStored k s.trees[k]? = .ok current) :
    s.Seen decodeStored R k current := by
  by_cases hlt : R < s.versions.committedEpoch k
  · exact .inr hlt
  · left
    rw [((h k).tree (not_lt.mp hlt)).1] at hdec
    exact hdec

/-- A tree state resolved under a registered snapshot gives the row of its
epoch, and the history is never missing. -/
theorem snapshotLookup_spec {current : Option Row} (h : s.ResolvesAt decodeStored pin₀.readEpoch)
    (hseen : s.Seen decodeStored pin₀.readEpoch k current) (aged : Bool) :
    (∀ row, s.versions.snapshotLookup (E := E) (some pin₀) aged k current = .ok row →
        s.rowAt decodeStored pin₀.readEpoch k = .ok row) ∧
      ∀ e, s.versions.snapshotLookup (E := E) (some pin₀) aged k current = .error e →
        ∀ table, e ≠ .historyMissing table := by
  unfold VersionState.snapshotLookup
  cases aged with
  | true =>
    refine ⟨fun row heq => by simp at heq, fun e heq table => ?_⟩
    simp only [if_true] at heq
    cases heq
    simp
  | false =>
    simp only [Bool.false_eq_true, if_false]
    by_cases hle : s.versions.committedEpoch k ≤ pin₀.readEpoch
    · rw [if_pos hle]
      refine ⟨fun row heq => ?_, fun e heq => by cases heq⟩
      cases heq
      rcases hseen with hrow | hlt
      · exact hrow
      · omega
    · obtain ⟨row, hchain, hval⟩ := (h k).chain (not_le.mp hle)
      rw [if_neg hle, hchain]
      refine ⟨fun row' heq => ?_, fun e heq => by cases heq⟩
      cases heq
      exact hval

theorem Inv.fetch (h : s.Inv decodeStored) (hs : s.fetch decodeStored r k = some s') :
    s'.Inv decodeStored := by
  unfold Engine.fetch at hs
  split at hs
  · next pin hreader =>
    have hpin : (s.readers r).pin? = some pin := by rw [hreader]; rfl
    obtain ⟨hle, hres⟩ := h.registered hpin
    split at hs
    · next current hdec =>
      cases hs
      exact h.move ⟨(h.readers r).registered hpin, hres.seen hdec⟩ hpin.symm
    · next e hdec =>
      cases hs
      exact h.answer hpin hle fun table => by simp
  · cases hs

theorem Inv.lookup {aged : Bool} (h : s.Inv decodeStored) (hs : s.lookup r aged = some s') :
    s'.Inv decodeStored := by
  unfold Engine.lookup at hs
  split at hs
  · next pin k current hreader =>
    cases hs
    have hpin : (s.readers r).pin? = some pin := by rw [hreader]; rfl
    obtain ⟨hle, hres⟩ := h.registered hpin
    have hok := h.readers r
    rw [hreader] at hok
    obtain ⟨hrow, herr⟩ := snapshotLookup_spec hres hok.2 aged
    refine h.answer hpin hle ?_
    cases hlook : s.versions.snapshotLookup (E := E) (some pin) aged k current with
    | ok row => exact hrow row hlook
    | error e => exact herr e hlook
  · cases hs

/-! ## Scanning -/

theorem Inv.startScan {table : String} (h : s.Inv decodeStored)
    (hs : s.startScan r table = some s') : s'.Inv decodeStored := by
  unfold Engine.startScan at hs
  split at hs
  · next pin hreader =>
    cases hs
    have hpin : (s.readers r).pin? = some pin := by rw [hreader]; rfl
    refine h.move ⟨(h.readers r).registered hpin, by simp, by simp, by simp, ?_⟩ hpin.symm
    intro k hk
    exact absurd hk (List.not_lt_nil k)
  · cases hs

theorem decodeRows_spec : ∀ {leaf : List (TKey × Bytes)} {rows : List (Bytes × Row)},
    decodeRows decodeStored leaf = .ok rows →
      rows.map Prod.fst = leaf.map (fun e => e.1.2) ∧
        ∀ e ∈ rows, ∃ key raw, (key, raw) ∈ leaf ∧ key.2 = e.1 ∧
          decodeStored key.1 raw = .ok e.2
  | [], rows, h => by
    cases h
    simp
  | (key, raw) :: leaf, rows, h => by
    rw [decodeRows] at h
    split at h
    · cases h
    · next row hdec =>
      cases hrest : decodeRows decodeStored leaf with
      | error e =>
        rw [hrest] at h
        cases h
      | ok rows' =>
        rw [hrest] at h
        cases h
        obtain ⟨hkeys, hrows⟩ := decodeRows_spec hrest
        refine ⟨by simp [hkeys], fun e he => ?_⟩
        rcases List.mem_cons.mp he with rfl | he
        · exact ⟨key, raw, by simp, rfl, hdec⟩
        · obtain ⟨key', raw', hmem, hk, hd⟩ := hrows e he
          exact ⟨key', raw', by simp [hmem], hk, hd⟩

theorem ResolvesAt.leaf {table : String} {cursor : Bytes} {upTo : Option Bytes}
    {leaf : List (Bytes × Row)} (h : s.ResolvesAt decodeStored R)
    (hdec : decodeRows decodeStored (leafRows s.trees table cursor upTo) = .ok leaf) :
    (leaf.map Prod.fst).Nodup ∧
      (∀ e ∈ leaf, cursor ≤ e.1 ∧ (∀ b ∈ upTo, e.1 < b) ∧
        s.Seen decodeStored R (table, e.1) (some e.2)) ∧
      ∀ k, cursor ≤ k → (∀ b ∈ upTo, k < b) → k ∉ leaf.map Prod.fst →
        s.Seen decodeStored R (table, k) none := by
  obtain ⟨hkeys, hrows⟩ := decodeRows_spec hdec
  refine ⟨hkeys ▸ nodup_leafRows, fun e he => ?_, fun k hk hb hn => ?_⟩
  · obtain ⟨key, raw, hmem, hk, hd⟩ := hrows e he
    obtain ⟨hget, htable, hcur, hbound⟩ := mem_leafRows.mp hmem
    obtain rfl : key = (table, e.1) := Prod.ext htable hk
    refine ⟨hcur, hbound, h.seen ?_⟩
    rw [hget, decodeAt, hd]
    rfl
  · have hnone : s.trees[((table, k) : TKey)]? = none := by
      by_contra hne
      obtain ⟨raw, hraw⟩ := Option.ne_none_iff_exists'.mp hne
      apply hn
      rw [hkeys]
      exact List.mem_map.mpr ⟨((table, k), raw), mem_leafRows.mpr ⟨hraw, rfl, hk, hb⟩, rfl⟩
    refine h.seen ?_
    rw [hnone]
    rfl

theorem Inv.scanLeaf {upTo : Option Bytes} (h : s.Inv decodeStored)
    (hs : s.scanLeaf decodeStored r upTo = some s') : s'.Inv decodeStored := by
  unfold Engine.scanLeaf at hs
  split at hs
  · next pin table cursor rows hreader =>
    have hpin : (s.readers r).pin? = some pin := by rw [hreader]; rfl
    obtain ⟨hle, hres⟩ := h.registered hpin
    have hok := h.readers r
    rw [hreader] at hok
    obtain ⟨hreg, hnd, hlt, hrows, habsent⟩ := hok
    split at hs
    · cases hs
      exact h.answer hpin hle fun table => by simp
    · next leaf hdec =>
      obtain ⟨hleafNd, hleaf, hleafAbsent⟩ := hres.leaf hdec
      -- the leaf begins where the scan stands
      have hall : ((rows ++ leaf).map Prod.fst).Nodup := by
        rw [List.map_append, List.nodup_append]
        refine ⟨hnd, hleafNd, fun a ha b hb heq => ?_⟩
        obtain ⟨e, he, rfl⟩ := List.mem_map.mp ha
        obtain ⟨e', he', rfl⟩ := List.mem_map.mp hb
        exact absurd (hlt e he) (not_lt.mpr (heq ▸ (hleaf e' he').1))
      have hseen : ∀ e ∈ rows ++ leaf,
          s.Seen decodeStored pin.readEpoch (table, e.1) (some e.2) := by
        intro e he
        rcases List.mem_append.mp he with he | he
        · exact hrows e he
        · exact (hleaf e he).2.2
      have hmissing : ∀ k, (∀ b ∈ upTo, k < b) → k ∉ (rows ++ leaf).map Prod.fst →
          s.Seen decodeStored pin.readEpoch (table, k) none := by
        intro k hb hn
        rw [List.map_append, List.mem_append, not_or] at hn
        rcases lt_or_ge k cursor with hk | hk
        · exact habsent k hk hn.1
        · exact hleafAbsent k hk hb hn.2
      split at hs
      · next _ b =>
        split at hs
        · next hcur =>
          cases hs
          refine h.move ⟨hreg, hall, fun e he => ?_, hseen, fun k hk hn => ?_⟩ hpin.symm
          · rcases List.mem_append.mp he with he | he
            · exact lt_of_lt_of_le (hlt e he) hcur
            · exact (hleaf e he).2.1 b rfl
          · exact hmissing k (fun b' hb' => by cases hb'; exact hk) hn
        · cases hs
      · cases hs
        refine h.move ⟨hreg, by simpa using hall, hseen, by simp, fun k hn => ?_⟩ hpin.symm
        exact hmissing k (by simp) (by simpa using hn)
  · cases hs

theorem Inv.resolve {aged : Bool} (h : s.Inv decodeStored) (hs : s.resolve r aged = some s') :
    s'.Inv decodeStored := by
  unfold Engine.resolve at hs
  split at hs
  · next pin table k row rest kept hreader =>
    have hpin : (s.readers r).pin? = some pin := by rw [hreader]; rfl
    obtain ⟨hle, hres⟩ := h.registered hpin
    have hok := h.readers r
    rw [hreader] at hok
    obtain ⟨hreg, hnd, hrest, hkept, habsent⟩ := hok
    obtain ⟨hfound, herr⟩ := snapshotLookup_spec hres (hrest (k, row) (by simp)) aged
    have hrest' : ∀ e ∈ rest, s.Seen decodeStored pin.readEpoch (table, e.1) (some e.2) :=
      fun e he => hrest e (by simp [he])
    split at hs
    · next e hlook =>
      cases hs
      exact h.answer hpin hle (herr e hlook)
    · next hist hlook =>
      cases hs
      refine h.move ⟨hreg, ?_, hrest', fun e he => ?_, fun k' hn => ?_⟩ hpin.symm
      · have hperm : ((rest ++ (kept ++ [(k, hist)])).map Prod.fst).Perm
            (k :: (rest ++ kept).map Prod.fst) := by
          rw [← List.append_assoc, List.map_append]
          exact List.perm_append_singleton _ _
        exact hperm.nodup_iff.mpr hnd
      · rcases List.mem_append.mp he with he | he
        · exact hkept e he
        · rw [List.mem_singleton.mp he]
          exact hfound _ hlook
      · refine habsent k' fun hmem => hn ?_
        simpa [or_assoc, or_comm, or_left_comm] using hmem
    · next hlook =>
      cases hs
      refine h.move ⟨hreg, ?_, hrest', hkept, fun k' hn => ?_⟩ hpin.symm
      · exact (List.nodup_cons.mp hnd).2
      · by_cases hk : k' = k
        · subst hk
          exact .inl (hfound _ hlook)
        · refine habsent k' fun hmem => hn ?_
          simpa [hk] using hmem
  · cases hs

/-- The keys a sweep restores. -/
theorem mem_snapshotScanExtra {vs : VersionState Row} {table : String} {present : List Bytes}
    {extra : List (Bytes × Row)}
    (h : vs.snapshotScanExtra (E := E) (some pin₀) false table present = .ok extra) :
    (extra.map Prod.fst).Nodup ∧
      ∀ k row, (k, row) ∈ extra ↔
        k ∉ present ∧ vs.chainAt (table, k) pin₀.readEpoch = some (some row) := by
  simp only [VersionState.snapshotScanExtra, Bool.false_eq_true, if_false, Except.ok.injEq] at h
  subst h
  constructor
  · rw [List.Nodup, List.pairwise_map, List.pairwise_filterMap]
    refine List.Pairwise.imp ?_ ExtTreeMap.distinct_keys_toList
    rintro ⟨key, chain⟩ ⟨key', chain'⟩ hne b hb b' hb' heq
    refine hne (Std.compare_eq_iff_eq.mpr ?_)
    rw [VersionState.key_of_restored hb, VersionState.key_of_restored hb', heq]
  · intro k row
    rw [List.mem_filterMap]
    constructor
    · rintro ⟨⟨key, chain⟩, hmem, hsome⟩
      simp only at hsome
      split at hsome
      · cases hsome
      · next hin =>
        rw [not_or, not_not] at hin
        split at hsome
        · next row' hwalk =>
          cases hsome
          have hget := ExtTreeMap.mem_toList_iff_getElem?_eq_some.mp hmem
          have hkey : (table, key.2) = key := Prod.ext hin.1.symm rfl
          exact ⟨hin.2, by rw [VersionState.chainAt, hkey, hget]; exact hwalk⟩
        · cases hsome
    · rintro ⟨hn, hchain⟩
      obtain ⟨chain, hget, hwalk⟩ := Option.bind_eq_some_iff.mp hchain
      refine ⟨((table, k), chain), ExtTreeMap.mem_toList_iff_getElem?_eq_some.mpr hget, ?_⟩
      simp [hn, hwalk]

theorem Inv.sweep {aged : Bool} (h : s.Inv decodeStored) (hs : s.sweep r aged = some s') :
    s'.Inv decodeStored := by
  unfold Engine.sweep at hs
  split at hs
  · next pin table kept hreader =>
    cases hs
    have hpin : (s.readers r).pin? = some pin := by rw [hreader]; rfl
    obtain ⟨hle, hres⟩ := h.registered hpin
    have hok := h.readers r
    rw [hreader] at hok
    obtain ⟨-, hnd, -, hkept, habsent⟩ := hok
    refine h.answer hpin hle ?_
    cases aged with
    | true => exact fun table => by simp
    | false =>
      cases hextra : s.versions.snapshotScanExtra (E := E) (some pin) false table
          (kept.map Prod.fst) with
      | error e => simp [VersionState.snapshotScanExtra] at hextra
      | ok extra =>
        obtain ⟨hend, hmem⟩ := mem_snapshotScanExtra hextra
        have hperm : (mergeExtra kept extra).Perm (kept ++ extra) := by
          unfold mergeExtra
          split
          · next hempty => rw [List.isEmpty_iff.mp hempty, List.append_nil]
          · exact List.mergeSort_perm _ _
        refine ⟨?_, fun k row => ?_⟩
        · rw [(hperm.map Prod.fst).nodup_iff, List.map_append, List.nodup_append]
          refine ⟨hnd, hend, fun a ha b hb heq => ?_⟩
          obtain ⟨e, he, rfl⟩ := List.mem_map.mp hb
          exact ((hmem e.1 e.2).mp he).1 (heq ▸ ha)
        · rw [hperm.mem_iff, List.mem_append, hmem]
          constructor
          · rintro (hin | ⟨_, hchain⟩)
            · exact hkept (k, row) hin
            · exact (hres (table, k)).decodeAt_of_chainAt hchain
          · intro hrow
            by_cases hin : k ∈ kept.map Prod.fst
            · obtain ⟨e, he, rfl⟩ := List.mem_map.mp hin
              have hsame := (hkept e he).symm.trans hrow
              cases hsame
              exact .inl he
            · right
              rcases habsent k (by simpa using hin) with hnone | hlt
              · rw [hnone] at hrow
                cases hrow
              · obtain ⟨row', hchain, hval⟩ := (hres (table, k)).chain hlt
                have hsame : Except.ok row' = Except.ok (some row) := hval.symm.trans hrow
                cases hsame
                exact ⟨hin, hchain⟩
  · cases hs

/-! ## Runs -/

theorem coreOk_start (base : Trees) : (start base : Engine Row E).CoreOk decodeStored where
  ordered := VersionState.ordered_new
  bounded := VersionState.bounded_new
  queue := .nil
  queue_above c hc := by cases hc
  recorded_lt := Nat.zero_lt_one
  phase := { visible := fun c hc => (by cases hc), tree := fun _ => rfl }
  kept _ _ _ := rfl
  current _ k :=
    { tree := fun _ => ⟨rfl, VersionState.bounded_new.chainAt_eq_none k⟩
      chain := fun hlt => absurd hlt (not_lt.mpr (VersionState.bounded_new.committed k)) }
  pinned id R hid := by simp [start, VersionState.new] at hid

theorem inv_start (base : Trees) : (start base : Engine Row E).Inv decodeStored where
  core := coreOk_start base
  readers _ := trivial
  distinct _ _ _ _ h := by cases h
  answers a ha := by cases ha

/-- Every step that meets the condition keeps the invariant. -/
theorem Inv.step (h : s.Inv decodeStored) (hs : s.SparingStep decodeStored s') :
    s'.Inv decodeStored := by
  obtain ⟨a, hstep, hsparing⟩ := hs
  cases a with
  | append batch =>
    cases hstep
    exact h.pipeline (h.core.append batch) rfl rfl le_rfl (fun _ _ _ => rfl) fun id R hid =>
      ⟨hid, { value := fun _ => rfl, committed := fun _ hk => hk }⟩
  | appendFailed =>
    cases hstep
    exact h.pipeline h.core.appendFailed rfl rfl le_rfl (fun _ _ _ => rfl) fun id R hid =>
      ⟨hid, { value := fun _ => rfl, committed := fun _ hk => hk }⟩
  | record => exact h.record hstep
  | apply => exact h.apply hstep
  | publish => exact h.publish hstep
  | finish => exact h.finish hstep
  | gcVersions =>
    cases hstep
    exact h.gcVersions
  | pin r isStatement => exact h.pin (hsparing ⟨r, isStatement, rfl⟩) hstep
  | unpin r => exact h.unpin hstep
  | fetch r k => exact h.fetch hstep
  | lookup r aged => exact h.lookup hstep
  | startScan r table => exact h.startScan hstep
  | scanLeaf r upTo => exact h.scanLeaf hstep
  | resolve r aged => exact h.resolve hstep
  | sweep r aged => exact h.sweep hstep

/-- Snapshot reads are consistent in every run in which no snapshot is pinned
while the commit being installed has lost version entries. -/
theorem pinned_reads_consistent (decodeStored : String → Bytes → Except E Row) (base : Trees)
    {s : Engine Row E}
    (hrun : ReflTransGen (SparingStep decodeStored) (start base) s) :
    ∀ a ∈ s.answers, a.Consistent (s.rowAt decodeStored) := fun a ha =>
  ((Transition.invariant (inv_start base) (fun _ _ h hs => h.step hs) hrun).answers a ha).2

/-! ## Two runs -/

/-- A table of integers by integer id. -/
def pointsSchema : Schema where
  columns :=
    [{ name := "id", ctype := .int, nullable := false, autoIncrement := false, defaultValue := none },
      { name := "v", ctype := .int, nullable := true, autoIncrement := false, defaultValue := none }]
  pkIdx := 0

/-- The rows of the table decode under its schema. -/
def pointsDecode (_ : String) (raw : Bytes) : Except Error (List Datum) :=
  decodeRow pointsSchema raw

/-- The row with id 1. -/
def pointsKey : TKey := ("default.t", 1 :: keyInt 1)

def pointsBase : Trees := (∅ : Trees).insert pointsKey (encodeRow [.int 1, .int 10])

/-- `UPDATE t SET v = 20 WHERE id = 1`. -/
def pointsUpdate : Batch where
  writes := [(pointsKey, some (encodeRow [.int 1, .int 20]))]
  nodup := List.nodup_singleton _

/-- The single rows that reads have returned, with their epochs. -/
def foundRows (s : Engine (List Datum) Error) : List (Nat × Option (List Datum)) :=
  s.answers.filterMap fun
    | .row readEpoch _ (.ok row) => some (readEpoch, row)
    | _ => none

/-- A step of a schedule that keeps the condition. -/
def sparing (a : Action) (s : Engine (List Datum) Error) : Option (Engine (List Datum) Error) :=
  if s.historyKept then s.step pointsDecode a else none

/-- A reader pins, the row is updated, the reader reads it and scans the table. -/
def updateUnderPin : List Action :=
  [.pin 0 false, .append pointsUpdate, .record, .apply, .fetch 0 pointsKey, .publish, .finish,
    .lookup 0 false, .startScan 0 "default.t", .scanLeaf 0 none, .resolve 0 false, .sweep 0 false]

theorem updateUnderPin_answers :
    (Transition.exec sparing (fun _ => true) updateUnderPin (start pointsBase)).map
      (fun s => (s.answers.length, foundRows s)) =
        some (2, [(0, some [.int 1, .int 10])]) := by
  decide +kernel

/-- The reader that pinned first still sees the old row. -/
theorem pinned_reads_consistent_of_update :
    ∃ s : Engine (List Datum) Error,
      ReflTransGen (SparingStep pointsDecode) (start pointsBase) s ∧
        foundRows s = [(0, some [.int 1, .int 10])] ∧
        ∀ a ∈ s.answers, a.Consistent (s.rowAt pointsDecode) := by
  obtain ⟨s, hexec, hfound⟩ := Option.map_eq_some_iff.mp updateUnderPin_answers
  have hnext : ∀ a s s', sparing a s = some s' → SparingStep pointsDecode s s' := by
    intro a s s' hab
    unfold sparing at hab
    split at hab
    · next hkept => exact ⟨a, hab, fun _ => hkept⟩
    · cases hab
  have hrun := ReflTransGen.mono (fun _ _ hab => hab.1) _ _
    (Transition.exec_reaches hnext hexec)
  exact ⟨s, hrun, (Prod.mk.injEq .. ▸ hfound).2,
    pinned_reads_consistent pointsDecode pointsBase hrun⟩

/-- The first reader ends between the recording of the update and its install,
and a second one pins then. -/
def pinAfterClear : List Action :=
  [.pin 0 true, .append pointsUpdate, .record, .unpin 0, .pin 1 true, .apply,
    .fetch 1 pointsKey, .lookup 1 false]

/-- Some read of one row returned another row than that of its epoch. -/
def misread (s : Engine (List Datum) Error) : Bool :=
  s.answers.any fun
    | .row readEpoch k (.ok row) => (s.rowAt pointsDecode readEpoch k).toOption ≠ some row
    | _ => false

theorem misread_spec {s : Engine (List Datum) Error} (h : misread s = true) :
    ∃ a ∈ s.answers, ¬ a.Consistent (s.rowAt pointsDecode) := by
  obtain ⟨a, ha, hbad⟩ := List.any_eq_true.mp h
  refine ⟨a, ha, fun hcons => ?_⟩
  match a with
  | .row readEpoch k (.ok row) =>
    have heq : s.rowAt pointsDecode readEpoch k = .ok row := hcons
    simp [heq, Except.toOption] at hbad
  | .row _ _ (.error _) => simp at hbad
  | .scan _ _ _ => simp at hbad

theorem pinAfterClear_misreads :
    (Transition.exec (fun a s => s.step pointsDecode a) (fun _ => true) pinAfterClear
      (start pointsBase)).map (fun s => (misread s, foundRows s)) =
        some (true, [(0, some [.int 1, .int 20])]) := by
  decide +kernel

/-- A snapshot pinned at epoch 0 reads the row of a commit that is not
published, because the end of another session's statement found no snapshot
registered and dropped the history of that commit. -/
theorem pinned_read_sees_unpublished :
    ∃ s : Engine (List Datum) Error,
      ReflTransGen (Steps pointsDecode) (start pointsBase) s ∧
        ∃ a ∈ s.answers, ¬ a.Consistent (s.rowAt pointsDecode) := by
  obtain ⟨s, hexec, hfound⟩ := Option.map_eq_some_iff.mp pinAfterClear_misreads
  have hnext : ∀ a s s', s.step pointsDecode a = some s' → Steps pointsDecode s s' :=
    fun a _ _ h => ⟨a, h⟩
  exact ⟨s, ReflTransGen.mono (fun _ _ hab => hab.1) _ _
    (Transition.exec_reaches hnext hexec), misread_spec (Prod.mk.injEq .. ▸ hfound).1⟩

end Engine

end HenchDB.Mvcc
