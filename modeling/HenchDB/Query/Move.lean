import HenchDB.Query.Update
import HenchDB.Wal.Record

/-!
# `UPDATE` of the key

An `UPDATE` that gives rows another key should move them.  The path over the visible rows
stages the new row under the new key and leaves the old one where it is; the point routes
put the new row under the old key.  No path looks for a row that has the new key.  So the
rows are moved if and only if none of them gets another key, and the route leads to all
rows that change and to no other (`update_moves_iff`).

The entries of an index are followed key by key (`Table.ExactAt`).  A write changes those of
its own key only, and it keeps them exact unless the column of the old row compares equal to
that of the new one and is encoded otherwise, as a float zero of the other sign is
(`Table.exactAt_applyRaw`).
-/

namespace HenchDB.Table

open Std (ExtTreeMap)

variable {t t' : Table} {key full k : Bytes} {row new old : List Datum} {pk : Datum}

/-! ## The entries of one key -/

/-- Each index is on its column and holds nothing but entries. -/
def Formed (t : Table) : Prop :=
  ∀ idx ∈ t.indexes, t.schema.indexOf idx.info.column = some idx.colIdx ∧
    ∀ e, idx.tree.contains e = true → ∃ row k, e = entry row idx.colIdx k

def Holds (t : Table) (k : Bytes) (row : List Datum) : Prop :=
  ∃ raw, t.tree[k]? = some raw ∧ decodeRow t.schema raw = .ok row

/-- Of the entries of a key each index holds the one of the stored row. -/
def ExactAt (t : Table) (k : Bytes) : Prop :=
  ∀ idx ∈ t.indexes, ∀ row, idx.tree.contains (entry row idx.colIdx k) = true ↔
    ∃ row', t.Holds k row' ∧ entry row' idx.colIdx k = entry row idx.colIdx k

theorem exact_iff_formed : t.Exact ↔ t.Formed ∧ ∀ k, t.ExactAt k := by
  constructor
  · intro h
    refine ⟨fun idx hidx => ⟨(h idx hidx).1, fun e he => ?_⟩, fun k idx hidx row => ?_⟩
    · obtain ⟨k, _, row, -, -, rfl⟩ := ((h idx hidx).2 e).mp he
      exact ⟨row, k, rfl⟩
    · rw [(h idx hidx).2]
      constructor
      · rintro ⟨k', raw, row', hraw, hrow', heq⟩
        obtain rfl := entry_inj heq
        exact ⟨row', ⟨raw, hraw, hrow'⟩, heq.symm⟩
      · rintro ⟨row', ⟨raw, hraw, hrow'⟩, heq⟩
        exact ⟨k, raw, row', hraw, hrow', heq.symm⟩
  · rintro ⟨hformed, hexact⟩ idx hidx
    refine ⟨(hformed idx hidx).1, fun e => ?_⟩
    constructor
    · intro he
      obtain ⟨row, k, rfl⟩ := (hformed idx hidx).2 e he
      obtain ⟨row', ⟨raw, hraw, hrow'⟩, heq⟩ := (hexact k idx hidx row).mp he
      exact ⟨k, raw, row', hraw, hrow', heq.symm⟩
    · rintro ⟨k, raw, row, hraw, hrow, rfl⟩
      exact (hexact k idx hidx row).mpr ⟨row, ⟨raw, hraw, hrow⟩, rfl⟩

def putIndex (t : Table) (key : Bytes) (pk : Datum) (new : List Datum) (i : SecondaryIndex) :
    SecondaryIndex :=
  match t.tree[key]?.bind fun prev => attempt (t.decodeStored prev) with
  | some old => i.replace pk old new
  | none => i.add pk new

/-- The table after a put of a row under a key that is a key. -/
theorem applyRaw_eq (hkey : encodeKey pk = .ok key) (hnew : decodeRow t.schema full = .ok new)
    (hput : t.applyRaw key full = .ok t') :
    ∃ pk', encodeKey pk' = .ok key ∧ t'.info = t.info ∧ t'.tree = t.tree.insert key full ∧
      t'.indexes = t.indexes.map (t.putIndex key pk' new) := by
  obtain ⟨pk', hpk, hkey'⟩ := attemptKey_encodeKey hkey
  unfold Table.applyRaw at hput
  split at hput
  · next hempty =>
    cases hput
    exact ⟨pk', hkey', rfl, rfl, by rw [List.isEmpty_iff.mp hempty]; rfl⟩
  · rw [hpk] at hput
    cases hput
    refine ⟨pk', hkey', rfl, rfl, ?_⟩
    show t.indexesPut key full (some pk') = _
    unfold indexesPut
    simp only [attempt_ok hnew]
    unfold putIndex
    cases t.tree[key]?.bind fun prev => attempt (t.decodeStored prev) <;> rfl

variable {i : SecondaryIndex}

@[simp]
theorem putIndex_colIdx : (t.putIndex key pk new i).colIdx = i.colIdx := by
  unfold putIndex
  split
  · exact SecondaryIndex.replace_colIdx
  · exact SecondaryIndex.add_colIdx

theorem putIndex_info : (t.putIndex key pk new i).info = i.info := by
  unfold putIndex
  split
  · exact SecondaryIndex.replace_info _ _ _ _
  · exact SecondaryIndex.add_info _ _ _

/-- The column of the row that is replaced compares equal and is encoded alike, or does not
compare equal. -/
def Replaces (old new : List Datum) (i : Nat) : Prop :=
  (column old i).eqv (column new i) = true →
    encodeSecKeyPrefix (column old i) = encodeSecKeyPrefix (column new i)

theorem entry_eq_iff {i : Nat} : entry old i k = entry new i k ↔
    encodeSecKeyPrefix (column old i) = encodeSecKeyPrefix (column new i) := List.append_left_inj k

/-- Entries after a put: other keys keep theirs. -/
theorem contains_putIndex_ne (hkey : encodeKey pk = .ok key) (hne : k ≠ key) :
    (t.putIndex key pk new i).tree.contains (entry row i.colIdx k) = true ↔
      i.tree.contains (entry row i.colIdx k) = true := by
  have hother : ∀ new : List Datum, entry row i.colIdx k ≠ entry new i.colIdx key :=
    fun _ heq => hne (entry_inj heq)
  unfold putIndex
  split
  · next old _ =>
    rw [SecondaryIndex.replace]
    split
    · exact Iff.rfl
    · rw [SecondaryIndex.contains_add hkey, SecondaryIndex.remove_colIdx, SecondaryIndex.remove_tree hkey,
        SecondaryIndex.contains_erase_iff]
      simp [hother]
  · rw [SecondaryIndex.contains_add hkey]
    simp [hother]

theorem formed_putIndex (hkey : encodeKey pk = .ok key) {e : Bytes}
    (he : (t.putIndex key pk new i).tree.contains e = true) :
    e = entry new i.colIdx key ∨ i.tree.contains e = true := by
  unfold putIndex at he
  split at he
  · rw [SecondaryIndex.replace] at he
    split at he
    · exact .inr he
    · rw [SecondaryIndex.contains_add hkey, SecondaryIndex.remove_colIdx, SecondaryIndex.remove_tree hkey,
        SecondaryIndex.contains_erase_iff] at he
      exact he.imp_right And.right
  · exact (SecondaryIndex.contains_add hkey).mp he

/-- The entries of the key that is written. -/
theorem contains_putIndex_self (hi : i ∈ t.indexes) (hkey : encodeKey pk = .ok key)
    (hread : ∀ raw, t.tree[key]? = some raw → ∃ row, decodeRow t.schema raw = .ok row)
    (hexact : t.ExactAt key) :
    (∀ row, (t.putIndex key pk new i).tree.contains (entry row i.colIdx key) = true ↔
      entry new i.colIdx key = entry row i.colIdx key) ↔
      ∀ old, t.Holds key old → Replaces old new i.colIdx := by
  unfold putIndex
  cases hraw : t.tree[key]? with
  | none =>
    refine iff_of_true (fun row => ?_) fun old ⟨raw, hraw', _⟩ => by rw [hraw] at hraw'; cases hraw'
    have hnone : ¬ i.tree.contains (entry row i.colIdx key) = true := by
      rw [hexact i hi]
      rintro ⟨_, ⟨raw, hraw', -⟩, -⟩
      rw [hraw] at hraw'
      cases hraw'
    show (i.add pk new).tree.contains _ = true ↔ _
    rw [SecondaryIndex.contains_add hkey, or_iff_left hnone, eq_comm]
  | some raw =>
    obtain ⟨old, hold⟩ := hread raw hraw
    have hstored : (some raw).bind (fun prev => attempt (t.decodeStored prev)) = some old := by
      rw [Option.bind_some, Table.decodeStored, hold]
      rfl
    have hholds : ∀ row, t.Holds key row ↔ row = old := by
      intro row
      constructor
      · rintro ⟨raw', hraw', hrow⟩
        cases hraw.symm.trans hraw'
        exact Except.ok.inj (hrow.symm.trans hold)
      · rintro rfl
        exact ⟨raw, hraw, hold⟩
    have hcontains : ∀ row, i.tree.contains (entry row i.colIdx key) = true ↔
        entry old i.colIdx key = entry row i.colIdx key := by
      intro row
      rw [hexact i hi]
      simp [hholds]
    simp only [hstored, hholds, forall_eq, Replaces]
    rw [SecondaryIndex.replace]
    cases heqv : (column old i.colIdx).eqv (column new i.colIdx) with
    | true =>
      simp only [if_true, hcontains, forall_const]
      rw [← entry_eq_iff (k := key)]
      constructor
      · exact fun h => (h new).mpr rfl
      · intro h row
        rw [h]
    | false =>
      refine iff_of_true (fun row => ?_) fun h => by cases h
      rw [if_neg (by simp), SecondaryIndex.contains_add hkey, SecondaryIndex.remove_colIdx,
        SecondaryIndex.remove_tree hkey, SecondaryIndex.contains_erase_iff, hcontains]
      constructor
      · rintro (h | ⟨hne, heq⟩)
        · exact h.symm
        · exact absurd heq.symm hne
      · exact fun h => .inl h.symm

/-- A put keeps the entries of its key exact unless it replaces a value by one that compares equal
and is encoded otherwise. -/
theorem exactAt_applyRaw (hformed : t.Formed) (hkey : encodeKey pk = .ok key)
    (hnew : decodeRow t.schema full = .ok new)
    (hread : ∀ raw, t.tree[key]? = some raw → ∃ row, decodeRow t.schema raw = .ok row)
    (hput : t.applyRaw key full = .ok t') :
    t'.Formed ∧ (∀ k, k ≠ key → (t'.ExactAt k ↔ t.ExactAt k)) ∧
      (t.ExactAt key → (t'.ExactAt key ↔
        ∀ i ∈ t.indexes, ∀ old, t.Holds key old → Replaces old new i.colIdx)) ∧
      (t'.indexes.map SecondaryIndex.colIdx = t.indexes.map SecondaryIndex.colIdx) := by
  obtain ⟨pk', hkey', hinfo, htree, hindexes⟩ := applyRaw_eq hkey hnew hput
  have hschema : t'.schema = t.schema := congrArg TableDef.schema hinfo
  have hholds : ∀ k row, k ≠ key → (t'.Holds k row ↔ t.Holds k row) := by
    intro k row hne
    rw [Holds, Holds, htree, hschema, ExtTreeMap.getElem?_insert,
      if_neg fun heq => hne (Std.compare_eq_iff_eq.mp heq).symm]
  have hself : ∀ row, t'.Holds key row ↔ row = new := by
    intro row
    rw [Holds, htree, hschema, ExtTreeMap.getElem?_insert_self]
    constructor
    · rintro ⟨raw, hraw, hrow⟩
      cases hraw
      exact Except.ok.inj (hrow.symm.trans hnew)
    · rintro rfl
      exact ⟨full, rfl, hnew⟩
  refine ⟨?_, fun k hne => ?_, fun hexact => ?_, ?_⟩
  · intro i' hi'
    rw [hindexes] at hi'
    obtain ⟨i, hi, rfl⟩ := List.mem_map.mp hi'
    obtain ⟨hcolumn, hentries⟩ := hformed i hi
    refine ⟨by rw [hschema, putIndex_info, putIndex_colIdx]; exact hcolumn, fun e he => ?_⟩
    rw [putIndex_colIdx]
    rcases formed_putIndex hkey' he with rfl | he
    · exact ⟨new, key, rfl⟩
    · exact hentries e he
  · simp only [ExactAt, hindexes, List.forall_mem_map, putIndex_colIdx, contains_putIndex_ne hkey' hne,
      hholds k _ hne]
  · simp only [ExactAt, hindexes, List.forall_mem_map, putIndex_colIdx, hself, exists_eq_left]
    exact forall₂_congr fun i hi => contains_putIndex_self hi hkey' hread hexact
  · rw [hindexes, List.map_map]
    exact List.map_congr_left fun i _ => putIndex_colIdx

/-! ## The writes of a commit -/

/-- The install of the rows that a commit puts into a table. -/
def install (t : Table) (writes : List (Bytes × List Datum)) : Except Fault Table :=
  writes.foldlM (fun t w => t.applyRaw w.1 (encodeRow w.2)) t

theorem applyRaw_tree (hput : t.applyRaw key full = .ok t') :
    t'.info = t.info ∧ t'.tree = t.tree.insert key full := by
  unfold Table.applyRaw at hput
  split at hput
  · cases hput
    exact ⟨rfl, rfl⟩
  · cases hpk : attemptKey key with
    | error e =>
      rw [hpk] at hput
      cases hput
    | ok pk =>
      rw [hpk] at hput
      cases hput
      exact ⟨rfl, rfl⟩

/-- What a key holds after a commit. -/
theorem install_tree : ∀ {writes : List (Bytes × List Datum)} {t t' : Table}, (writes.map Prod.fst).Nodup →
    t.install writes = .ok t' → t'.info = t.info ∧
      (∀ w ∈ writes, t'.tree[w.1]? = some (encodeRow w.2)) ∧
        ∀ k, k ∉ writes.map Prod.fst → t'.tree[k]? = t.tree[k]?
  | [], t, t', _, h => by
    cases h
    simp
  | (key, new) :: writes, t, t', hdistinct, h => by
    rw [install, List.foldlM_cons] at h
    obtain ⟨t₁, hput, h⟩ := Outcome.bind_ok h
    obtain ⟨hnew, hdistinct⟩ := List.nodup_cons.mp hdistinct
    obtain ⟨hinfo, htree⟩ := applyRaw_tree hput
    obtain ⟨hinfo', hwritten, hkept⟩ := install_tree hdistinct h
    refine ⟨hinfo'.trans hinfo, fun w hw => ?_, fun k hk => ?_⟩
    · rcases List.mem_cons.mp hw with rfl | hw
      · rw [hkept _ hnew, htree, ExtTreeMap.getElem?_insert_self]
      · exact hwritten w hw
    · rw [List.map_cons, List.mem_cons, not_or] at hk
      rw [hkept k hk.2, htree, ExtTreeMap.getElem?_insert,
        if_neg fun heq => hk.1 (Std.compare_eq_iff_eq.mp heq).symm]

/-- A row that a commit may put: it is read back as it was, and its key is one. -/
structure Writable (schema : Schema) (w : Bytes × List Datum) : Prop where
  row : decodeRow schema (encodeRow w.2) = .ok w.2
  key : ∃ pk, encodeKey pk = .ok w.1

/-- A commit keeps the indexes exact unless one of its puts replaces a value by one that
compares equal and is encoded otherwise. -/
theorem exact_install : ∀ {writes : List (Bytes × List Datum)} {t t' : Table}, (writes.map Prod.fst).Nodup →
    (∀ w ∈ writes, Writable t.schema w) → t.Formed →
    (∀ w ∈ writes, t.ExactAt w.1 ∧ ∀ raw, t.tree[w.1]? = some raw → ∃ row, decodeRow t.schema raw = .ok row) →
    t.install writes = .ok t' →
    (t'.Exact ↔ (∀ k, k ∉ writes.map Prod.fst → t.ExactAt k) ∧
      ∀ w ∈ writes, ∀ i ∈ t.indexes, ∀ old, t.Holds w.1 old → Replaces old w.2 i.colIdx)
  | [], t, t', _, _, hformed, _, h => by
    cases h
    simp [exact_iff_formed, hformed]
  | (key, new) :: writes, t, t', hdistinct, hwritable, hformed, hexact, h => by
    rw [install, List.foldlM_cons] at h
    obtain ⟨t₁, hput, h⟩ := Outcome.bind_ok h
    obtain ⟨hnew, hdistinct⟩ := List.nodup_cons.mp hdistinct
    obtain ⟨hexactKey, hread⟩ := hexact (key, new) List.mem_cons_self
    obtain ⟨pk, hkey⟩ := (hwritable (key, new) List.mem_cons_self).key
    have hrow := (hwritable (key, new) List.mem_cons_self).row
    obtain ⟨hformed₁, hother, hself, hcols⟩ := exactAt_applyRaw hformed hkey hrow hread hput
    obtain ⟨-, -, hinfo, htree, -⟩ := applyRaw_eq hkey hrow hput
    have hschema : t₁.schema = t.schema := congrArg TableDef.schema hinfo
    have hne : ∀ w ∈ writes, w.1 ≠ key := fun w hw heq => hnew (List.mem_map.mpr ⟨w, hw, heq⟩)
    have hget : ∀ w ∈ writes, t₁.tree[w.1]? = t.tree[w.1]? := by
      intro w hw
      rw [htree, ExtTreeMap.getElem?_insert, if_neg fun heq => hne w hw (Std.compare_eq_iff_eq.mp heq).symm]
    have hrest := exact_install hdistinct
      (fun w hw => by rw [hschema]; exact hwritable w (List.mem_cons_of_mem _ hw))
      hformed₁ (fun w hw => by
        rw [hother w.1 (hne w hw), hget w hw, hschema]
        exact hexact w (List.mem_cons_of_mem _ hw)) h
    have hindexes : ∀ {w : Bytes × List Datum}, w ∈ writes →
        ((∀ i ∈ t₁.indexes, ∀ old, t₁.Holds w.1 old → Replaces old w.2 i.colIdx) ↔
          ∀ i ∈ t.indexes, ∀ old, t.Holds w.1 old → Replaces old w.2 i.colIdx) := by
      intro w hw
      have hcol : ∀ P : Nat → Prop, (∀ i ∈ t₁.indexes, P i.colIdx) ↔ ∀ i ∈ t.indexes, P i.colIdx := by
        intro P
        rw [← List.forall_mem_map, hcols, List.forall_mem_map]
      rw [hcol fun c => ∀ old, t₁.Holds w.1 old → Replaces old w.2 c]
      simp only [Holds, hget w hw, hschema]
    have hall : (∀ w ∈ writes, ∀ i ∈ t₁.indexes, ∀ old, t₁.Holds w.1 old → Replaces old w.2 i.colIdx) ↔
        ∀ w ∈ writes, ∀ i ∈ t.indexes, ∀ old, t.Holds w.1 old → Replaces old w.2 i.colIdx :=
      forall₂_congr fun w hw => hindexes hw
    rw [hrest, hall, List.forall_mem_cons, ← hself hexactKey]
    simp only [List.map_cons, List.mem_cons, not_or]
    constructor
    · rintro ⟨houtside, hkept⟩
      exact ⟨fun k hk => (hother k hk.1).mp (houtside k hk.2), houtside key hnew, hkept⟩
    · rintro ⟨houtside, hkey', hkept⟩
      refine ⟨fun k hk => ?_, hkept⟩
      by_cases heq : k = key
      · rw [heq]
        exact hkey'
      · exact (hother k heq).mpr (houtside k ⟨heq, hk⟩)

end HenchDB.Table

namespace HenchDB.Query

open Std (ExtTreeMap)
open Outcome
open HenchDB.Session (Staged StagedWrite assignColumns)

/-! ## Moved rows -/

/-- The rows that a commit puts into the table, in the order of its map. -/
structure Listed (t : Table) (staged : Staged) (writes : List (Bytes × Row)) : Prop where
  nodup : (writes.map Prod.fst).Nodup
  mem : ∀ key row, (key, row) ∈ writes ↔ ∃ w, staged[(t.info.name, key)]? = some w ∧ w.row = some row

/-- The end of `commit_txn` and of `commit_single_update` for one table. -/
def commitRows (t : Table) (writes : List (Bytes × Row)) : Except Fault Table :=
  if writes.any fun w => maxValueLen < (encodeRow w.2).length then
    .error (.err (.notSupported "row too large"))
  else t.install writes

section
variable (ctx : UpdateContext) (autocommit : Bool) (db : Database) (session : Session) (t : Table)
  (stmt : UpdateStmt)

/-- Every selected row stands under its new key and under no other one, the other rows are what
they were, there are as many rows as before, and the indexes of the table that a commit leaves are
exact. -/
structure Moves (route : Route) (staged : Staged) (t' : Table) : Prop where
  matched : ∀ key row, Selects ctx db session t stmt key row → ∃ row' key',
    setRow t.schema (stmt.assignments t.schema) row = .ok row' ∧ t.keyOf row' = .ok key' ∧
      after autocommit db session t route staged key' = some row' ∧
        (key' ≠ key → after autocommit db session t route staged key = none)
  others : ∀ key, (∀ row, ¬ Selects ctx db session t stmt key row) →
    (∀ key₀ row row', Selects ctx db session t stmt key₀ row →
      setRow t.schema (stmt.assignments t.schema) row = .ok row' → t.keyOf row' ≠ .ok key) →
      after autocommit db session t route staged key = seen db session t key
  count : {key | (after autocommit db session t route staged key).isSome}.encard =
    {key | (seen db session t key).isSome}.encard
  indexes : route.commits autocommit session = true → t'.Exact

/-- The row that a route writes under a key, while the selected rows keep their keys. -/
def Puts : Route → Bytes → Row → Prop
  | .nothing, _, _ => False
  | .point key set, key', new => key' = key ∧ ∃ old, stored t key = some old ∧
      (assignColumns old set).2 = true ∧ setRow t.schema set old = .ok new
  | .rows path, key, new => ∃ row, Selects ctx db session t stmt key row ∧ Reaches db session t path key ∧
      (assignColumns row (stmt.assignments t.schema)).2 = true ∧
        setRow t.schema (stmt.assignments t.schema) row = .ok new

/-- No stored value of an indexed column is replaced by one that compares equal and is encoded
otherwise. -/
def KeepsEntries (route : Route) : Prop :=
  route.commits autocommit session = true → ∀ key new, Puts ctx db session t stmt route key new →
    ∀ old, stored t key = some old → ∀ i ∈ t.indexes, Table.Replaces old new i.colIdx

end

section
variable {ctx : UpdateContext} {autocommit : Bool} {db : Database} {session : Session} {t t' : Table}
  {stmt : UpdateStmt} {route : Route} {staged : Staged} {writes : List (Bytes × Row)}
  {key : Bytes} {row : Row}

theorem writes_updateVisible_free (h : WellKept db session t) {path : AccessPath}
    (hfk : t.info.foreignKeys = []) (hknown : db.catalog.tables[t.info.name]? = some t)
    (hpath : chooseAccessPath ctx.dear t stmt.selection = .ok path)
    (hrun : updateVisible ctx db session t stmt.selection (stmt.assignments t.schema) = .ok staged) :
    Writes ctx db session t stmt path staged := by
  obtain ⟨rows, hrows, hrun⟩ := bind_ok hrun
  obtain ⟨staged₀, hstaged, hrun⟩ := bind_ok hrun
  obtain ⟨pairs, -, hrun⟩ := bind_ok hrun
  have hwrites := writes_updateRows h hpath (Session.mapError_ok hrows) (Session.mapError_ok hstaged)
  have hsame : ∀ key : Bytes, staged[(t.info.name, key)]? = staged₀[(t.info.name, key)]? := by
    intro key
    split at hrun
    · refine Fk.fkCheckUpdated_elsewhere (fun t' ht' => ?_) hrun key
      cases hknown.symm.trans ht'
      exact hfk
    · rw [Except.ok.inj hrun]
  refine ⟨fun key w hw => hwrites.back key w ((hsame key).symm.trans hw),
    fun key₀ row hselects hreaches hflag => ?_⟩
  obtain ⟨row', key, w, hrow', hkey, hw⟩ := hwrites.forth key₀ row hselects hreaches hflag
  exact ⟨row', key, w, hrow', hkey, (hsame key).trans hw⟩

theorem wrote_row (hwrote : Wrote ctx db session t stmt route staged) {w : StagedWrite}
    (hw : staged[(t.info.name, key)]? = some w) : ∃ row, w.row = some row := by
  cases route with
  | nothing =>
    obtain rfl : staged = ∅ := hwrote
    simp at hw
  | point key' set =>
    obtain ⟨-, -, row', -, -, -, hw'⟩ := PointWrites.back hwrote _ w hw
    exact ⟨row', hw'⟩
  | rows path =>
    obtain ⟨-, -, row', -, -, -, -, -, hw'⟩ := Writes.back hwrote _ w hw
    exact ⟨row', hw'⟩

/-- So a row that is seen does not go away. -/
theorem after_isSome (hwrote : Wrote ctx db session t stmt route staged) (hsees : Sees db session t key row) :
    ∃ row', after autocommit db session t route staged key = some row' := by
  rw [after]
  split
  · exact ⟨row, seen_eq_some.mpr hsees⟩
  · cases hw : staged[(t.info.name, key)]? with
    | some w => exact wrote_row hwrote hw
    | none => exact ⟨row, seen_eq_some.mpr hsees⟩

/-- The rows are moved exactly if they are assigned and keep their keys. -/
theorem moved_iff (hwrote : Wrote ctx db session t stmt route staged) :
    ((∀ key row, Selects ctx db session t stmt key row → ∃ row' key',
        setRow t.schema (stmt.assignments t.schema) row = .ok row' ∧ t.keyOf row' = .ok key' ∧
          after autocommit db session t route staged key' = some row' ∧
            (key' ≠ key → after autocommit db session t route staged key = none)) ∧
      (∀ key, (∀ row, ¬ Selects ctx db session t stmt key row) →
        (∀ key₀ row row', Selects ctx db session t stmt key₀ row →
          setRow t.schema (stmt.assignments t.schema) row = .ok row' → t.keyOf row' ≠ .ok key) →
          after autocommit db session t route staged key = seen db session t key) ∧
      {key | (after autocommit db session t route staged key).isSome}.encard =
        {key | (seen db session t key).isSome}.encard) ↔
      Assigns ctx autocommit db session t stmt route staged ∧ Keeps ctx db session t stmt := by
  constructor
  · rintro ⟨hmatched, hothers, -⟩
    have hown : ∀ key row, Selects ctx db session t stmt key row → ∃ row',
        setRow t.schema (stmt.assignments t.schema) row = .ok row' ∧ t.keyOf row' = .ok key ∧
          after autocommit db session t route staged key = some row' := by
      intro key row hselects
      obtain ⟨row', key', hrow', hkey', hafter, hgone⟩ := hmatched key row hselects
      by_cases hsame : key' = key
      · subst hsame
        exact ⟨row', hrow', hkey', hafter⟩
      · obtain ⟨row'', hstays⟩ : ∃ row'', after autocommit db session t route staged key = some row'' :=
          after_isSome hwrote hselects.seen
        rw [hgone hsame] at hstays
        cases hstays
    have hkeeps : Keeps ctx db session t stmt := by
      intro key row row' hselects hrow'
      obtain ⟨row'', hrow'', hkey, -⟩ := hown key row hselects
      cases hrow'.symm.trans hrow''
      exact hkey
    refine ⟨⟨fun key row hselects => ?_, fun key hnone => hothers key hnone ?_⟩, hkeeps⟩
    · obtain ⟨row', hrow', -, hafter⟩ := hown key row hselects
      exact ⟨row', hrow', hafter⟩
    · intro key₀ row row' hselects hrow' hkey
      cases (hkeeps key₀ row row' hselects hrow').symm.trans hkey
      exact hnone row hselects
  · rintro ⟨hassigns, hkeeps⟩
    refine ⟨fun key row hselects => ?_, fun key hnone _ => hassigns.others key hnone, ?_⟩
    · obtain ⟨row', hrow', hafter⟩ := hassigns.selected key row hselects
      exact ⟨row', key, hrow', hkeeps key row row' hselects hrow', hafter, fun hne => absurd rfl hne⟩
    · have hsame : ∀ key, (after autocommit db session t route staged key).isSome =
        (seen db session t key).isSome := by
        intro key
        by_cases hselected : ∃ row, Selects ctx db session t stmt key row
        · obtain ⟨row, hselects⟩ := hselected
          obtain ⟨row', -, hafter⟩ := hassigns.selected key row hselects
          rw [hafter, seen_eq_some.mpr hselects.seen]
          rfl
        · rw [hassigns.others key (not_exists.mp hselected)]
      simp only [hsame]

/-! ## Indexes -/

theorem mem_writes (hkeeps : Keeps ctx db session t stmt) (hwrote : Wrote ctx db session t stmt route staged)
    (hlisted : Listed t staged writes) {new : Row} :
    (key, new) ∈ writes ↔ Puts ctx db session t stmt route key new := by
  rw [hlisted.mem]
  cases route with
  | nothing =>
    obtain rfl : staged = ∅ := hwrote
    simp [Puts]
  | point key' set =>
    constructor
    · rintro ⟨w, hw, hrow⟩
      obtain ⟨heq, old, row', hold, hflag, hrow', hw'⟩ := PointWrites.back hwrote _ w hw
      cases hrow.symm.trans hw'
      exact ⟨(Prod.mk.inj heq).2, old, hold, hflag, hrow'⟩
    · rintro ⟨rfl, old, hold, hflag, hnew⟩
      obtain ⟨w, hw⟩ := PointWrites.forth hwrote old hold hflag
      obtain ⟨-, old', row', hold', -, hrow', hw'⟩ := PointWrites.back hwrote _ w hw
      cases hold.symm.trans hold'
      cases hnew.symm.trans hrow'
      exact ⟨w, hw, hw'⟩
  | rows path =>
    constructor
    · rintro ⟨w, hw, hrow⟩
      obtain ⟨row, row', hselects, hreaches, hflag, hrow', hw'⟩ := Writes.own hwrote hkeeps hw
      cases hrow.symm.trans hw'
      exact ⟨row, hselects, hreaches, hflag, hrow'⟩
    · rintro ⟨row, hselects, hreaches, hflag, hnew⟩
      obtain ⟨row', key', w, hrow', hkey', hw⟩ := Writes.forth hwrote key row hselects hreaches hflag
      cases (hkeeps key row row' hselects hrow').symm.trans hkey'
      obtain ⟨row₁, row₁', hselects₁, -, -, hrow₁', hw'⟩ := Writes.own hwrote hkeeps hw
      obtain rfl := hselects.seen.unique hselects₁.seen
      cases hnew.symm.trans hrow₁'
      exact ⟨w, hw, hw'⟩

/-- A row that is written is read back, and its key is one. -/
theorem writable_of_puts (hkept : WellKept db session t) {new : Row}
    (hputs : Puts ctx db session t stmt route key new) (hsize : (encodeRow new).length ≤ maxValueLen) :
    Table.Writable t.schema (key, new) := by
  have hrow : ∀ {set : List (Nat × Datum)} {old : Row}, setRow t.schema set old = .ok new →
      decodeRow t.schema (encodeRow new) = .ok new := by
    intro set old hnew
    refine decodeRow_encodeRow (Schema.validateRow_normal hnew).width fun d hd => Wal.sized_of_encode ?_
    obtain ⟨before, behind, rfl⟩ := List.append_of_mem hd
    simp only [encodeRow, List.flatMap_append, List.flatMap_cons, List.length_append, maxValueLen] at hsize
    omega
  cases route with
  | nothing => cases hputs
  | point key' set =>
    obtain ⟨rfl, old, hold, -, hnew⟩ := hputs
    exact ⟨hrow hnew, _, (kept_stored hkept hold).key⟩
  | rows path =>
    obtain ⟨old, hselects, -, -, hnew⟩ := hputs
    exact ⟨hrow hnew, _, (kept_seen hkept hselects.seen).key⟩

theorem holds_iff_stored (hkept : WellKept db session t) : t.Holds key row ↔ stored t key = some row := by
  constructor
  · rintro ⟨raw, hraw, hrow⟩
    rw [stored, hraw, Option.bind_some, Table.decodeStored, hrow]
    rfl
  · intro hstored
    obtain ⟨raw, hraw, -⟩ := Option.bind_eq_some_iff.mp hstored
    obtain ⟨row', hrow', hstored'⟩ := decode_stored hkept hraw
    cases hstored.symm.trans hstored'
    exact ⟨raw, hraw, hrow'⟩

/-! ## What the session sees -/

theorem commitRows_ok (h : commitRows t writes = .ok t') :
    (∀ w ∈ writes, (encodeRow w.2).length ≤ maxValueLen) ∧ t.install writes = .ok t' := by
  rw [commitRows] at h
  split at h
  · cases h
  · next hsize => exact ⟨by simpa using hsize, h⟩

/-- A commit puts it into the tree, and it is read back. -/
theorem seen_of_committed {db' : Database} (hkept : WellKept db session t) (hkeeps :
    Keeps ctx db session t stmt)
    (hwrote : Wrote ctx db session t stmt route staged) (hlisted : Listed t staged writes)
    (hrun : commitRows t writes = .ok t') (hidle : session.staged = none) (hpin : session.snapshot = none) :
    seen db' session t' key = after autocommit db session t route staged key := by
  obtain ⟨hsize, hrun⟩ := commitRows_ok hrun
  obtain ⟨hinfo, hwritten, hrest⟩ := Table.install_tree hlisted.nodup hrun
  have hseen : ∀ (db : Database) (t : Table), seen db session t key =
      match t.tree[key]?.mapM fun raw => (t.decodeStored raw).mapError Fault.err with
      | .ok row => row
      | .error _ => none := by
    intro db t
    rw [seen, visibleRow, hidle, Option.bind_none]
    simp only [lookupVersion, hpin, Mvcc.VersionState.snapshotLookup]
    cases t.tree[key]?.mapM fun raw => (t.decodeStored raw).mapError Fault.err <;> rfl
  have hdecode : t'.decodeStored = t.decodeStored := by
    funext raw
    rw [Table.decodeStored, Table.decodeStored, Table.schema, Table.schema, hinfo]
  rw [after, if_neg (by simp [Stale, hpin]), hseen db' t', hseen db t, hdecode]
  cases hw : staged[(t.info.name, key)]? with
  | some w =>
    obtain ⟨new, hnew⟩ := wrote_row hwrote hw
    have hin : (key, new) ∈ writes := (hlisted.mem key new).mpr ⟨w, hw, hnew⟩
    have hrow := (writable_of_puts hkept ((mem_writes hkeeps hwrote hlisted).mp hin) (hsize _ hin)).row
    rw [hwritten (key, new) hin, Option.mapM_some, Table.decodeStored, hrow, Option.map_some,
      Option.getD_some,
      hnew]
    rfl
  | none =>
    rw [hrest key, Option.map_none, Option.getD_none]
    intro hmem
    obtain ⟨⟨key', new⟩, hin, rfl⟩ := List.mem_map.mp hmem
    obtain ⟨w, hw', -⟩ := (hlisted.mem key' new).mp hin
    rw [hw] at hw'
    cases hw'

theorem indexes_iff (hkept : WellKept db session t) (hexact : t.Exact) (hkeeps : Keeps ctx db session t stmt)
    (hwrote : Wrote ctx db session t stmt route staged)
    (hcommit : route.commits autocommit session = true → Listed t staged writes ∧
      commitRows t writes = .ok t') :
    (route.commits autocommit session = true → t'.Exact) ↔
      KeepsEntries ctx autocommit db session t stmt route := by
  refine forall_congr' fun hcommits => ?_
  obtain ⟨hlisted, hrun⟩ := hcommit hcommits
  obtain ⟨hsize, hrun⟩ := commitRows_ok hrun
  obtain ⟨hformed, hexactAt⟩ := Table.exact_iff_formed.mp hexact
  have hread : ∀ key raw : Bytes, t.tree[key]? = some raw → ∃ row, decodeRow t.schema raw = .ok row := by
    intro key raw hraw
    obtain ⟨row, hrow, -⟩ := hkept.tree key raw hraw
    exact ⟨row, hrow⟩
  rw [Table.exact_install hlisted.nodup
    (fun w hw => writable_of_puts hkept ((mem_writes hkeeps hwrote hlisted).mp hw) (hsize w hw)) hformed
    (fun w _ => ⟨hexactAt w.1, hread w.1⟩) hrun, and_iff_right fun k _ => hexactAt k]
  simp only [holds_iff_stored hkept, Prod.forall, mem_writes hkeeps hwrote hlisted]
  exact forall₃_congr fun key new _ => forall₂_comm

/-- An `UPDATE` moves the rows that it gives another key if and only if there are none, its route
leads to all rows that change and to no other, and no entry of an index is lost. -/
theorem update_moves_iff (hkept : WellKept db session t) (hexact : t.Exact) (hfk : t.info.foreignKeys = [])
    (hknown : db.catalog.tables[t.info.name]? = some t)
    (hroute : updateRoute ctx autocommit db session t stmt = .ok route)
    (hrun : runRoute ctx db session t stmt route = .ok staged)
    (hcommit : route.commits autocommit session = true → Listed t staged writes ∧
      commitRows t writes = .ok t') :
    Moves ctx autocommit db session t stmt route staged t' ↔
      Leads ctx autocommit db session t stmt route ∧ Keeps ctx db session t stmt ∧
        KeepsEntries ctx autocommit db session t stmt route := by
  have hwrote : Wrote ctx db session t stmt route staged := by
    cases route with
    | nothing => exact (Except.ok.inj hrun).symm
    | point key set => exact pointWrites_updatePoint hkept hrun
    | rows path => exact writes_updateVisible_free hkept hfk hknown (updateRoute_ok hroute) hrun
  constructor
  · intro hmoves
    obtain ⟨hassigns, hkeeps⟩ := (moved_iff hwrote).mp ⟨hmoves.matched, hmoves.others, hmoves.count⟩
    exact ⟨(assigns_iff_leads hkept hkeeps hroute hwrote).mp hassigns, hkeeps,
      (indexes_iff hkept hexact hkeeps hwrote hcommit).mp hmoves.indexes⟩
  · rintro ⟨hleads, hkeeps, hentries⟩
    obtain ⟨hmatched, hothers, hcount⟩ :=
      (moved_iff hwrote).mpr ⟨(assigns_iff_leads hkept hkeeps hroute hwrote).mpr hleads, hkeeps⟩
    exact ⟨hmatched, hothers, hcount, (indexes_iff hkept hexact hkeeps hwrote hcommit).mpr hentries⟩

end

/-! ## One row -/

/-- `UPDATE items SET id = 1, v = 1 WHERE id = 1`. -/
def keepId : UpdateStmt :=
  updateItems "UPDATE items SET id = 1, v = 1 WHERE id = 1" [("id", .int 1), ("v", .int 1)]
    idIsOne plain_idIsOne

theorem exact_items : items.Exact := fun _ hidx => nomatch hidx

theorem install_items : commitRows items [(oneKey, [.int 1, .int 1])] =
    .ok { items with tree := items.tree.insert oneKey (encodeRow [.int 1, .int 1]) } := rfl

theorem listed_items : Listed items oneOne [(oneKey, [.int 1, .int 1])] := by
  refine ⟨by simp, fun key row => ?_⟩
  rw [List.mem_singleton, show items.info.name = "default.items" from rfl, oneOne, Prod.mk.injEq]
  by_cases hkey : key = oneKey
  · subst hkey
    simp [eq_comm]
  · have hne : ¬ compare ("default.items", oneKey) ("default.items", key) = .eq := fun heq =>
      hkey (Prod.mk.inj (Std.compare_eq_iff_eq.mp heq)).2.symm
    simp [hne, hkey]

theorem run_keepId : runRoute itemsContext itemsDb itemsSession items keepId
    (.point oneKey [(0, .int 1), (1, .int 1)]) = .ok oneOne :=
  updatePoint_items [(0, .int 1), (1, .int 1)]

theorem update_moves_items :
    Moves itemsContext true itemsDb itemsSession items keepId
      (.point oneKey [(0, .int 1), (1, .int 1)]) oneOne
      { items with tree := items.tree.insert oneKey (encodeRow [.int 1, .int 1]) } :=
  (update_moves_iff wellKept_items exact_items rfl ExtTreeMap.getElem?_insert_self
    (route_items (by decide) (by decide) rfl)
    run_keepId fun _ => ⟨listed_items, install_items⟩).mpr (by
    refine ⟨⟨fun key row hchanges => key_of_sees_items hchanges.selects.seen, fun row hrow => ?_⟩,
      fun key row row' hselects hrow' => ?_, fun _ key new _ old _ i hi => nomatch hi⟩
    · cases stored_items.symm.trans hrow
      exact ⟨fun _ => rfl, fun hnot => absurd
        ⟨(sees_iff_stored wellKept_items rfl rfl).mpr stored_items, rfl⟩ hnot⟩
    · obtain rfl := key_of_sees_items hselects.seen
      cases seen_items.symm.trans (seen_eq_some.mpr hselects.seen)
      obtain rfl : [Datum.int 1, .int 1] = row' := Except.ok.inj hrow'
      rfl)

theorem keeps_keepId : Keeps itemsContext itemsDb itemsSession items keepId := by
  intro key row row' hselects hrow'
  obtain rfl := key_of_sees_items hselects.seen
  cases seen_items.symm.trans (seen_eq_some.mpr hselects.seen)
  exact Except.ok.inj hrow' ▸ rfl

theorem seen_of_committed_items : seen itemsDb itemsSession
    { items with tree := items.tree.insert oneKey (encodeRow [.int 1, .int 1]) } oneKey =
      after true itemsDb itemsSession items (.point oneKey [(0, .int 1), (1, .int 1)]) oneOne oneKey :=
  seen_of_committed wellKept_items keeps_keepId (pointWrites_updatePoint wellKept_items run_keepId)
    listed_items install_items rfl rfl

/-- `UPDATE items SET id = 2 WHERE id = 1`. -/
def setId : UpdateStmt :=
  updateItems "UPDATE items SET id = 2 WHERE id = 1" [("id", .int 2)] idIsOne plain_idIsOne

/-- The row `(2, 0)` is put under the key of 1, and nothing is put under its own. -/
theorem update_leaves_key :
    updateRoute itemsContext true itemsDb itemsSession items setId = .ok (.point oneKey [(0, .int 2)]) ∧
    runRoute itemsContext itemsDb itemsSession items setId (.point oneKey [(0, .int 2)]) =
      .ok ((∅ : Staged).insert ("default.items", oneKey) ⟨some [.int 2, .int 0], false⟩) ∧
    ∀ t', ¬ Moves itemsContext true itemsDb itemsSession items setId (.point oneKey [(0, .int 2)])
      ((∅ : Staged).insert ("default.items", oneKey) ⟨some [.int 2, .int 0], false⟩) t' := by
  refine ⟨route_cut ['i', 'd'] (by decide) (by decide), updatePoint_items [(0, .int 2)], fun t' hmoves => ?_⟩
  have hselects : Selects itemsContext itemsDb itemsSession items setId oneKey [.int 1, .int 0] :=
    ⟨seen_eq_some.mp seen_items, rfl⟩
  obtain ⟨row', key', hrow', hkey', hafter, -⟩ := hmoves.matched oneKey _ hselects
  obtain rfl : [Datum.int 2, .int 0] = row' := Except.ok.inj hrow'
  obtain rfl : 1 :: keyInt 2 = key' := Except.ok.inj hkey'
  have hne : ¬ compare ("default.items", oneKey) ("default.items", 1 :: keyInt 2) = .eq := by decide
  rw [after, if_neg (by decide), show items.info.name = "default.items" from rfl, ExtTreeMap.getElem?_insert,
    if_neg hne, ExtTreeMap.getElem?_empty] at hafter
  have hseen : seen itemsDb itemsSession items (1 :: keyInt 2) = some [.int 2, .int 0] := hafter
  exact absurd (key_of_sees_items (seen_eq_some.mp hseen)) (by decide)

end HenchDB.Query
