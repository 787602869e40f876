import HenchDB.Ddl.Entries
import HenchDB.Fk.Delete
import HenchDB.SecKeys

/-!
# The references that are found

For a column of integers the index of a table lists the stored rows with a given
value (`scanSecondary_int`); the mirror of the value among the floats finds none
(`scanSecondary_float`).  So the rows that `fkFindChildRefs` returns besides the
overlay are those that the session sees with the value and that are not in the
overlay, and of them only those whose stored row has the value too if the column
has an index (`mem_refs`).
-/

namespace HenchDB.Fk

open Std (ExtTreeMap ExtTreeSet)
open Session (Staged)
open Query (scanSecondary secondaryPks decodeSecIndexKey keyWithin belowLo aboveHi)

/-! ## What is staged is left out -/

def unstaged (overlay : Staged) (table : String) (r : Bytes × Session.Row) : Bool :=
  !overlay.contains (table, r.1)

/-- The rows that are found while nothing is staged. -/
def refsOf (db : Db) (child : Table) (col : Nat) (val : Datum) : Except Fault (List (Bytes × Session.Row)) :=
  if indexed child col then indexedRefs db child col val ∅ else scannedRefs db child col val ∅

theorem mapM_map_except {α β γ ε : Type} (f : α → Except ε β) (g : β → γ) :
    ∀ l : List α, l.mapM (fun a => (f a).map g) = (l.mapM f).map (List.map g)
  | [] => rfl
  | a :: l => by
    rw [List.mapM_cons, List.mapM_cons, mapM_map_except f g l]
    cases f a with
    | error e => rfl
    | ok b => cases l.mapM f <;> rfl

theorem filterMap_id_map_filter {α : Type} (p : α → Bool) :
    ∀ l : List (Option α), (l.map (Option.filter p)).filterMap id = (l.filterMap id).filter p
  | [] => rfl
  | none :: l => filterMap_id_map_filter p l
  | some a :: l => by
    have ih := filterMap_id_map_filter p l
    cases hp : p a <;> simp_all [Option.filter]

section
variable (db : Db) (child : Table) (col : Nat) (val : Datum) (overlay : Staged)

theorem unless_staged (table : String) (key : Bytes) (row : Option Session.Row) :
    (if overlay.contains (table, key) then none else row.map fun row => (key, row)) =
      (row.map fun row => (key, row)).filter (unstaged overlay table) := by
  cases row with
  | none => exact ite_self none
  | some row => cases hc : overlay.contains (table, key) <;> simp [Option.filter, unstaged, hc]

theorem seekRef_eq (pk : Datum) : seekRef db child col val overlay pk =
    (seekRef db child col val ∅ pk).map (Option.filter (unstaged overlay child.info.name)) := by
  rw [seekRef, seekRef]
  cases encodeKey pk with
  | error e => rfl
  | ok key =>
    have hrow := unless_staged overlay child.info.name key
      (db.visible[(child.info.name, key)]?.filter fun row => coerceEq (Table.column row col) val)
    refine Eq.trans ?_ (congrArg Except.ok hrow)
    exact (apply_ite Except.ok _ _ _).symm

theorem scanRef_eq (row : Session.Row) : scanRef child col val overlay row =
    (scanRef child col val ∅ row).map (Option.filter (unstaged overlay child.info.name)) := by
  rw [scanRef, scanRef]
  cases encodeKey (Table.column row child.schema.pkIdx) with
  | error e => rfl
  | ok key =>
    have hrow := unless_staged overlay child.info.name key
      (if coerceEq (Table.column row col) val then some row else none)
    cases hval : coerceEq (Table.column row col) val <;> rw [hval] at hrow <;>
      exact (apply_ite Except.ok _ _ _).symm.trans (congrArg Except.ok hrow)

theorem indexedRefs_eq : indexedRefs db child col val overlay =
    (indexedRefs db child col val ∅).map (List.filter (unstaged overlay child.info.name)) := by
  have hcand : ∀ cand, (do
      let pks ← scanSecondary child col (some (cand, true)) (some (cand, true))
      (pks.getD []).mapM (seekRef db child col val overlay)) = Except.map
        (List.map (Option.filter (unstaged overlay child.info.name))) (do
          let pks ← scanSecondary child col (some (cand, true)) (some (cand, true))
          (pks.getD []).mapM (seekRef db child col val ∅)) := by
    intro cand
    cases scanSecondary child col (some (cand, true)) (some (cand, true)) with
    | error e => rfl
    | ok pks =>
      refine Eq.trans ?_ (mapM_map_except _ _ (pks.getD []))
      exact congrArg (List.mapM · (pks.getD [])) (funext (seekRef_eq db child col val overlay))
  rw [indexedRefs, indexedRefs, funext hcand, mapM_map_except]
  cases List.mapM (m := Except Fault) _ (fkCandidates val) with
  | error e => rfl
  | ok found =>
    exact congrArg Except.ok
      ((congrArg (List.filterMap id) List.map_flatten.symm).trans (filterMap_id_map_filter _ _))

theorem scannedRefs_eq : scannedRefs db child col val overlay =
    (scannedRefs db child col val ∅).map (List.filter (unstaged overlay child.info.name)) := by
  rw [scannedRefs, scannedRefs, funext (scanRef_eq child col val overlay), mapM_map_except]
  cases List.mapM (m := Except Fault) _ (visibleOf db child.info.name) with
  | error e => rfl
  | ok found => exact congrArg Except.ok (filterMap_id_map_filter _ found)

/-- The rows of `fkFindChildRefs` are those that the overlay puts with the value and
those that are found and not staged. -/
theorem fkFindChildRefs_eq (o : Orders) (n : Nat) : fkFindChildRefs o n db child col val overlay =
    (refsOf db child col val).map fun found =>
      ((o.overlay n (overlayPuts child.info.name overlay)).filter fun e =>
        coerceEq (Table.column e.2 col) val) ++ found.filter (unstaged overlay child.info.name) := by
  rw [fkFindChildRefs, refsOf]
  split
  · rw [indexedRefs_eq]
    cases indexedRefs db child col val ∅ <;> rfl
  · rw [scannedRefs_eq]
    cases scannedRefs db child col val ∅ <;> rfl

end

/-! ## Entries of integers -/

theorem compare_intEntry (u v : Int64) (k k' : Bytes) :
    compare (encodeSecKeyPrefix (.int u) ++ k) (encodeSecKeyPrefix (.int v) ++ k') =
      (compare u v).then (compare k k') :=
  @compare_entry (.int u) (.int v) rfl nofun k k'

theorem decode_intEntry {u : Int64} {k : Bytes} {pk : Datum} (h : decodeKey k = .ok pk) :
    decodeSecIndexKey (encodeSecKeyPrefix (.int u) ++ k) = .ok (.int u, pk) :=
  decodeSecIndexKey_entry nofun h

variable {v : Int64} {col : Nat} {t : Table}

theorem intPrefix_inj {u : Int64} (h : encodeSecKeyPrefix (.int u) = encodeSecKeyPrefix (.int v)) :
    u = v := by
  have hkey : keyInt u = keyInt v := (List.cons.inj h).2
  rw [← ofKeyInt_keyInt u, hkey, ofKeyInt_keyInt]

/-- An entry that is an integer of at least `v`. -/
def IntEntry (v : Int64) (e : Bytes) : Prop :=
  ∃ u k pk, e = encodeSecKeyPrefix (.int u) ++ k ∧ decodeKey k = .ok pk ∧ v ≤ u

/-- The loop over the entries from a value on takes those with the value. -/
theorem secondaryPks_int {v : Int64} : ∀ {es : List Bytes}, (∀ e ∈ es, IntEntry v e) →
    (es.Pairwise fun a b => compare a b = .lt) →
      ∃ pks, secondaryPks (some (.int v, true)) (some (.int v, true)) es = .ok pks ∧
        ∀ pk, pk ∈ pks ↔ ∃ k, encodeSecKeyPrefix (.int v) ++ k ∈ es ∧ decodeKey k = .ok pk
  | [], _, _ => ⟨[], rfl, fun pk => by simp⟩
  | e :: es, hes, hsorted => by
    obtain ⟨u, k, pk, rfl, hpk, hvu⟩ := hes e (by simp)
    obtain ⟨hfirst, hrest⟩ := List.pairwise_cons.mp hsorted
    have hbelow : belowLo (some (.int v, true)) (.int u) = false := by
      have hcmp : ¬ compare u v = .lt := fun hlt => Int64.not_lt.mpr hvu (Std.compare_eq_lt.mp hlt)
      simp only [belowLo, Datum.cmp, Datum.typeRank, ne_eq, not_true_eq_false, if_false, if_true]
      cases hc : compare u v <;> simp_all
    by_cases huv : u = v
    · subst huv
      obtain ⟨pks, hpks, hmem⟩ := secondaryPks_int (fun e he => hes e (by simp [he])) hrest
      have habove : aboveHi (some (.int u, true)) (.int u) = false := by
        simp [aboveHi, Datum.cmp, Datum.typeRank]
      refine ⟨pk :: pks, ?_, fun pk' => ?_⟩
      · simp only [secondaryPks, decode_intEntry hpk, bind, Except.bind, hbelow, habove, hpks,
          Bool.false_eq_true, if_false, pure, Except.pure]
      · rw [List.mem_cons, hmem]
        constructor
        · rintro (rfl | ⟨k', hk', hpk'⟩)
          · exact ⟨k, by simp, hpk⟩
          · exact ⟨k', by simp [hk'], hpk'⟩
        · rintro ⟨k', hk', hpk'⟩
          rcases List.mem_cons.mp hk' with heq | hk'
          · obtain ⟨-, rfl⟩ := encodeSecKeyPrefix_append_inj heq
            exact .inl (Except.ok.inj (hpk'.symm.trans hpk))
          · exact .inr ⟨k', hk', hpk'⟩
    · have hlt : v < u := Int64.lt_of_le_of_ne hvu (Ne.symm huv)
      have hcmp : compare u v = .gt := Std.compare_eq_gt.mpr hlt
      have habove : aboveHi (some (.int v, true)) (.int u) = true := by
        simp [aboveHi, Datum.cmp, Datum.typeRank, hcmp]
      refine ⟨[], ?_, fun pk' => ?_⟩
      · simp only [secondaryPks, decode_intEntry hpk, bind, Except.bind, hbelow, habove,
          Bool.false_eq_true, if_false, if_true, pure, Except.pure]
      · constructor
        · intro h
          cases h
        · rintro ⟨k', hk', -⟩
          rcases List.mem_cons.mp hk' with heq | hk'
          · exact absurd (intPrefix_inj (encodeSecKeyPrefix_append_inj heq).1) (Ne.symm huv)
          · have := hfirst _ hk'
            rw [compare_intEntry, hcmp] at this
            cases this

/-! ## Tables that are kept -/

/-- The stored rows are normalized and lie under their keys, and the indexes hold
their entries. -/
structure Kept (t : Table) : Prop where
  exact : t.Exact
  stored : ∀ (k raw : Bytes), t.tree[k]? = some raw → ∃ row, decodeRow t.schema raw = .ok row ∧
    t.schema.Normal row ∧ encodeKey (Table.column row t.schema.pkIdx) = .ok k

def IntColumn (schema : Schema) (col : Nat) : Prop :=
  ∃ c, schema.columns[col]? = some c ∧ (c.ctype = .int ∨ c.ctype = .bigInt)

def Stores (t : Table) (k : Bytes) (col : Nat) (v : Int64) : Prop :=
  ∃ (raw : Bytes) (row : Session.Row), t.tree[k]? = some raw ∧ decodeRow t.schema raw = .ok row ∧
    Table.column row col = .int v

/-- A normalized row has an integer or nothing in a column of integers. -/
theorem int_or_null {schema : Schema} {row : Session.Row} (hcol : IntColumn schema col)
    (h : schema.Normal row) :
    Table.column row col = .null ∨ ∃ v, Table.column row col = .int v := by
  obtain ⟨c, hc, htype⟩ := hcol
  have hlt : col < row.length := by
    rw [h.width]
    exact (List.getElem?_eq_some_iff.mp hc).1
  have hget : row[col]? = some (Table.column row col) := by
    rw [Table.column, List.getD_eq_getElem?_getD, List.getElem?_eq_getElem hlt]
    rfl
  have hnormal := h.column col c _ hc hget
  cases hd : Table.column row col with
  | null => exact .inl rfl
  | int v => exact .inr ⟨v, rfl⟩
  | _ =>
    rw [hd, ColumnDef.normalize_of_ne_null (by simp)] at hnormal
    obtain ⟨hcoerce, haccepts⟩ := ColumnDef.admit_spec hnormal
    rcases htype with htype | htype <;>
      simp [htype, ColumnType.coerce, ColumnType.accepts.eq_def] at hcoerce haccepts

/-- The entries of an index on integers belong to rows with an integer or nothing. -/
theorem mem_index {idx : SecondaryIndex} (h : Kept t) (hidx : idx ∈ t.indexes)
    (hcol : IntColumn t.schema idx.colIdx) {e : Bytes} (he : e ∈ idx.tree.toList) :
    ∃ k pk, decodeKey k = .ok pk ∧ encodeKey pk = .ok k ∧
      (e = encodeSecKeyPrefix .null ++ k ∨
        ∃ u, e = encodeSecKeyPrefix (.int u) ++ k ∧ Stores t k idx.colIdx u) := by
  rw [ExtTreeSet.mem_toList] at he
  obtain ⟨k, raw, row, hraw, hrow, rfl⟩ := ((h.exact idx hidx).2 e).mp he
  obtain ⟨row', hrow', hnormal, hkey⟩ := h.stored k raw hraw
  obtain rfl : row = row' := Except.ok.inj (hrow.symm.trans hrow')
  obtain ⟨pk, hpk, hpk'⟩ := decodeKey_encodeKey hkey
  refine ⟨k, pk, hpk, hpk', ?_⟩
  rcases int_or_null hcol hnormal with hnull | ⟨u, hu⟩
  · exact .inl (by rw [Table.entry, hnull])
  · exact .inr ⟨u, by rw [Table.entry, hu], raw, row, hraw, hrow, hu⟩

theorem Stores.mem_index {idx : SecondaryIndex} {k : Bytes} (hs : Stores t k idx.colIdx v)
    (h : Kept t) (hidx : idx ∈ t.indexes) :
    encodeSecKeyPrefix (.int v) ++ k ∈ idx.tree.toList := by
  obtain ⟨raw, row, hraw, hrow, hv⟩ := hs
  rw [ExtTreeSet.mem_toList]
  exact ((h.exact idx hidx).2 _).mpr ⟨k, raw, row, hraw, hrow, by rw [Table.entry, hv]⟩

theorem intEntry_within (u v : Int64) (k : Bytes) :
    keyWithin (some (encodeSecKeyPrefix (.int v))) true none true (encodeSecKeyPrefix (.int u) ++ k) =
      (compare v u).isLE := by
  have hcmp := compare_intEntry v u [] k
  rw [List.append_nil] at hcmp
  simp only [keyWithin, if_true, Bool.and_true, hcmp]
  cases compare v u <;> cases k <;> rfl

/-- Entries of another type of value lie below. -/
theorem not_within {a b : UInt8} (h : b < a) (x y : Bytes) :
    keyWithin (some (a :: x)) true none true (b :: y) = false := by
  have hcmp : compare a b = .gt := Std.compare_eq_gt.mpr h
  simp [keyWithin, List.compare_cons_cons, hcmp]

theorem find_index (h : Kept t) (hindexed : indexed t col = true) :
    ∃ idx ∈ t.indexes, idx.colIdx = col ∧
      (t.indexes.find? fun i => i.colIdx = col) = some idx := by
  obtain ⟨i, hi, hcol⟩ := List.any_eq_true.mp hindexed
  have hi' : i.colIdx = col := by
    have := (h.exact i hi).1.symm.trans (of_decide_eq_true hcol)
    exact Option.some.inj this
  have hsome : (t.indexes.find? fun i => i.colIdx = col).isSome :=
    List.find?_isSome.mpr ⟨i, hi, decide_eq_true hi'⟩
  obtain ⟨idx, hidx⟩ := Option.isSome_iff_exists.mp hsome
  have hon := List.find?_some hidx
  exact ⟨idx, List.mem_of_find?_eq_some hidx, of_decide_eq_true hon, hidx⟩

/-- The index of a column of integers lists the keys of the rows that store the
value. -/
theorem scanSecondary_int (h : Kept t) (hcol : IntColumn t.schema col)
    (hindexed : indexed t col = true) (v : Int64) :
    ∃ pks, scanSecondary t col (some (.int v, true)) (some (.int v, true)) = .ok (some pks) ∧
      (∀ pk ∈ pks, ∃ k, encodeKey pk = .ok k ∧ Stores t k col v) ∧
      ∀ k, Stores t k col v → ∃ pk ∈ pks, encodeKey pk = .ok k := by
  obtain ⟨idx, hidx, rfl, hfind⟩ := find_index h hindexed
  have hentries : ∀ e ∈ idx.tree.toList.filter
      (keyWithin (some (encodeSecKeyPrefix (.int v))) true none true),
      IntEntry v e := by
    intro e he
    obtain ⟨he, hwithin⟩ := List.mem_filter.mp he
    obtain ⟨k, pk, hpk, hpk', rfl | ⟨u, rfl, hs⟩⟩ := mem_index h hidx hcol he
    · rw [encodeSecKeyPrefix, encodeSecKeyPrefix, List.cons_append, not_within (by decide)] at hwithin
      cases hwithin
    · rw [intEntry_within] at hwithin
      exact ⟨u, k, pk, rfl, hpk, Std.isLE_compare.mp hwithin⟩
  obtain ⟨pks, hpks, hmem⟩ := secondaryPks_int hentries (ExtTreeSet.ordered_toList.filter _)
  refine ⟨pks, ?_, fun pk hpk => ?_, fun k hs => ?_⟩
  · rw [scanSecondary, hfind]
    exact congrArg (Except.map some) hpks
  · obtain ⟨k, he, hk⟩ := (hmem pk).mp hpk
    obtain ⟨k', pk', hk', hpk', hnull | ⟨u, hu, hs⟩⟩ :=
      mem_index h hidx hcol (List.mem_filter.mp he).1
    · have := (encodeSecKeyPrefix_append_inj hnull).1
      cases this
    · obtain ⟨hcode, rfl⟩ := encodeSecKeyPrefix_append_inj hu
      obtain rfl : pk = pk' := Except.ok.inj (hk.symm.trans hk')
      rw [intPrefix_inj hcode]
      exact ⟨k, hpk', hs⟩
  · have he := hs.mem_index h hidx
    obtain ⟨k', pk, hk, hpk, hnull | ⟨u, hu, -⟩⟩ := mem_index h hidx hcol he
    · have := (encodeSecKeyPrefix_append_inj hnull).1
      cases this
    · obtain ⟨-, rfl⟩ := encodeSecKeyPrefix_append_inj hu
      refine ⟨pk, (hmem pk).mpr ⟨k, List.mem_filter.mpr ⟨he, ?_⟩, hk⟩, hpk⟩
      rw [intEntry_within]
      exact Std.isLE_compare.mpr (Int64.le_refl v)

theorem scanSecondary_float (h : Kept t) (hcol : IntColumn t.schema col)
    (hindexed : indexed t col = true) (bits : UInt64) :
    scanSecondary t col (some (.float bits, true)) (some (.float bits, true)) = .ok (some []) := by
  obtain ⟨idx, hidx, rfl, hfind⟩ := find_index h hindexed
  have hnone : idx.tree.toList.filter
      (keyWithin (some (encodeSecKeyPrefix (.float bits))) true none true) = [] := by
    refine List.filter_eq_nil_iff.mpr fun e he => ?_
    obtain ⟨k, pk, -, -, rfl | ⟨u, rfl, -⟩⟩ := mem_index h hidx hcol he <;>
      simp only [encodeSecKeyPrefix, List.cons_append] <;>
      exact Bool.eq_false_iff.mp (not_within (by decide) _ _)
  rw [scanSecondary, hfind]
  exact congrArg (fun es => Except.map some (secondaryPks _ _ es)) hnone

/-! ## The rows with a value -/

/-- The rows that the session sees of a table are normalized and lie under their keys. -/
def Seen (db : Db) (t : Table) : Prop :=
  ∀ (k : Bytes) (row : Session.Row), db.visible[(t.info.name, k)]? = some row →
    t.schema.Normal row ∧ encodeKey (Table.column row t.schema.pkIdx) = .ok k

def Has (db : Db) (t : Table) (col : Nat) (v : Int64) (r : Bytes × Session.Row) : Prop :=
  db.visible[(t.info.name, r.1)]? = some r.2 ∧ Table.column r.2 col = .int v

theorem coerceEq_int {d : Datum} (h : d = .null ∨ ∃ u, d = .int u) :
    coerceEq d (.int v) = true ↔ d = .int v := by
  rcases h with rfl | ⟨u, rfl⟩ <;>
    simp [coerceEq, Datum.sameValue, Datum.coercePair, Datum.eqv]

section
variable {db : Db} {t : Table} {col : Nat}

theorem scannedRefs_int (hseen : Seen db t) (hcol : IntColumn t.schema col) (v : Int64) :
    ∃ found, scannedRefs db t col (.int v) ∅ = .ok found ∧ ∀ r, r ∈ found ↔ Has db t col v r := by
  have hscan : ∀ (k : Bytes) (row : Session.Row), db.visible[(t.info.name, k)]? = some row →
      scanRef t col (.int v) ∅ row =
        .ok (if Table.column row col = .int v then some (k, row) else none) := by
    intro k row hrow
    obtain ⟨hnormal, hkey⟩ := hseen k row hrow
    have hval := coerceEq_int (v := v) (int_or_null hcol hnormal)
    simp [scanRef, hkey, Except.mapError, bind, Except.bind, pure, Except.pure, hval]
  have hmem : ∀ row, row ∈ visibleOf db t.info.name ↔
      ∃ k : Bytes, db.visible[(t.info.name, k)]? = some row := by
    intro row
    simp only [visibleOf, List.mem_map, List.mem_filter, decide_eq_true_eq, Prod.exists,
      ExtTreeMap.mem_toList_iff_getElem?_eq_some]
    constructor
    · rintro ⟨name, k, row, ⟨hrow, rfl⟩, rfl⟩
      exact ⟨k, hrow⟩
    · rintro ⟨k, hrow⟩
      exact ⟨t.info.name, k, row, ⟨hrow, rfl⟩, rfl⟩
  obtain ⟨found, hfound⟩ := Outcome.exists_mapM_ok.mpr fun row hrow =>
    ((hmem row).mp hrow).elim fun k hk => ⟨_, hscan k row hk⟩
  refine ⟨found.filterMap id, by rw [scannedRefs, hfound]; rfl, fun r => ?_⟩
  rw [List.mem_filterMap]
  constructor
  · rintro ⟨_, hin, rfl⟩
    obtain ⟨row, hrow, hr⟩ := (Outcome.mem_of_mapM_ok hfound).mp hin
    obtain ⟨k, hk⟩ := (hmem row).mp hrow
    rw [hscan k row hk] at hr
    split at hr
    · next hval =>
      cases Except.ok.inj hr
      exact ⟨hk, hval⟩
    · cases hr
  · rintro ⟨hk, hval⟩
    refine ⟨some r, (Outcome.mem_of_mapM_ok hfound).mpr ⟨r.2, (hmem r.2).mpr ⟨r.1, hk⟩, ?_⟩, rfl⟩
    rw [hscan r.1 r.2 hk, if_pos hval]

theorem seekRef_int (hseen : Seen db t) (hcol : IntColumn t.schema col) {v : Int64} {pk : Datum}
    {k : Bytes} (hk : encodeKey pk = .ok k) :
    ∃ found, seekRef db t col (.int v) ∅ pk = .ok found ∧
      ∀ r, found = some r ↔ Has db t col v r ∧ r.1 = k := by
  refine ⟨(db.visible[(t.info.name, k)]?.filter fun row =>
    coerceEq (Table.column row col) (.int v)).map fun row => (k, row), ?_, fun r => ?_⟩
  · simp [seekRef, hk, Except.mapError, bind, Except.bind, pure, Except.pure]
  · rw [Option.map_eq_some_iff]
    constructor
    · rintro ⟨row, hrow, rfl⟩
      obtain ⟨hrow, hval⟩ := Option.filter_eq_some_iff.mp hrow
      exact ⟨⟨hrow, (coerceEq_int (int_or_null hcol (hseen k row hrow).1)).mp hval⟩, rfl⟩
    · rintro ⟨⟨hrow, hval⟩, rfl⟩
      refine ⟨r.2, Option.filter_eq_some_iff.mpr ⟨hrow, ?_⟩, rfl⟩
      rw [hval]
      exact (coerceEq_int (.inr ⟨v, rfl⟩)).mpr rfl

theorem indexedRefs_int (hkept : Kept t) (hseen : Seen db t) (hcol : IntColumn t.schema col)
    (hindexed : indexed t col = true) (v : Int64) :
    ∃ found, indexedRefs db t col (.int v) ∅ = .ok found ∧
      ∀ r, r ∈ found ↔ Has db t col v r ∧ Stores t r.1 col v := by
  obtain ⟨pks, hpks, hsound, hcomplete⟩ := scanSecondary_int hkept hcol hindexed v
  have hfloat := scanSecondary_float hkept hcol hindexed (F64.ofInt v)
  obtain ⟨found, hfound⟩ := Outcome.exists_mapM_ok.mpr fun pk hpk =>
    (hsound pk hpk).elim fun k hk => (seekRef_int hseen hcol (v := v) hk.1).imp fun _ h => h.1
  refine ⟨found.filterMap id, ?_, fun r => ?_⟩
  · simp [indexedRefs, fkCandidates, hpks, hfloat, hfound, bind, Except.bind, pure, Except.pure]
  · rw [List.mem_filterMap]
    constructor
    · rintro ⟨_, hin, rfl⟩
      obtain ⟨pk, hpk, hr⟩ := (Outcome.mem_of_mapM_ok hfound).mp hin
      obtain ⟨k, hk, hs⟩ := hsound pk hpk
      obtain ⟨found', hfound', hr'⟩ := seekRef_int hseen hcol (v := v) hk
      cases hfound'.symm.trans hr
      obtain ⟨hhas, rfl⟩ := (hr' r).mp rfl
      exact ⟨hhas, hs⟩
    · rintro ⟨hhas, hs⟩
      obtain ⟨pk, hpk, hk⟩ := hcomplete r.1 hs
      obtain ⟨found', hfound', hr'⟩ := seekRef_int hseen hcol (v := v) hk
      exact ⟨some r, (Outcome.mem_of_mapM_ok hfound).mpr ⟨pk, hpk, (hr' r).mpr ⟨hhas, rfl⟩ ▸ hfound'⟩, rfl⟩

/-- The rows that are found have the value, and with an index on the column their
stored rows have it too. -/
theorem refsOf_int (hkept : Kept t) (hseen : Seen db t) (hcol : IntColumn t.schema col) (v : Int64) :
    ∃ found, refsOf db t col (.int v) = .ok found ∧
      ∀ r, r ∈ found ↔ Has db t col v r ∧ (indexed t col = true → Stores t r.1 col v) := by
  cases hindexed : indexed t col with
  | true =>
    obtain ⟨found, hfound, hmem⟩ := indexedRefs_int hkept hseen hcol hindexed v
    exact ⟨found, by rw [refsOf, if_pos hindexed, hfound], fun r => by simp [hmem]⟩
  | false =>
    obtain ⟨found, hfound, hmem⟩ := scannedRefs_int hseen hcol v
    exact ⟨found, by rw [refsOf, hindexed]; exact hfound, fun r => by simp [hmem]⟩

end

end HenchDB.Fk
