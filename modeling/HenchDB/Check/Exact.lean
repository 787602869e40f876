import HenchDB.Check.Table
import HenchDB.Replication.Apply
import HenchDB.SecKeys

/-!
# What CHECK TABLE finds

All tests of `checkTableLocked` pass just if it reports nothing (`clean_iff`).  A table is
healthy if its rows meet the schema and are stored under their keys, its indexes have the
entries of its rows and no others, and its foreign keys have their values in the columns
that they refer to.

The tests are not quite these: no test compares the key of a row with its primary-key
column, the entries of an index are decoded rather than compared, and the value of a foreign
key is looked up among the keys of the parent whatever column it refers to.  So there are
faults that no test sees (`Hidden`) and tests that fail where nothing is wrong (`Alarm`).
The check is exact just where neither is alone (`exact_iff`).
-/

namespace HenchDB.Check

open Std (ExtTreeMap ExtTreeSet)
open Codec Pool Replica
open Query (decodeSecIndexKey)

variable {txt : Texts} {st : State} {t : Table}

/-! ## Healthy tables -/

def Stored (st : State) (t : Table) (k : Bytes) (row : Row) : Prop :=
  ∃ raw, t.tree[k]? = some raw ∧ st.decodeStored t raw = .ok row

/-- The columns that are `NOT NULL` have values. -/
def NotNull (t : Table) (row : Row) : Prop :=
  ∀ c ∈ t.schema.columns.zip row, c.1.nullable = false → c.2 ≠ .null

/-- The key and the row decode, and the row meets the schema. -/
def Readable (st : State) (t : Table) (k raw : Bytes) : Prop :=
  (∃ pk, decodeKey k = .ok pk) ∧ ∃ row, st.decodeStored t raw = .ok row ∧
    row.length = t.schema.columns.length ∧ NotNull t row

/-- The key is the one of the row's primary-key column. -/
def Owns (t : Table) (k : Bytes) (row : Row) : Prop :=
  encodeKey (Table.column row t.schema.pkIdx) = .ok k

/-- The entry is the one of a stored row. -/
def Genuine (st : State) (t : Table) (i : SecondaryIndex) (e : Bytes) : Prop :=
  ∃ k row, Stored st t k row ∧
    encodeSecIndexKey (Table.column row i.colIdx) (Table.column row t.schema.pkIdx) = .ok e

/-- A stored row has the value in the column of the foreign key. -/
def HasReference (st : State) (t : Table) (fk : ForeignKeyDef) (v : Datum) : Prop :=
  ∃ col k row, t.schema.indexOf fk.column = some col ∧ Stored st t k row ∧
    Table.column row col = v ∧ v ≠ .null

/-- The referenced column of the referenced table has the value. -/
def Referenced (st : State) (fk : ForeignKeyDef) (v : Datum) : Prop :=
  ∃ parent col k row, st.parentTable fk = some parent ∧
    parent.schema.indexOf fk.refColumn = some col ∧ Stored st parent k row ∧
      (Table.column row col).eqv v = true

structure Healthy (st : State) (t : Table) : Prop where
  readable : ∀ k raw, t.tree[k]? = some raw → Readable st t k raw
  owned : ∀ k row, Stored st t k row → Owns t k row
  indexed : ∀ i ∈ t.indexes, ∀ e, e ∈ i.tree ↔ Genuine st t i e
  referenced : ∀ fk ∈ t.info.foreignKeys, ∀ v, HasReference st t fk v → Referenced st fk v

/-! ## What is tested -/

/-- The entry passes: it decodes to the key of an entry of the primary tree, and to the value
of the row there if that decodes. -/
def Accepted (st : State) (t : Table) (i : SecondaryIndex) (e : Bytes) : Prop :=
  ∃ sec pk k raw, decodeSecIndexKey e = .ok (sec, pk) ∧ encodeKey pk = .ok k ∧
    t.tree[k]? = some raw ∧
      ∀ row, st.decodeStored t raw = .ok row → (Table.column row i.colIdx).eqv sec = true

/-- The value is a key of the referenced table. -/
def KeyOfParent (st : State) (fk : ForeignKeyDef) (v : Datum) : Prop :=
  ∃ parent k, st.parentTable fk = some parent ∧ encodeKey v = .ok k ∧ k ∈ parent.tree

def Resolves (st : State) (t : Table) (fk : ForeignKeyDef) : Prop :=
  (∃ parent, st.parentTable fk = some parent) ∧ ∃ col, t.schema.indexOf fk.column = some col

/-- All tests pass. -/
structure Passes (st : State) (t : Table) : Prop where
  readable : ∀ k raw, t.tree[k]? = some raw → Readable st t k raw
  listed : ∀ i ∈ t.indexes, ∀ e, Genuine st t i e → e ∈ i.tree
  accepted : ∀ i ∈ t.indexes, ∀ e ∈ i.tree, Accepted st t i e
  resolves : ∀ fk ∈ t.info.foreignKeys, Resolves st t fk
  keys : ∀ fk ∈ t.info.foreignKeys, ∀ v, HasReference st t fk v → KeyOfParent st fk v

/-! ## Rows -/

theorem length_decodeRow {schema : Schema} {buf : Bytes} {row : Row}
    (h : decodeRow schema buf = .ok row) : row.length = schema.columns.length := by
  rw [decodeRow] at h
  cases hrun : (takeMany Datum.decode schema.columns.length).run buf with
  | error e =>
    rw [hrun] at h
    cases h
  | ok r =>
    rw [hrun] at h
    simp only at h
    split at h
    · cases h
      exact (yields_takeMany .trivial _ _ _ _ hrun).1
    · cases h

theorem length_decodeStored {raw : Bytes} {row : Row} (h : st.decodeStored t raw = .ok row) :
    row.length = t.schema.columns.length := by
  obtain ⟨full, -, hrow⟩ := Outcome.bind_ok h
  exact length_decodeRow hrow

theorem getElem?_column {row : Row} {i : Nat} (h : i < row.length) :
    row[i]? = some (Table.column row i) := by
  rw [Table.column, List.getD_eq_getElem?_getD, List.getElem?_eq_getElem h, Option.getD_some]

theorem schemaErrors_nil_iff {pk : Datum} {row : Row} :
    schemaErrors txt t pk row = [] ↔ row.length = t.schema.columns.length ∧ NotNull t row := by
  rw [schemaErrors]
  by_cases hlen : row.length = t.schema.columns.length
  · rw [if_neg (not_not_intro hlen), List.filterMap_eq_nil_iff, and_iff_right hlen]
    refine forall₂_congr fun c _ => ?_
    by_cases hbad : c.1.nullable = false ∧ c.2 = .null
    · rw [if_pos hbad]
      simp [hbad.1, hbad.2]
    · rw [if_neg hbad]
      simp only [true_iff]
      exact fun hnull hc => hbad ⟨hnull, hc⟩
  · rw [if_pos hlen]
    exact iff_of_false (List.cons_ne_nil _ _) fun h => hlen h.1

/-- What is wrong with an entry, and its row. -/
theorem checkRow_ok_iff {kv : Bytes × Bytes} {r : Option (Datum × Row)} :
    checkRow txt st t kv = .ok ([], r) ↔ ∃ pk row, r = some (pk, row) ∧ decodeKey kv.1 = .ok pk ∧
      st.decodeStored t kv.2 = .ok row ∧ row.length = t.schema.columns.length ∧ NotNull t row := by
  rw [checkRow]
  cases hkey : decodeKey kv.1 with
  | error f =>
    cases f with
    | panic => simp
    | err e => simp
  | ok pk =>
    cases hrow : st.decodeStored t kv.2 with
    | error e => simp
    | ok row =>
      simp only [Except.ok.injEq, Prod.mk.injEq, schemaErrors_nil_iff]
      constructor
      · rintro ⟨hmeets, rfl⟩
        exact ⟨pk, row, rfl, rfl, rfl, hmeets⟩
      · rintro ⟨_, _, rfl, rfl, rfl, hmeets⟩
        exact ⟨hmeets, rfl⟩

def Decodes (st : State) (t : Table) (kv : Bytes × Bytes) (r : Datum × Row) : Prop :=
  decodeKey kv.1 = .ok r.1 ∧ st.decodeStored t kv.2 = .ok r.2 ∧
    r.2.length = t.schema.columns.length ∧ NotNull t r.2

theorem orderErrors_nil {prev : Option Bytes} {k : Bytes} (h : ∀ p ∈ prev, compare p k = .lt) :
    orderErrors txt prev k = [] := by
  cases prev with
  | none => rfl
  | some p =>
    have hgt : compare k p = .gt := Std.OrientedCmp.gt_of_lt (h p rfl)
    rw [orderErrors, hgt]
    rfl

/-- Over keys in order nothing is found just if every entry decodes to a row. -/
theorem checkRows_ok_iff : ∀ {kvs : List (Bytes × Bytes)} {prev : Option Bytes}
    {rows : List (Datum × Row)}, (∀ p ∈ prev, ∀ kv ∈ kvs, compare p kv.1 = .lt) →
    kvs.Pairwise (fun x y => compare x.1 y.1 = .lt) →
      (checkRows txt st t prev kvs = .ok ([], rows) ↔ List.Forall₂ (Decodes st t) kvs rows)
  | [], prev, rows, _, _ => by
    rw [checkRows]
    constructor
    · intro h
      cases h
      exact .nil
    · rintro ⟨⟩
      rfl
  | kv :: kvs, prev, rows, hprev, hsorted => by
    obtain ⟨hhead, htail⟩ := List.pairwise_cons.mp hsorted
    have ih : ∀ {rows}, checkRows txt st t (some kv.1) kvs = .ok ([], rows) ↔
        List.Forall₂ (Decodes st t) kvs rows :=
      checkRows_ok_iff (by rintro p ⟨⟩; exact hhead) htail
    have horder : orderErrors txt prev kv.1 = [] :=
      orderErrors_nil fun p hp => hprev p hp kv List.mem_cons_self
    rw [checkRows, horder]
    constructor
    · intro h
      obtain ⟨⟨errors, r⟩, hrow, h⟩ := Outcome.bind_ok h
      obtain ⟨⟨errors', rows'⟩, hrows, h⟩ := Outcome.bind_ok h
      simp only [pure, Except.pure, Except.ok.injEq, Prod.mk.injEq, List.nil_append,
        List.append_eq_nil_iff] at h
      obtain ⟨⟨rfl, rfl⟩, rfl⟩ := h
      obtain ⟨pk, row, rfl, hdecodes⟩ := checkRow_ok_iff.mp hrow
      exact .cons hdecodes (ih.mp hrows)
    · rintro (_ | ⟨hdecodes, hrest⟩)
      rw [checkRow_ok_iff.mpr ⟨_, _, rfl, hdecodes⟩]
      change (checkRows txt st t (some kv.1) kvs >>= _) = _
      rw [ih.mpr hrest]
      rfl

theorem pairwise_toList (tree : ExtTreeMap Bytes Bytes) :
    tree.toList.Pairwise fun x y => compare x.1 y.1 = .lt := ExtTreeMap.ordered_keys_toList

structure Collected (st : State) (t : Table) (rows : List (Datum × Row)) : Prop where
  readable : ∀ k raw, t.tree[k]? = some raw → Readable st t k raw
  stored : ∀ r ∈ rows, ∃ k, Stored st t k r.2
  all : ∀ k row, Stored st t k row → ∃ r ∈ rows, r.2 = row

theorem collected_of_decodes {rows : List (Datum × Row)}
    (h : List.Forall₂ (Decodes st t) t.tree.toList rows) : Collected st t rows := by
  constructor
  · intro k raw hraw
    obtain ⟨r, -, hkey, hrow, hmeets⟩ :=
      Outcome.exists_of_forall₂_left h (k, raw) (ExtTreeMap.mem_toList_iff_getElem?_eq_some.mpr hraw)
    exact ⟨⟨_, hkey⟩, _, hrow, hmeets⟩
  · intro r hr
    obtain ⟨kv, hkv, -, hrow, -⟩ := Outcome.exists_of_forall₂_right h r hr
    exact ⟨kv.1, kv.2, ExtTreeMap.mem_toList_iff_getElem?_eq_some.mp hkv, hrow⟩
  · rintro k row ⟨raw, hraw, hrow⟩
    obtain ⟨r, hr, -, hrow', -⟩ :=
      Outcome.exists_of_forall₂_left h (k, raw) (ExtTreeMap.mem_toList_iff_getElem?_eq_some.mpr hraw)
    cases hrow.symm.trans hrow'
    exact ⟨r, hr, rfl⟩

theorem exists_decodes (h : ∀ k raw, t.tree[k]? = some raw → Readable st t k raw) :
    ∃ rows, List.Forall₂ (Decodes st t) t.tree.toList rows := by
  refine Outcome.exists_forall₂ fun kv hkv => ?_
  obtain ⟨⟨pk, hpk⟩, row, hrow, hmeets⟩ :=
    h kv.1 kv.2 (ExtTreeMap.mem_toList_iff_getElem?_eq_some.mp hkv)
  exact ⟨(pk, row), hpk, hrow, hmeets⟩

/-- Nothing is found in the primary tree just if its entries decode to rows. -/
theorem checkRows_tree_iff {rows : List (Datum × Row)} :
    checkRows txt st t none t.tree.toList = .ok ([], rows) ↔
      List.Forall₂ (Decodes st t) t.tree.toList rows :=
  checkRows_ok_iff (by rintro p ⟨⟩) (pairwise_toList t.tree)

/-! ## Indexes -/

theorem checkEntry_ok_iff {i : SecondaryIndex} (hi : i.colIdx < t.schema.columns.length)
    {e : Bytes} : checkEntry txt st t i e = .ok [] ↔ Accepted st t i e := by
  rw [checkEntry, Accepted]
  cases hdecode : decodeSecIndexKey e with
  | error f => cases f <;> simp
  | ok r =>
    obtain ⟨sec, pk⟩ := r
    simp only [Except.ok.injEq, Prod.mk.injEq, and_assoc, exists_and_left, exists_eq_left']
    cases hkey : encodeKey pk with
    | error e => simp
    | ok k =>
      simp only [Except.ok.injEq, exists_eq_left']
      cases hraw : t.tree[k]? with
      | none => simp
      | some raw =>
        simp only [Option.some.injEq, exists_eq_left']
        cases hrow : st.decodeStored t raw with
        | error e => simp
        | ok row =>
          have hcol : i.colIdx < row.length := by rwa [length_decodeStored hrow]
          simp only [getElem?_column hcol, Except.ok.injEq, forall_eq']
          cases (Table.column row i.colIdx).eqv sec <;> simp

theorem checkIndexed_ok_iff {i : SecondaryIndex} (hi : i.colIdx < t.schema.columns.length)
    (hpk : t.schema.pkIdx < t.schema.columns.length) {r : Datum × Row}
    (hlen : r.2.length = t.schema.columns.length) :
    checkIndexed txt t i r = .ok [] ↔ ∀ e, encodeSecIndexKey (Table.column r.2 i.colIdx)
      (Table.column r.2 t.schema.pkIdx) = .ok e → e ∈ i.tree := by
  rw [checkIndexed, getElem?_column (hlen ▸ hi), getElem?_column (hlen ▸ hpk)]
  dsimp only
  cases hentry :
    encodeSecIndexKey (Table.column r.2 i.colIdx) (Table.column r.2 t.schema.pkIdx) with
  | error e => simp
  | ok k => by_cases hk : k ∈ i.tree <;> simp [hk]

/-- Nothing is found in an index just if it lists the rows and its entries pass. -/
theorem checkIndex_ok_iff {i : SecondaryIndex} (hi : i.colIdx < t.schema.columns.length)
    (hpk : t.schema.pkIdx < t.schema.columns.length) {rows : List (Datum × Row)}
    (h : Collected st t rows) :
    checkIndex txt st t rows i = .ok [] ↔
      (∀ e ∈ i.tree, Accepted st t i e) ∧ ∀ e, Genuine st t i e → e ∈ i.tree := by
  have hentries :
      (∃ found, i.tree.toList.mapM (checkEntry txt st t i) = .ok found ∧ found.flatten = []) ↔
        ∀ e ∈ i.tree, Accepted st t i e := by
    rw [Outcome.mapM_flatten_nil_iff]
    exact forall_congr' fun e => by rw [ExtTreeSet.mem_toList, checkEntry_ok_iff hi]
  have hmissing : (∃ found, rows.mapM (checkIndexed txt t i) = .ok found ∧ found.flatten = []) ↔
      ∀ e, Genuine st t i e → e ∈ i.tree := by
    rw [Outcome.mapM_flatten_nil_iff]
    constructor
    · rintro hall e ⟨k, row, hrow, hentry⟩
      obtain ⟨r, hr, rfl⟩ := h.all k row hrow
      obtain ⟨raw, -, hdecode⟩ := hrow
      exact (checkIndexed_ok_iff hi hpk (length_decodeStored hdecode)).mp (hall r hr) e hentry
    · intro hall r hr
      obtain ⟨k, raw, hraw, hdecode⟩ := h.stored r hr
      exact (checkIndexed_ok_iff hi hpk (length_decodeStored hdecode)).mpr fun e hentry =>
        hall e ⟨k, r.2, ⟨raw, hraw, hdecode⟩, hentry⟩
  rw [← hentries, ← hmissing, checkIndex]
  constructor
  · intro hrun
    obtain ⟨entries, hentries, hrun⟩ := Outcome.bind_ok hrun
    obtain ⟨missing, hmissing, hrun⟩ := Outcome.bind_ok hrun
    obtain ⟨he, hm⟩ := List.append_eq_nil_iff.mp (Except.ok.inj hrun)
    exact ⟨⟨entries, hentries, he⟩, missing, hmissing, hm⟩
  · rintro ⟨⟨entries, hentries, he⟩, missing, hmissing, hm⟩
    rw [hentries]
    change (rows.mapM (checkIndexed txt t i) >>= _) = _
    rw [hmissing]
    change Except.ok (entries.flatten ++ missing.flatten) = _
    rw [he, hm]
    rfl

/-! ## Foreign keys -/

theorem checkReference_nil_iff {parent : Table} {fk : ForeignKeyDef} {col : Nat} {r : Datum × Row}
    (hcol : col < r.2.length) : checkReference txt parent fk col r = [] ↔
      (Table.column r.2 col ≠ .null →
        ∃ k, encodeKey (Table.column r.2 col) = .ok k ∧ k ∈ parent.tree) := by
  rw [checkReference, getElem?_column hcol]
  cases hv : Table.column r.2 col with
  | null => simp
  | _ =>
    simp only [encodeKey, Except.ok.injEq, exists_eq_left']
    split <;> simp_all

/-- Nothing is found for a foreign key just if it resolves and its values are keys. -/
theorem checkForeignKey_nil_iff {rows : List (Datum × Row)} (h : Collected st t rows)
    (fk : ForeignKeyDef) :
    checkForeignKey txt st t rows fk = [] ↔
      Resolves st t fk ∧ ∀ v, HasReference st t fk v → KeyOfParent st fk v := by
  rw [checkForeignKey, Resolves]
  cases hparent : st.parentTable fk with
  | none => simp
  | some parent =>
    cases hcol : t.schema.indexOf fk.column with
    | none => simp
    | some col =>
      have hlt : col < t.schema.columns.length := by
        rw [Schema.indexOf] at hcol
        exact (List.findIdx?_eq_some_iff_findIdx_eq.mp hcol).1
      simp only [Option.some.injEq, exists_eq', and_self, true_and, List.flatMap_eq_nil_iff]
      constructor
      · rintro hall v ⟨col', k, row, hcol', hrow, rfl, hne⟩
        cases hcol.symm.trans hcol'
        obtain ⟨r, hr, rfl⟩ := h.all k row hrow
        obtain ⟨raw, -, hdecode⟩ := hrow
        obtain ⟨pk, hpk, hmem⟩ :=
          (checkReference_nil_iff (by rwa [length_decodeStored hdecode])).mp (hall r hr) hne
        exact ⟨parent, pk, hparent, hpk, hmem⟩
      · intro hall r hr
        obtain ⟨k, raw, hraw, hdecode⟩ := h.stored r hr
        refine (checkReference_nil_iff (by rwa [length_decodeStored hdecode])).mpr fun hne => ?_
        obtain ⟨parent', pk, hparent', hpk, hmem⟩ :=
          hall _ ⟨col, k, r.2, hcol, ⟨raw, hraw, hdecode⟩, rfl, hne⟩
        cases hparent.symm.trans hparent'
        exact ⟨pk, hpk, hmem⟩

/-! ## The report -/

variable {n : String}

/-- Nothing is found just if all tests pass. -/
theorem tableErrors_ok_iff (ht : st.catalog.tables[n]? = some t) :
    tableErrors txt st t = .ok [] ↔ Passes st t := by
  have hindex : ∀ rows, Collected st t rows →
      ((∃ found, t.indexes.mapM (checkIndex txt st t rows) = .ok found ∧ found.flatten = []) ↔
        ∀ i ∈ t.indexes,
          (∀ e ∈ i.tree, Accepted st t i e) ∧ ∀ e, Genuine st t i e → e ∈ i.tree) := by
    intro rows hrows
    rw [Outcome.mapM_flatten_nil_iff]
    exact forall₂_congr fun i hi =>
      checkIndex_ok_iff (st.indexed n t ht i hi) (st.keyed n t ht) hrows
  have hforeign : ∀ rows, Collected st t rows →
      (t.info.foreignKeys.flatMap (checkForeignKey txt st t rows) = [] ↔
        ∀ fk ∈ t.info.foreignKeys, Resolves st t fk ∧
          ∀ v, HasReference st t fk v → KeyOfParent st fk v) := by
    intro rows hrows
    rw [List.flatMap_eq_nil_iff]
    exact forall₂_congr fun fk _ => checkForeignKey_nil_iff hrows fk
  rw [tableErrors]
  constructor
  · intro h
    obtain ⟨⟨rowErrors, rows⟩, hrows, h⟩ := Outcome.bind_ok h
    obtain ⟨found, hfound, h⟩ := Outcome.bind_ok h
    obtain ⟨hnil, hforeign'⟩ := List.append_eq_nil_iff.mp (Except.ok.inj h)
    obtain ⟨rfl, hflat⟩ := List.append_eq_nil_iff.mp hnil
    have hcollected := collected_of_decodes (checkRows_tree_iff.mp hrows)
    have hindexes := (hindex rows hcollected).mp ⟨found, hfound, hflat⟩
    have hkeys := (hforeign rows hcollected).mp hforeign'
    exact ⟨hcollected.readable, fun i hi => (hindexes i hi).2, fun i hi => (hindexes i hi).1,
      fun fk hfk => (hkeys fk hfk).1, fun fk hfk => (hkeys fk hfk).2⟩
  · intro h
    obtain ⟨rows, hrows⟩ := exists_decodes h.readable
    have hcollected := collected_of_decodes hrows
    obtain ⟨found, hfound, hflat⟩ :=
      (hindex rows hcollected).mpr fun i hi => ⟨h.accepted i hi, h.listed i hi⟩
    have hforeign' :=
      (hforeign rows hcollected).mpr fun fk hfk => ⟨h.resolves fk hfk, h.keys fk hfk⟩
    rw [checkRows_tree_iff.mpr hrows]
    change (t.indexes.mapM (checkIndex txt st t rows) >>= _) = _
    rw [hfound]
    change Except.ok ([] ++ found.flatten ++ _) = _
    rw [hflat, hforeign']
    rfl

/-- The table is reported without an error. -/
def Clean (txt : Texts) (st : State) (name : String) : Prop :=
  ∃ report, checkTableLocked txt st name = .ok report ∧ report.isOk = true

theorem clean_iff {name : String} (ht : st.catalog.tables[st.resolveTableKey name]? = some t) :
    Clean txt st name ↔ Passes st t := by
  rw [← tableErrors_ok_iff ht, Clean]
  constructor
  · rintro ⟨report, hrun, hok⟩
    rw [checkTableLocked, ht] at hrun
    obtain ⟨errors, herrors, hrun⟩ := Outcome.bind_ok hrun
    cases hrun
    cases errors with
    | nil => exact herrors
    | cons e es => simp [CheckReport.isOk] at hok
  · intro herrors
    rw [checkTableLocked, ht]
    change ∃ report, (tableErrors txt st t >>= _) = _ ∧ _
    rw [herrors]
    exact ⟨_, rfl, rfl⟩

/-! ## What is missed and what is no fault -/

/-- Something is wrong, and a test fails for it. -/
inductive Plain (st : State) (t : Table) : Prop
  | unreadable {k raw} : t.tree[k]? = some raw → ¬ Readable st t k raw → Plain st t
  | unlisted {i e} : i ∈ t.indexes → Genuine st t i e → e ∉ i.tree → Plain st t
  | stray {i e} : i ∈ t.indexes → e ∈ i.tree → ¬ Accepted st t i e → ¬ Genuine st t i e → Plain st t
  | dangling {fk v} : fk ∈ t.info.foreignKeys → HasReference st t fk v → ¬ KeyOfParent st fk v →
      ¬ Referenced st fk v → Plain st t

/-- A test fails and nothing is wrong there. -/
inductive Alarm (st : State) (t : Table) : Prop
  | refused {i e} : i ∈ t.indexes → e ∈ i.tree → ¬ Accepted st t i e → Genuine st t i e → Alarm st t
  | unresolved {fk} : fk ∈ t.info.foreignKeys → ¬ Resolves st t fk → Alarm st t
  | elsewhere {fk v} : fk ∈ t.info.foreignKeys → HasReference st t fk v → ¬ KeyOfParent st fk v →
      Referenced st fk v → Alarm st t

/-- Something is wrong, and no test fails for it. -/
inductive Hidden (st : State) (t : Table) : Prop
  | misplaced {k row} : Stored st t k row → ¬ Owns t k row → Hidden st t
  | extra {i e} : i ∈ t.indexes → e ∈ i.tree → Accepted st t i e → ¬ Genuine st t i e → Hidden st t
  | keyOnly {fk v} : fk ∈ t.info.foreignKeys → HasReference st t fk v → KeyOfParent st fk v →
      ¬ Referenced st fk v → Hidden st t

theorem not_passes_iff : ¬ Passes st t ↔ Plain st t ∨ Alarm st t := by
  constructor
  · intro h
    by_contra hnone
    rw [not_or] at hnone
    obtain ⟨hplain, halarm⟩ := hnone
    refine h ⟨fun k raw hraw => ?_, fun i hi e he => ?_, fun i hi e he => ?_, fun fk hfk => ?_,
      fun fk hfk v hv => ?_⟩
    · by_contra hbad
      exact hplain (.unreadable hraw hbad)
    · by_contra hbad
      exact hplain (.unlisted hi he hbad)
    · by_contra hbad
      by_cases hgenuine : Genuine st t i e
      · exact halarm (.refused hi he hbad hgenuine)
      · exact hplain (.stray hi he hbad hgenuine)
    · by_contra hbad
      exact halarm (.unresolved hfk hbad)
    · by_contra hbad
      by_cases href : Referenced st fk v
      · exact halarm (.elsewhere hfk hv hbad href)
      · exact hplain (.dangling hfk hv hbad href)
  · rintro (hplain | halarm) h
    · cases hplain with
      | unreadable hraw hbad => exact hbad (h.readable _ _ hraw)
      | unlisted hi he hbad => exact hbad (h.listed _ hi _ he)
      | stray hi he hbad _ => exact hbad (h.accepted _ hi _ he)
      | dangling hfk hv hbad _ => exact hbad (h.keys _ hfk _ hv)
    · cases halarm with
      | refused hi he hbad _ => exact hbad (h.accepted _ hi _ he)
      | unresolved hfk hbad => exact hbad (h.resolves _ hfk)
      | elsewhere hfk hv hbad _ => exact hbad (h.keys _ hfk _ hv)

theorem not_healthy_iff : ¬ Healthy st t ↔ Plain st t ∨ Hidden st t := by
  constructor
  · intro h
    by_contra hnone
    rw [not_or] at hnone
    obtain ⟨hplain, hhidden⟩ := hnone
    refine h ⟨fun k raw hraw => ?_, fun k row hrow => ?_,
      fun i hi e => ⟨fun he => ?_, fun he => ?_⟩, fun fk hfk v hv => ?_⟩
    · by_contra hbad
      exact hplain (.unreadable hraw hbad)
    · by_contra hbad
      exact hhidden (.misplaced hrow hbad)
    · by_contra hbad
      by_cases hacc : Accepted st t i e
      · exact hhidden (.extra hi he hacc hbad)
      · exact hplain (.stray hi he hacc hbad)
    · by_contra hbad
      exact hplain (.unlisted hi he hbad)
    · by_contra hbad
      by_cases hkey : KeyOfParent st fk v
      · exact hhidden (.keyOnly hfk hv hkey hbad)
      · exact hplain (.dangling hfk hv hkey hbad)
  · rintro (hplain | hhidden) h
    · cases hplain with
      | unreadable hraw hbad => exact hbad (h.readable _ _ hraw)
      | unlisted hi he hbad => exact hbad ((h.indexed _ hi _).mpr he)
      | stray hi he _ hbad => exact hbad ((h.indexed _ hi _).mp he)
      | dangling hfk hv _ hbad => exact hbad (h.referenced _ hfk _ hv)
    · cases hhidden with
      | misplaced hrow hbad => exact hbad (h.owned _ _ hrow)
      | extra hi he _ hbad => exact hbad ((h.indexed _ hi _).mp he)
      | keyOnly hfk hv _ hbad => exact hbad (h.referenced _ hfk _ hv)

theorem decodeSecIndexKey_float (bits : UInt64) {k : Bytes} {pk : Datum}
    (hk : decodeKey k = .ok pk) :
    decodeSecIndexKey (encodeSecKeyPrefix (.float bits) ++ k) =
      .ok (.float (F64.ofOrdered (F64.ordered bits)), pk) := by
  have hsplit : Query.splitSecKey (encodeSecKeyPrefix (.float bits) ++ k) =
      .ok (.float (F64.ofOrdered (F64.ordered bits)), k) := by
    rw [encodeSecKeyPrefix, List.cons_append, Query.splitSecKey]
    simp only [secWord_append (length_beBytes _), Except.map, beValue_beBytes (UInt64.toNat_lt _),
      UInt64.ofNat_toNat]
  rw [decodeSecIndexKey, hsplit]
  change (decodeKey k >>= _) = _
  rw [hk]
  rfl

/-! ## Restoring -/

def restoreKv (st : State) (t : Table) (kv : Bytes × Bytes) : Except Fault Table := do
  let row ← (st.decodeStored t kv.2).mapError Fault.err
  let expect ← (t.keyOf row).mapError Fault.err
  if expect ≠ kv.1 then throw (.err (.corrupted "snapshot key/row mismatch"))
  else putRestored t kv.1 kv.2 row

/-- The rows of the table are taken back from a checkpoint. -/
def Restorable (st : State) (t : Table) : Prop :=
  ∃ t', t.tree.toList.foldlM (restoreKv st) (Table.new t.tableDef) = .ok t'

theorem restoreKv_ok {t' : Table} (hschema : t'.schema = t.schema) {kv : Bytes × Bytes} {row : Row}
    (hrow : st.decodeStored t kv.2 = .ok row) (hown : Owns t kv.1 row) :
    ∃ t'', restoreKv st t' kv = .ok t'' ∧ t''.schema = t.schema := by
  have hrow' : st.decodeStored t' kv.2 = .ok row := by rwa [State.decodeStored, hschema]
  have hkey : t'.keyOf row = .ok kv.1 := by rwa [Table.keyOf, hschema]
  obtain ⟨t'', hput⟩ := putRestored_ok hkey kv.2
  refine ⟨t'', ?_, (congrArg TableDef.schema (putRestored_extends hput).info).trans hschema⟩
  rw [restoreKv, hrow']
  change ((t'.keyOf row).mapError Fault.err >>= _) = _
  rw [hkey]
  change (if kv.1 ≠ kv.1 then _ else _) = _
  rw [if_neg (not_not_intro rfl), hput]

theorem foldlM_restoreKv : ∀ {kvs : List (Bytes × Bytes)} {t' : Table}, t'.schema = t.schema →
    (∀ kv ∈ kvs, ∃ row, st.decodeStored t kv.2 = .ok row ∧ Owns t kv.1 row) →
      ∃ t'', kvs.foldlM (restoreKv st) t' = .ok t''
  | [], t', _, _ => ⟨t', rfl⟩
  | kv :: kvs, t', hschema, h => by
    obtain ⟨row, hrow, hown⟩ := h kv List.mem_cons_self
    obtain ⟨t1, hkv, hschema'⟩ := restoreKv_ok hschema hrow hown
    obtain ⟨t2, hrest⟩ :=
      foldlM_restoreKv hschema' fun kv hkv => h kv (List.mem_cons_of_mem _ hkv)
    refine ⟨t2, ?_⟩
    rw [List.foldlM_cons, hkv]
    exact hrest

theorem Healthy.restorable (h : Healthy st t) : Restorable st t := by
  refine foldlM_restoreKv rfl fun kv hkv => ?_
  have hraw := ExtTreeMap.mem_toList_iff_getElem?_eq_some.mp hkv
  obtain ⟨-, row, hrow, -⟩ := h.readable kv.1 kv.2 hraw
  exact ⟨row, hrow, h.owned kv.1 row ⟨kv.2, hraw, hrow⟩⟩

/-! ## The check -/

/-- A table is reported clean just if nothing is wrong with it, and then its rows are taken
back from a checkpoint. -/
def Exact (txt : Texts) (st : State) (name : String) (t : Table) : Prop :=
  (Clean txt st name ↔ Healthy st t) ∧ (Clean txt st name → Restorable st t)

/-- The check is exact where something is wrong that fails a test, and otherwise where there
is a false alarm just if there is a hidden fault. -/
theorem exact_iff {name : String} (ht : st.catalog.tables[st.resolveTableKey name]? = some t) :
    Exact txt st name t ↔ Plain st t ∨ (Alarm st t ↔ Hidden st t) := by
  have hclean : Clean txt st name ↔ ¬ (Plain st t ∨ Alarm st t) := by
    rw [clean_iff ht, ← not_passes_iff, not_not]
  have hhealthy : Healthy st t ↔ ¬ (Plain st t ∨ Hidden st t) := by
    rw [← not_healthy_iff, not_not]
  constructor
  · rintro ⟨hiff, -⟩
    rw [hclean, hhealthy, not_iff_not] at hiff
    by_cases hplain : Plain st t
    · exact .inl hplain
    · rw [or_iff_right hplain, or_iff_right hplain] at hiff
      exact .inr hiff
  · intro h
    have hiff : Clean txt st name ↔ Healthy st t := by
      rw [hclean, hhealthy, not_iff_not]
      rcases h with hplain | hsame
      · exact iff_of_true (.inl hplain) (.inl hplain)
      · rw [hsame]
    exact ⟨hiff, fun hreport => (hiff.mp hreport).restorable⟩

/-! ### A row under another key -/

/-- A row of `wideTable`. -/
def movedRow : Row := [.int 2, .null]

def movedTable (k : Bytes) : Table :=
  { Table.new wideTable with tree := (∅ : ExtTreeMap Bytes Bytes).insert k (encodeRow movedRow) }

theorem movedTable_tree {k k' raw : Bytes} (h : (movedTable k).tree[k']? = some raw) :
    k' = k ∧ raw = encodeRow movedRow :=
  Entries.eq_of_insert_empty h

/-- A database with that table and an empty pool. -/
def movedState (k : Bytes) : State where
  catalog :=
    { databases := (∅ : ExtTreeSet String).insert "default"
      tables := (∅ : ExtTreeMap String Table).insert "default.t" (movedTable k) }
  currentDb := "default"
  load _ := .error (.corrupted "page not found")
  keyed n t ht := by
    obtain ⟨-, rfl⟩ := Entries.eq_of_insert_empty ht
    exact Nat.zero_lt_two
  indexed n t ht i hi := by
    obtain ⟨-, rfl⟩ := Entries.eq_of_insert_empty ht
    cases hi

theorem movedState_table (k : Bytes) :
    (movedState k).catalog.tables[(movedState k).resolveTableKey "default.t"]? =
      some (movedTable k) :=
  ExtTreeMap.getElem?_insert_self

theorem stored_movedRow (k : Bytes) : Stored (movedState k) (movedTable k) k movedRow := by
  refine ⟨encodeRow movedRow, ExtTreeMap.getElem?_insert_self, ?_⟩
  rw [State.decodeStored, State.resolveValue, if_neg (by decide)]
  have hlen : movedRow.length = (movedTable k).schema.columns.length := rfl
  exact decodeRow_encodeRow hlen (by simp [movedRow, Datum.Sized])

theorem exact_movedRow : Exact ⟨fun _ => "", fun _ => "", fun _ => ""⟩ (movedState (1 :: keyInt 2))
    "default.t" (movedTable (1 :: keyInt 2)) ↔
      Plain (movedState (1 :: keyInt 2)) (movedTable (1 :: keyInt 2)) ∨
        (Alarm (movedState (1 :: keyInt 2)) (movedTable (1 :: keyInt 2)) ↔
          Hidden (movedState (1 :: keyInt 2)) (movedTable (1 :: keyInt 2))) :=
  exact_iff (movedState_table _)

/-- A row under the key of another value is reported clean. -/
theorem not_exact_movedRow : ¬ ∀ (txt : Texts) (st : State) (name : String) (t : Table),
    st.catalog.tables[st.resolveTableKey name]? = some t → Exact txt st name t := by
  intro h
  have hexact := h ⟨fun _ => "", fun _ => "", fun _ => ""⟩ (movedState (1 :: keyInt 1)) "default.t"
    (movedTable (1 :: keyInt 1)) (movedState_table _)
  have hstored := stored_movedRow (1 :: keyInt 1)
  have hpasses : Passes (movedState (1 :: keyInt 1)) (movedTable (1 :: keyInt 1)) := by
    refine ⟨fun k raw hraw => ?_, fun i hi => ?_, fun i hi => ?_, fun fk hfk => ?_,
      fun fk hfk => ?_⟩
    · obtain ⟨rfl, rfl⟩ := movedTable_tree hraw
      obtain ⟨raw, hraw', hrow⟩ := hstored
      obtain ⟨-, rfl⟩ := movedTable_tree hraw'
      exact ⟨⟨.int 1, by decide⟩, movedRow, hrow, rfl, by unfold NotNull; decide⟩
    · cases hi
    · cases hi
    · cases hfk
    · cases hfk
  have hhealthy := hexact.1.mp ((clean_iff (movedState_table _)).mpr hpasses)
  exact absurd (hhealthy.owned _ _ hstored) (by unfold Owns; decide)

end HenchDB.Check
