import HenchDB.Check.Exact
import HenchDB.Check.History

/-!
# Logical hashes

The hash of a table is taken of the keys and the values of its tree.  So it is a function of
the rows as long as the tree has the rows themselves, under their own keys
(`hashes_agree`).  A wide row leaves a locator in the tree, and the hash tells where it was
stored (`wideRow_hashes`).
-/

namespace HenchDB.Check

open Std (ExtTreeMap ExtTreeSet)
open Codec Program Pool Replica
open Query (decodeSecIndexKey)

/-! ## The hashes -/

def tableName (st : State) (key : String) : Option String :=
  if Catalog.inDatabase st.currentDb key then
    some (String.ofList (key.toList.drop (Catalog.dbPrefix st.currentDb).length))
  else if st.currentDb = "default" ∧ '.' ∉ key.toList then some key
  else none

def tableNames (st : State) : List String :=
  (st.catalog.tables.keys.filterMap (tableName st)).mergeSort fun a b => (compare a b).isLE

def tableLogicalHash (txt : Texts) (st : State) (name : String) : Except Fault UInt32 := do
  let report ← checkTableLocked txt st name
  return report.hash

def hashedTable (txt : Texts) (st : State) (name : String) : Except Fault Bytes := do
  let hash ← tableLogicalHash txt st name
  return leBytes 4 (utf8 name).length ++ utf8 name ++ leBytes 4 hash.toNat

def databaseLogicalHash (txt : Texts) (st : State) : Except Fault UInt32 := do
  let parts ← (tableNames st).mapM (hashedTable txt st)
  return Wal.crc32 parts.flatten

/-! ## Contents -/

/-- A row of a table of the current database. -/
def HasRow (st : State) (name : String) (row : Row) : Prop :=
  ∃ key t k, tableName st key = some name ∧ st.catalog.tables[key]? = some t ∧ Stored st t k row

/-- The current databases have the same tables with the same rows. -/
structure SameContents (st st' : State) : Prop where
  names : ∀ name, name ∈ tableNames st ↔ name ∈ tableNames st'
  rows : ∀ name row, HasRow st name row ↔ HasRow st' name row

/-- Tables of one name have the same primary-key column. -/
def SameKeys (st st' : State) : Prop :=
  ∀ name key key' t t', tableName st key = some name → tableName st' key' = some name →
    st.catalog.tables[key]? = some t → st'.catalog.tables[key']? = some t' →
      t.schema.pkIdx = t'.schema.pkIdx

/-- What a session of the database reads in the epoch `current`. -/
structure Views (current : Nat) (d : Db) (st : State) : Prop where
  catalog : st.catalog = d.catalog
  load : ∀ x b, st.load x = .ok b ↔ ∃ s, Returns (load current x) d.pool b s

/-! ## Names -/

section
variable {txt : Texts} {st st' : State} {n name : String} {t t' : Table}

theorem mem_tableNames : name ∈ tableNames st ↔
    ∃ key t, tableName st key = some name ∧ st.catalog.tables[key]? = some t := by
  rw [tableNames, (List.mergeSort_perm _ _).mem_iff, List.mem_filterMap]
  constructor
  · rintro ⟨key, hkey, hname⟩
    rw [ExtTreeMap.mem_keys, ExtTreeMap.mem_iff_isSome_getElem?, Option.isSome_iff_exists] at hkey
    obtain ⟨t, ht⟩ := hkey
    exact ⟨key, t, hname, ht⟩
  · rintro ⟨key, t, hname, ht⟩
    refine ⟨key, ?_, hname⟩
    rw [ExtTreeMap.mem_keys, ExtTreeMap.mem_iff_isSome_getElem?, ht]
    rfl

variable {key : String} {k : Bytes}

theorem of_tableName (hdot : key.toList.count '.' = 1) (h : tableName st key = some name) :
    key = s!"{st.currentDb}.{name}" ∧ '.' ∉ name.toList := by
  have hmem : '.' ∈ key.toList := List.count_pos_iff.mp (by omega)
  rw [tableName] at h
  split at h
  · next hin =>
    obtain ⟨rest, hrest⟩ := List.isPrefixOf_iff_prefix.mp hin
    rw [← hrest, List.drop_left] at h
    cases h
    have htext : s!"{st.currentDb}.{String.ofList rest}".toList = key.toList := by
      show (st.currentDb ++ "." ++ String.ofList rest).toList = key.toList
      rw [String.toList_append, String.toList_append, String.toList_ofList,
        String.toList_ofList, ← hrest, Catalog.dbPrefix]
    refine ⟨String.toList_injective htext.symm, ?_⟩
    rw [← hrest, Catalog.dbPrefix] at hdot
    simp only [List.count_append, List.count_singleton_self] at hdot
    rw [String.toList_ofList]
    exact List.count_eq_zero.mp (by omega)
  · split at h
    · next hplain => exact absurd hmem hplain.2
    · cases h

theorem tableName_inj (h : AllSettled st.catalog) {key' : String}
    (ht : st.catalog.tables[key]? = some t) (ht' : st.catalog.tables[key']? = some t')
    (hname : tableName st key = some name) (hname' : tableName st key' = some name) :
    key = key' := by
  have hkey := (of_tableName (h key t ht).qualified hname).1
  have hkey' := (of_tableName (h key' t' ht').qualified hname').1
  exact hkey.trans hkey'.symm

theorem resolveTableKey_tableName (h : AllSettled st.catalog)
    (ht : st.catalog.tables[key]? = some t) (hname : tableName st key = some name) :
    st.resolveTableKey name = key := by
  obtain ⟨hkey, hplain⟩ := of_tableName (h key t ht).qualified hname
  have hcontains : st.catalog.tables.contains s!"{st.currentDb}.{name}" = true := by
    rw [← hkey, ExtTreeMap.contains_eq_isSome_getElem?, ht]
    rfl
  rw [State.resolveTableKey, if_neg hplain]
  dsimp only
  rw [if_pos hcontains, hkey]

theorem nodup_tableNames (h : AllSettled st.catalog) :
    (st.catalog.tables.keys.filterMap (tableName st)).Nodup := by
  have hfound : ∀ key ∈ st.catalog.tables.keys, ∃ t, st.catalog.tables[key]? = some t := by
    intro key hkey
    rw [ExtTreeMap.mem_keys, ExtTreeMap.mem_iff_isSome_getElem?] at hkey
    exact Option.isSome_iff_exists.mp hkey
  refine List.pairwise_filterMap.mpr (ExtTreeMap.nodup_keys.imp_of_mem ?_)
  rintro key key' hkey hkey' hne name hname _ hname' rfl
  obtain ⟨t, ht⟩ := hfound key hkey
  obtain ⟨t', ht'⟩ := hfound key' hkey'
  exact hne (tableName_inj h ht ht' hname hname')

theorem tableNames_eq (h : AllSettled st.catalog) (h' : AllSettled st'.catalog)
    (hsame : ∀ name, name ∈ tableNames st ↔ name ∈ tableNames st') :
    tableNames st = tableNames st' := by
  have hsorted : ∀ st : State, (tableNames st).Pairwise fun a b => (compare a b).isLE := by
    intro st
    refine List.pairwise_mergeSort (fun a b c => Std.TransCmp.isLE_trans) (fun a b => ?_) _
    have hswap : compare b a = (compare a b).swap := Std.OrientedCmp.eq_swap
    rw [hswap]
    cases compare a b <;> rfl
  have hnodup : ∀ st : State, AllSettled st.catalog → (tableNames st).Nodup := fun st h =>
    (List.mergeSort_perm _ _).nodup_iff.mpr (nodup_tableNames h)
  have hperm := (List.perm_ext_iff_of_nodup (hnodup st h) (hnodup st' h')).mpr hsame
  refine hperm.eq_of_pairwise (fun a b _ _ hab hba => ?_) (hsorted st) (hsorted st')
  exact Std.compare_eq_iff_eq.mp (Std.OrientedCmp.isLE_antisymm hab hba)

/-! ## The check returns -/

theorem decodeSecIndexKey_isEntry {e : Bytes} (h : IsEntry e) :
    ∃ sec pk, decodeSecIndexKey e = .ok (sec, pk) := by
  obtain ⟨v, d, he⟩ := h
  cases hk : encodeKey d with
  | error e' =>
    rw [encodeSecIndexKey, hk] at he
    cases he
  | ok k =>
    rw [encodeSecIndexKey, hk] at he
    cases he
    obtain ⟨pk, hpk, -⟩ := decodeKey_encodeKey hk
    by_cases hfloat : ∃ bits, v = .float bits
    · obtain ⟨bits, rfl⟩ := hfloat
      exact ⟨_, _, decodeSecIndexKey_float bits hpk⟩
    · exact ⟨_, _, decodeSecIndexKey_entry (fun bits hbits => hfloat ⟨bits, hbits⟩) hpk⟩

theorem checkEntry_returns (i : SecondaryIndex) {e : Bytes} (h : IsEntry e) :
    ∃ errors, checkEntry txt st t i e = .ok errors := by
  obtain ⟨sec, pk, hdecode⟩ := decodeSecIndexKey_isEntry h
  rw [checkEntry, hdecode]
  dsimp only
  split
  · exact ⟨_, rfl⟩
  · split
    · exact ⟨_, rfl⟩
    · split
      · exact ⟨_, rfl⟩
      · split
        · exact ⟨_, rfl⟩
        · split
          · exact ⟨_, rfl⟩
          · exact ⟨_, rfl⟩

theorem checkIndexed_returns (i : SecondaryIndex) {r : Datum × Row}
    (hpk : t.schema.pkIdx < r.2.length) : ∃ errors, checkIndexed txt t i r = .ok errors := by
  rw [checkIndexed, getElem?_column hpk]
  split
  · exact ⟨_, rfl⟩
  · dsimp only
    split
    · exact ⟨_, rfl⟩
    · split
      · exact ⟨_, rfl⟩
      · exact ⟨_, rfl⟩

theorem checkRow_returns {kv : Bytes × Bytes} (h : ∃ pk, decodeKey kv.1 = .ok pk) :
    ∃ errors row, checkRow txt st t kv = .ok (errors, row) ∧
      ∀ r ∈ row, r.2.length = t.schema.columns.length := by
  obtain ⟨pk, hpk⟩ := h
  rw [checkRow, hpk]
  cases hrow : st.decodeStored t kv.2 with
  | error e => exact ⟨_, none, rfl, by simp⟩
  | ok row =>
    refine ⟨_, some (pk, row), rfl, ?_⟩
    rintro r ⟨⟩
    exact length_decodeStored hrow

theorem checkRows_returns : ∀ {kvs : List (Bytes × Bytes)} (prev : Option Bytes),
    (∀ kv ∈ kvs, ∃ pk, decodeKey kv.1 = .ok pk) →
      ∃ errors rows, checkRows txt st t prev kvs = .ok (errors, rows) ∧
        ∀ r ∈ rows, r.2.length = t.schema.columns.length
  | [], prev, _ => ⟨[], [], by rw [checkRows], by simp⟩
  | kv :: kvs, prev, h => by
    obtain ⟨errors, row, hrow, hrowlen⟩ :=
      checkRow_returns (t := t) (h kv List.mem_cons_self)
    obtain ⟨errors', rows, hrest, hlen⟩ :=
      checkRows_returns (some kv.1) fun kv' hkv' => h kv' (List.mem_cons_of_mem _ hkv')
    refine ⟨orderErrors txt prev kv.1 ++ errors ++ errors', row.toList ++ rows, ?_, ?_⟩
    · rw [checkRows, hrow]
      show (checkRows txt st t (some kv.1) kvs >>= _) = _
      rw [hrest]
      rfl
    · refine List.forall_mem_append.mpr ⟨fun r hr => hrowlen r ?_, hlen⟩
      exact Option.mem_toList.mp hr

theorem tableErrors_returns (hkeys : ∀ (k : Bytes) raw, t.tree[k]? = some raw →
    ∃ pk, decodeKey k = .ok pk) (hlisted : Listed t.indexes)
    (hpk : t.schema.pkIdx < t.schema.columns.length) :
    ∃ errors, tableErrors txt st t = .ok errors := by
  obtain ⟨rowErrors, rows, hrows, hlen⟩ := checkRows_returns (t := t) none
    fun kv hkv => hkeys kv.1 kv.2 (ExtTreeMap.mem_toList_iff_getElem?_eq_some.mp hkv)
  have hindexes : ∀ i ∈ t.indexes, ∃ errors, checkIndex txt st t rows i = .ok errors := by
    intro i hi
    obtain ⟨entries, hentries⟩ := Outcome.exists_mapM_ok.mpr fun e he =>
      checkEntry_returns (t := t) i
        (hlisted i hi e (ExtTreeSet.mem_toList.mp he))
    obtain ⟨missing, hmissing⟩ := Outcome.exists_mapM_ok.mpr fun r hr =>
      checkIndexed_returns (t := t) i (hlen r hr ▸ hpk)
    rw [checkIndex, hentries]
    show ∃ errors, (rows.mapM (checkIndexed txt t i) >>= _) = Except.ok errors
    rw [hmissing]
    exact ⟨_, rfl⟩
  obtain ⟨found, hfound⟩ := Outcome.exists_mapM_ok.mpr hindexes
  rw [tableErrors, hrows]
  show ∃ errors, (t.indexes.mapM (checkIndex txt st t rows) >>= _) = Except.ok errors
  rw [hfound]
  exact ⟨_, rfl⟩

theorem tableLogicalHash_ok (ht : st.catalog.tables[st.resolveTableKey name]? = some t)
    (hkeys : ∀ (k : Bytes) raw, t.tree[k]? = some raw → ∃ pk, decodeKey k = .ok pk)
    (hlisted : Listed t.indexes) :
    tableLogicalHash txt st name = .ok (Wal.crc32 (hasherBuf t.tree.toList)) := by
  obtain ⟨errors, herrors⟩ := tableErrors_returns hkeys hlisted
    (st.keyed _ t ht)
  rw [tableLogicalHash, checkTableLocked, ht]
  show ((tableErrors txt st t >>= _) >>= _) = _
  rw [herrors]
  rfl

theorem tableLogicalHash_settled (h : AllSettled st.catalog) (ht : st.catalog.tables[key]? = some t)
    (hname : tableName st key = some name) :
    tableLogicalHash txt st name = .ok (Wal.crc32 (hasherBuf t.tree.toList)) := by
  have hold := h key t ht
  refine tableLogicalHash_ok ?_ (fun k raw hraw => ?_) hold.listed
  · rw [resolveTableKey_tableName h ht hname, ht]
  · obtain ⟨-, row, -, -, hkey⟩ := hold.rows k raw hraw
    exact (decodeKey_encodeKey hkey).imp fun _ hpk => hpk.1

/-! ## Equal hashes -/

/-- A row begins with the tag of its first value. -/
theorem isLocator_encodeRow (row : Row) : isLocator (encodeRow row) = false := by
  cases row with
  | nil => rfl
  | cons d row =>
    have hhead : ∀ rest, (d.encode ++ rest).head? ≠ some locatorTag := by
      intro rest
      cases d with
      | _ => simp [Datum.encode, locatorTag]
    rw [isLocator, Bool.and_eq_false_iff]
    refine .inr (decide_eq_false fun htake => hhead (encodeRow row) ?_)
    rw [show d.encode ++ encodeRow row = encodeRow (d :: row) from rfl,
      ← List.take_append_drop 2 (encodeRow (d :: row)), htake]
    rfl

theorem sized_of_short {row : Row} (h : (encodeRow row).length ≤ maxInlineRow) :
    ∀ d ∈ row, d.Sized := by
  intro d hd
  obtain ⟨before, after, rfl⟩ := List.append_of_mem hd
  have hshort : d.encode.length ≤ maxInlineRow := by
    refine le_trans ?_ h
    rw [encodeRow, List.flatMap_append, List.flatMap_cons, List.length_append, List.length_append]
    omega
  cases d with
  | text v =>
    rw [Datum.encode, List.length_cons, List.length_append, length_leBytes] at hshort
    have hmax : maxInlineRow < 2 ^ 32 := by decide
    show (utf8 v).length < 2 ^ 32
    omega
  | _ => trivial

theorem stored_settled {raw : Bytes} (h : Settled n t) (hraw : t.tree[k]? = some raw) :
    ∃ row, raw = encodeRow row ∧ Stored st t k row ∧
      encodeKey (Table.column row t.schema.pkIdx) = .ok k := by
  obtain ⟨hshort, row, rfl, hlen, hkey⟩ := h.rows k raw hraw
  refine ⟨row, rfl, ⟨_, hraw, ?_⟩, hkey⟩
  rw [State.decodeStored, State.resolveValue, if_neg (by rw [isLocator_encodeRow]; simp)]
  exact decodeRow_encodeRow hlen (sized_of_short hshort)

/-- What is found in a settled table does not depend on the pool. -/
theorem stored_congr (h : Settled n t) {row : Row} :
    Stored st t k row ↔ Stored st' t k row := by
  refine exists_congr fun raw => and_congr_right fun hraw => ?_
  obtain ⟨-, row, rfl, -⟩ := h.rows k raw hraw
  have hloc : ¬ isLocator (encodeRow row) = true := by simp [isLocator_encodeRow]
  rw [State.decodeStored, State.decodeStored, State.resolveValue, State.resolveValue, if_neg hloc,
    if_neg hloc]

theorem tree_of_settled (h : AllSettled st.catalog) (h' : AllSettled st'.catalog)
    (hkeys : SameKeys st st') (hsame : ∀ name row, HasRow st name row → HasRow st' name row)
    {key' : String} (ht : st.catalog.tables[key]? = some t)
    (ht' : st'.catalog.tables[key']? = some t') (hname : tableName st key = some name)
    (hname' : tableName st' key' = some name) {raw : Bytes} (hraw : t.tree[k]? = some raw) :
    t'.tree[k]? = some raw := by
  obtain ⟨row, rfl, hstored, hkey⟩ := stored_settled (h key t ht) hraw
  obtain ⟨key'', t'', k', hname'', ht'', raw', hraw', hrow'⟩ :=
    hsame name row ⟨key, t, k, hname, ht, hstored⟩
  obtain rfl := tableName_inj h' ht'' ht' hname'' hname'
  cases ht''.symm.trans ht'
  obtain ⟨row', rfl, ⟨raw'', hraw'', hrow''⟩, hkey'⟩ := stored_settled (h' _ _ ht') hraw'
  cases hraw'.symm.trans hraw''
  cases hrow'.symm.trans hrow''
  rw [← hkeys name key _ t _ hname hname' ht ht', hkey] at hkey'
  cases hkey'
  exact hraw'

/-- Short rows under their own keys are all that a hash tells of a history. -/
theorem hashes_agree {d d' : Db} {current current' : Nat} {txt' : Texts}
    (h : History (fun c r => Issued c r ∧ InPlace c r) d)
    (h' : History (fun c r => Issued c r ∧ InPlace c r) d') (hst : Views current d st)
    (hst' : Views current' d' st') (hkeys : SameKeys st st') (hsame : SameContents st st') :
    (∀ name ∈ tableNames st, ∃ hash, tableLogicalHash txt st name = .ok hash ∧
      tableLogicalHash txt' st' name = .ok hash) ∧
    ∃ hash, databaseLogicalHash txt st = .ok hash ∧ databaseLogicalHash txt' st' = .ok hash := by
  have hsettled : AllSettled st.catalog := hst.catalog ▸ h.settled
  have hsettled' : AllSettled st'.catalog := hst'.catalog ▸ h'.settled
  have htables : ∀ name ∈ tableNames st, ∃ hash, tableLogicalHash txt st name = .ok hash ∧
      tableLogicalHash txt' st' name = .ok hash := by
    intro name hmem
    obtain ⟨key, t, hname, ht⟩ := mem_tableNames.mp hmem
    obtain ⟨key', t', hname', ht'⟩ := mem_tableNames.mp ((hsame.names name).mp hmem)
    have htree : t.tree = t'.tree := by
      refine ExtTreeMap.ext_getElem? fun k => Option.ext fun raw => ⟨fun hraw => ?_, fun hraw => ?_⟩
      · exact tree_of_settled hsettled hsettled' hkeys (fun n row => (hsame.rows n row).mp) ht ht'
          hname hname' hraw
      · exact tree_of_settled hsettled' hsettled
          (fun n k k' u u' hn hn' hu hu' => (hkeys n k' k u' u hn' hn hu' hu).symm)
          (fun n row => (hsame.rows n row).mpr) ht' ht hname' hname hraw
    refine ⟨_, tableLogicalHash_settled hsettled ht hname, ?_⟩
    rw [htree]
    exact tableLogicalHash_settled hsettled' ht' hname'
  refine ⟨htables, ?_⟩
  have hparts : ∀ name ∈ tableNames st, ∃ part, hashedTable txt st name = .ok part ∧
      hashedTable txt' st' name = .ok part := by
    intro name hmem
    obtain ⟨hash, hhash, hhash'⟩ := htables name hmem
    rw [hashedTable, hashedTable, hhash, hhash']
    exact ⟨_, rfl, rfl⟩
  obtain ⟨parts, hboth⟩ := Outcome.exists_forall₂ hparts
  have hfirst := Outcome.mapM_ok_iff.mpr (hboth.imp fun _ _ hpart => hpart.1)
  have hsecond := Outcome.mapM_ok_iff.mpr (hboth.imp fun _ _ hpart => hpart.2)
  rw [databaseLogicalHash, databaseLogicalHash, ← tableNames_eq hsettled hsettled' hsame.names,
    hfirst, hsecond]
  exact ⟨_, rfl, rfl⟩

end

/-! ## Views -/

/-- What the pool loads; a panic ends the check, and counts as an error here. -/
def loads (current : Nat) (s : Inner) (x : Frag) : Except Error Bytes :=
  match (exec (load current x) s).1 with
  | .ok bytes => .ok bytes
  | .error (.err e) => .error e
  | .error .panic => .error (.corrupted "page not found")

variable {s : Inner} {d : Db} {t : Table}

theorem loads_ok_iff {current : Nat} {x : Frag} {b : Bytes} :
    loads current s x = .ok b ↔ ∃ s', Returns (load current x) s b s' := by
  obtain ⟨r, s1, hrun⟩ : ∃ r s1, exec (load current x) s = (r, s1) := ⟨_, _, rfl⟩
  simp only [loads, Returns, hrun, Prod.mk.injEq, exists_eq_right']
  cases r with
  | ok bytes => simp
  | error e => cases e <;> simp

/-- The session of a database with the one table `t`. -/
def oneTable (d : Db) (hd : ∀ (n : String) t, d.catalog.tables[n]? = some t →
    t.info = wideTable ∧ t.indexes = []) : State where
  catalog := d.catalog
  currentDb := "default"
  load := loads 0 d.pool
  keyed n t ht := by
    rw [Table.schema, (hd n t ht).1]
    exact Nat.zero_lt_two
  indexed n t ht i hi := by
    rw [(hd n t ht).2] at hi
    cases hi

theorem views_oneTable (hd) : Views 0 d (oneTable d hd) := ⟨rfl, fun _ _ => loads_ok_iff⟩

theorem tableName_oneTable (hd) : tableName (oneTable d hd) "default.t" = some "t" := by
  have hin : Catalog.inDatabase "default" "default.t" = true := by decide
  have hrest : String.ofList ("default.t".toList.drop (Catalog.dbPrefix "default").length) = "t" := by
    decide
  show (if Catalog.inDatabase "default" "default.t" = true then _ else _) = _
  rw [if_pos hin]
  exact congrArg some hrest

/-! ## One row -/

theorem insert_insert {K V : Type} [Ord K] [Std.TransOrd K] [Std.LawfulEqOrd K]
    (m : ExtTreeMap K V) (k : K) (a b : V) : (m.insert k a).insert k b = m.insert k b := by
  refine ExtTreeMap.ext_getElem? fun k' => ?_
  simp only [ExtTreeMap.getElem?_insert]
  split <;> rfl

theorem returns_allocWide {file : PageFile} (hfile : FileOk file) (hroom : file.nextId ≠ 2 ^ 64 - 1) :
    ∃ s', Returns (store .listed 0 (encodeRow wideRow)) (.opened file 1) (file.nextId, 0) s' ∧
      s'.file.nextId = file.nextId + 1 ∧
      Returns (allocValue .listed 0 (encodeRow wideRow)) (.opened file 1)
        (encodeLocator (file.nextId, 0)) s' := by
  have hpos : encodeRow wideRow ≠ [] := by
    rw [← List.length_pos_iff, length_wideRow]
    decide
  have hsmall : (encodeRow wideRow).length ≤ maxFragPayload := by
    rw [length_wideRow]
    decide
  obtain ⟨s', hstore, hnext, -⟩ := store_fresh (inv_opened hfile Nat.one_ne_zero) rfl hroom hpos
    hsmall (by simp [Inner.opened]) .listed 0
  refine ⟨s', hstore, hnext, ?_⟩
  have hwide : ¬ (encodeRow wideRow).length ≤ maxInlineRow := by
    rw [length_wideRow]
    decide
  rw [allocValue, if_neg hwide]
  exact Returns.bind hstore (returns_pure _ _)

def putRow (row : Row) : Record := .put 1 "default.t" wideKey (encodeRow row)

theorem issued_putRow {c : Catalog} {row : Row} (hrow : row.length = 2)
    (h : ∀ t, c.tables["default.t"]? = some t → t.info = wideTable) : Issued c (putRow row) := by
  refine ⟨⟨.int 1, rfl⟩, row, rfl, fun t ht => ?_⟩
  rw [Table.schema, h t ht, hrow]
  rfl

/-- A row is put in a table without indexes. -/
theorem returns_applyRaw {order : HashOrder} {current epoch : Nat} {s1 s2 : Inner}
    {key full raw : Bytes} (hindexes : t.indexes = [])
    (halloc : Returns (allocValue order current full) s raw s1)
    (hfree : Returns (t.tree[key]?.forM (freeValue epoch)) s1 ⟨⟩ s2) :
    Returns (applyRaw order current epoch t key full) s
      { t with tree := t.tree.insert key raw } s2 := by
  refine halloc.bind (hfree.bind ?_)
  dsimp only
  rw [if_pos (by rw [hindexes]; rfl)]
  exact returns_pure _ _

theorem returns_onTable {name : String} {f : Table → PoolM Table} {t' : Table}
    (ht : d.catalog.tables[name]? = some t) (hf : Returns (f t) d.pool t' s) :
    Returns (onTable name f) d ⟨⟩
      ⟨⟨d.catalog.databases, d.catalog.tables.insert name t'⟩, s⟩ := by
  refine (returns_get d).bind ?_
  rw [ht]
  exact (returns_onPool hf).bind (returns_modify _ _)

theorem returns_putRow {c : Catalog} {s1 s2 : Inner} {raw : Bytes} {row : Row}
    (ht : c.tables["default.t"]? = some t) (hindexes : t.indexes = [])
    (halloc : Returns (allocValue .listed 0 (encodeRow row)) s raw s1)
    (hfree : Returns (t.tree[wideKey]?.forM (freeValue 0)) s1 ⟨⟩ s2) :
    Returns (applyRecord .listed 0 0 (putRow row)) ⟨c, s⟩ ⟨⟩
      ⟨⟨c.databases, c.tables.insert "default.t" { t with tree := t.tree.insert wideKey raw }⟩,
        s2⟩ := by
  have hput := returns_applyRaw hindexes halloc hfree
  exact returns_onTable (d := ⟨c, s⟩) ht hput

/-- The catalog of a new directory with the table. -/
def bare : Catalog where
  databases := Catalog.empty.databases
  tables := (∅ : ExtTreeMap String Table).insert "default.t" (Table.new wideTable)

theorem bare_table : bare.tables["default.t"]? = some (Table.new wideTable) :=
  ExtTreeMap.getElem?_insert_self

theorem history_bare {P : Catalog → Record → Prop} (h : P .empty (.createTable 0 wideTable)) :
    History P ⟨bare, newPool⟩ := by
  have hcreated : Catalog.empty.applyRecord (.createTable 0 wideTable) = .ok bare := by
    rw [Catalog.applyRecord, if_neg (by simp [Catalog.empty])]
    rfl
  have hcreate : Returns (applyRecord .listed 0 0 (.createTable 0 wideTable))
      ⟨.empty, newPool⟩ ⟨⟩ ⟨bare, newPool⟩ :=
    (returns_get _).bind ((returns_settle hcreated _).bind (returns_modify _ _))
  exact .applied (.opened Nat.one_ne_zero) h hcreate

theorem issued_bare : Issued .empty (.createTable 0 wideTable) := by
  show List.count _ _ = 1
  decide

theorem returns_free_new (s : Inner) :
    Returns ((Table.new wideTable).tree[wideKey]?.forM (freeValue 0)) s ⟨⟩ s := by
  rw [Table.new, ExtTreeMap.getElem?_empty]
  exact returns_pure _ _

/-! ### A short row -/

def shortRow : Row := [.int 1, .null]

def shortTable : Table :=
  { Table.new wideTable with tree := (Table.new wideTable).tree.insert wideKey (encodeRow shortRow) }

def shortCatalog : Catalog := ⟨bare.databases, bare.tables.insert "default.t" shortTable⟩

theorem shortCatalog_tables {n : String} (h : shortCatalog.tables[n]? = some t) :
    n = "default.t" ∧ t = shortTable := by
  rw [shortCatalog, bare, insert_insert] at h
  exact Entries.eq_of_insert_empty h

theorem history_short :
    History (fun c r => Issued c r ∧ InPlace c r) ⟨shortCatalog, newPool⟩ := by
  have hshort : (encodeRow shortRow).length ≤ maxInlineRow := by decide
  have halloc : Returns (allocValue .listed 0 (encodeRow shortRow)) newPool (encodeRow shortRow)
      newPool := by
    rw [allocValue, if_pos hshort]
    exact returns_pure _ _
  have hput := returns_putRow bare_table rfl halloc (returns_free_new newPool)
  have hinfo : ∀ t, bare.tables["default.t"]? = some t → t.info = wideTable := by
    intro t ht
    cases bare_table.symm.trans ht
    rfl
  refine .applied (history_bare ⟨issued_bare, trivial⟩)
    ⟨issued_putRow rfl hinfo, hshort, shortRow, rfl, fun t ht => ?_⟩ hput
  rw [Table.keyOf, Table.schema, hinfo t ht]
  exact ⟨rfl, rfl⟩

/-- Before and after a restart the hashes are the same. -/
theorem hashes_agree_short : ∃ (d d' : Db) (st st' : State), Views 0 d st ∧ Views 0 d' st' ∧
    "t" ∈ tableNames st ∧
    (∀ name ∈ tableNames st, ∃ hash,
      tableLogicalHash ⟨fun _ => "", fun _ => "", fun _ => ""⟩ st name = .ok hash ∧
        tableLogicalHash ⟨fun _ => "", fun _ => "", fun _ => ""⟩ st' name = .ok hash) ∧
    ∃ hash, databaseLogicalHash ⟨fun _ => "", fun _ => "", fun _ => ""⟩ st = .ok hash ∧
      databaseLogicalHash ⟨fun _ => "", fun _ => "", fun _ => ""⟩ st' = .ok hash := by
  have hd : ∀ (pool : Inner) (n : String) t, (Db.mk shortCatalog pool).catalog.tables[n]? = some t →
      t.info = wideTable ∧ t.indexes = [] := by
    intro pool n t ht
    obtain ⟨-, rfl⟩ := shortCatalog_tables ht
    exact ⟨rfl, rfl⟩
  have hrestarted := History.restarted history_short history_short two_ne_zero
  have hkeys : SameKeys (oneTable ⟨shortCatalog, newPool⟩ (hd _))
      (oneTable ⟨shortCatalog, .opened newPool.file 2⟩ (hd _)) := by
    intro name key key' t t' _ _ ht ht'
    obtain ⟨-, rfl⟩ := shortCatalog_tables ht
    obtain ⟨-, rfl⟩ := shortCatalog_tables ht'
    rfl
  have hsame : SameContents (oneTable ⟨shortCatalog, newPool⟩ (hd _))
      (oneTable ⟨shortCatalog, .opened newPool.file 2⟩ (hd _)) := by
    refine ⟨fun name => Iff.rfl, fun name row => exists_congr fun key => exists_congr fun t =>
      exists_congr fun k => and_congr_right fun _ => and_congr_right fun ht => ?_⟩
    exact stored_congr (history_short.settled key t ht)
  have hname : "t" ∈ tableNames (oneTable ⟨shortCatalog, newPool⟩ (hd _)) := by
    refine mem_tableNames.mpr ⟨"default.t", shortTable, tableName_oneTable (hd _), ?_⟩
    exact ExtTreeMap.getElem?_insert_self
  exact ⟨_, _, _, _, views_oneTable (hd _), views_oneTable (hd _), hname,
    hashes_agree history_short hrestarted (views_oneTable (hd _)) (views_oneTable (hd _)) hkeys hsame⟩

/-! ### A row that is stored twice -/

/-- A database with the wide row behind the locator `x`. -/
structure Wide (x : Frag) (d : Db) : Prop where
  history : History Issued d
  catalog : d.catalog = wideCatalog x
  kept : ∃ live chain, Kept d.pool live chain ∧ live x = some (encodeRow wideRow)

/-- A new directory with the wide row. -/
theorem exists_wideFirst : ∃ d, Wide (1, 0) d ∧ d.pool.file.nextId = 2 := by
  obtain ⟨s, hstore, hnext, halloc⟩ := returns_allocWide fileOk_fresh (by decide)
  obtain ⟨chain, hkept⟩ := kept_newPool.store hstore
  have hput := returns_putRow bare_table rfl halloc (returns_free_new s)
  have hlive : Function.update (fun _ : Frag => (none : Option Bytes)) (1, 0)
      (some (encodeRow wideRow)) (1, 0) = some (encodeRow wideRow) := Function.update_self ..
  refine ⟨_, ⟨.applied (history_bare issued_bare) (issued_putRow rfl fun t ht => ?_) hput, ?_, _,
    chain, hkept, hlive⟩, hnext⟩
  · cases bare_table.symm.trans ht
    rfl
  · rw [wideCatalog, bare]
    simp only [insert_insert]
    rfl

/-- The row is put again after a restart. -/
theorem exists_wideAgain {x : Frag} (h : Wide x d) (hroom : d.pool.file.nextId ≠ 2 ^ 64 - 1) :
    ∃ d', Wide (d.pool.file.nextId, 0) d' := by
  obtain ⟨live, chain, hkept, hlive⟩ := h.kept
  have hopened := Replica.Kept.reopened hkept Nat.one_ne_zero
  obtain ⟨s, hstore, -, halloc⟩ := returns_allocWide hkept.inv.file hroom
  obtain ⟨chain', hstored⟩ := hopened.store hstore
  set live' := Function.update live (d.pool.file.nextId, 0) (some (encodeRow wideRow)) with hlive'
  have hne : x ≠ (d.pool.file.nextId, 0) := by
    rintro rfl
    have hrecord := (hkept.holds hlive).isSome _ List.mem_cons_self
    obtain ⟨data, hdata⟩ := Option.isSome_iff_exists.mp hrecord
    exact absurd (inFile_of_record hdata).2 (lt_irrefl _)
  have hx : live' x = some (encodeRow wideRow) := by
    rw [hlive', Function.update_of_ne hne, hlive]
  obtain ⟨s', hfree, hfreed⟩ := hstored.free hx 0
  have hfound : Function.update live' x none (d.pool.file.nextId, 0) = some (encodeRow wideRow) := by
    rw [Function.update_of_ne hne.symm, hlive', Function.update_self]
  have htable : (wideCatalog x).tables["default.t"]? =
      some { Table.new wideTable with tree := wideTree x } := ExtTreeMap.getElem?_insert_self
  obtain ⟨hpage, hslot⟩ := hkept.inv.frag_lt ((hkept.holds hlive).isSome x List.mem_cons_self)
  have hfreed' : Returns ((wideTree x)[wideKey]?.forM (freeValue 0)) s ⟨⟩ s' := by
    rw [show (wideTree x)[wideKey]? = some (encodeLocator x) from ExtTreeMap.getElem?_insert_self]
    show Returns (freeValue 0 (encodeLocator x)) s ⟨⟩ s'
    rw [freeValue, decodeLocator_encode hpage hslot]
    exact hfree
  have hput := returns_putRow htable rfl halloc hfreed'
  have hrestarted : History Issued ⟨wideCatalog x, .opened d.pool.file 1⟩ :=
    h.catalog ▸ .restarted h.history h.history Nat.one_ne_zero
  refine ⟨_, .applied hrestarted (issued_putRow rfl fun t ht => ?_) hput, ?_, _, chain', hfreed,
    hfound⟩
  · cases htable.symm.trans ht
    rfl
  · simp only [wideCatalog, wideTree, insert_insert]

section
variable {x : Frag} {d : Db} {name : String} {row : Row}

theorem Wide.tables (h : Wide x d) (n : String) (t : Table) (ht : d.catalog.tables[n]? = some t) :
    t.info = wideTable ∧ t.indexes = [] := by
  rw [h.catalog] at ht
  obtain ⟨-, rfl⟩ := wideCatalog_tables ht
  exact ⟨rfl, rfl⟩

theorem mem_tableNames_wide (h : Wide x d) (hd) :
    name ∈ tableNames (oneTable d hd) ↔ name = "t" := by
  rw [mem_tableNames]
  constructor
  · rintro ⟨key, t, hname, ht⟩
    have ht : d.catalog.tables[key]? = some t := ht
    rw [h.catalog] at ht
    obtain ⟨rfl, -⟩ := wideCatalog_tables ht
    rw [tableName_oneTable] at hname
    exact (Option.some.inj hname).symm
  · rintro rfl
    refine ⟨"default.t", { Table.new wideTable with tree := wideTree x }, tableName_oneTable hd, ?_⟩
    show d.catalog.tables["default.t"]? = _
    rw [h.catalog]
    exact ExtTreeMap.getElem?_insert_self

theorem wideTree_toList (x : Frag) : (wideTree x).toList = [(wideKey, encodeLocator x)] := by
  have hsize : (wideTree x).toList.length = 1 := by
    rw [ExtTreeMap.length_toList, wideTree, ExtTreeMap.size_insert]
    simp
  obtain ⟨e, he⟩ := List.length_eq_one_iff.mp hsize
  have hmem : e ∈ (wideTree x).toList := he ▸ List.mem_singleton_self e
  obtain ⟨hkey, hraw⟩ := wideTree_rows (ExtTreeMap.mem_toList_iff_getElem?_eq_some.mp hmem)
  rw [he, ← hkey, ← hraw]

theorem Wide.hash (h : Wide x d) (hd) (txt : Texts) : tableLogicalHash txt (oneTable d hd) "t" =
    .ok (Wal.crc32 (hasherBuf [(wideKey, encodeLocator x)])) := by
  have ht : (oneTable d hd).catalog.tables["default.t"]? =
      some { Table.new wideTable with tree := wideTree x } := by
    show d.catalog.tables["default.t"]? = _
    rw [h.catalog]
    exact ExtTreeMap.getElem?_insert_self
  have hname : (oneTable d hd).resolveTableKey "t" = "default.t" := by
    have hcontains : (oneTable d hd).catalog.tables.contains "default.t" = true := by
      rw [ExtTreeMap.contains_eq_isSome_getElem?, ht]
      rfl
    rw [State.resolveTableKey, if_neg (by decide)]
    exact if_pos hcontains
  have hkeys : ∀ (k : Bytes) raw, (wideTree x)[k]? = some raw → ∃ pk, decodeKey k = .ok pk := by
    intro k raw hraw
    obtain ⟨rfl, -⟩ := wideTree_rows hraw
    exact ⟨.int 1, by decide⟩
  rw [← hname] at ht
  rw [tableLogicalHash_ok ht hkeys (listed_new wideTable), ← wideTree_toList]

theorem bind_decodeRow {load : Except Error Bytes} {schema : Schema} {raw : Bytes}
    (hload : load = .ok raw) (hrow : decodeRow schema raw = .ok row) :
    load >>= decodeRow schema = .ok row := by
  rw [hload]
  exact hrow

theorem Wide.hasRow_iff (h : Wide x d) (hd) :
    HasRow (oneTable d hd) name row ↔ name = "t" ∧ row = wideRow := by
  obtain ⟨live, chain, hkept, hlive⟩ := h.kept
  obtain ⟨hpage, hslot⟩ := hkept.inv.frag_lt ((hkept.holds hlive).isSome x List.mem_cons_self)
  have hload : loads 0 d.pool x = .ok (encodeRow wideRow) := loads_ok_iff.mpr (hkept.load hlive 0)
  have hdecode : (oneTable d hd).decodeStored { Table.new wideTable with tree := wideTree x }
      (encodeLocator x) = .ok wideRow := by
    have hloc := decodeLocator_encode hpage hslot
    rw [State.decodeStored, State.resolveValue, if_pos (isLocator_of_decode hloc), hloc]
    exact bind_decodeRow hload decodeRow_wideRow
  constructor
  · rintro ⟨key, t, k, hname, ht, raw, hraw, hrow⟩
    have ht : d.catalog.tables[key]? = some t := ht
    rw [h.catalog] at ht
    obtain ⟨rfl, rfl⟩ := wideCatalog_tables ht
    obtain ⟨rfl, rfl⟩ := wideTree_rows hraw
    rw [tableName_oneTable] at hname
    rw [hdecode] at hrow
    exact ⟨(Option.some.inj hname).symm, (Except.ok.inj hrow).symm⟩
  · rintro ⟨rfl, rfl⟩
    refine ⟨"default.t", _, wideKey, tableName_oneTable hd, ?_, encodeLocator x,
      ExtTreeMap.getElem?_insert_self, hdecode⟩
    show d.catalog.tables["default.t"]? = _
    rw [h.catalog]
    exact ExtTreeMap.getElem?_insert_self

end

/-- The hash of the wide row depends on where it was stored. -/
theorem wideRow_hashes : ¬ ∀ (d d' : Db) (current current' : Nat) (txt txt' : Texts)
    (st st' : State), History Issued d → History Issued d' → Views current d st →
    Views current' d' st' → SameContents st st' →
    (∀ name ∈ tableNames st, ∃ hash, tableLogicalHash txt st name = .ok hash ∧
      tableLogicalHash txt' st' name = .ok hash) ∧
    ∃ hash, databaseLogicalHash txt st = .ok hash ∧ databaseLogicalHash txt' st' = .ok hash := by
  intro h
  obtain ⟨d, hwide, hnext⟩ := exists_wideFirst
  obtain ⟨d', hwide'⟩ := exists_wideAgain hwide (by rw [hnext]; decide)
  rw [hnext] at hwide'
  let txt : Texts := ⟨fun _ => "", fun _ => "", fun _ => ""⟩
  have hsame : SameContents (oneTable d hwide.tables) (oneTable d' hwide'.tables) := by
    constructor
    · intro name
      rw [mem_tableNames_wide hwide, mem_tableNames_wide hwide']
    · intro name row
      rw [hwide.hasRow_iff, hwide'.hasRow_iff]
  obtain ⟨hash, hfirst, hsecond⟩ := (h d d' 0 0 txt txt _ _ hwide.history hwide'.history
    (views_oneTable _) (views_oneTable _) hsame).1 "t" ((mem_tableNames_wide hwide _).mpr rfl)
  rw [hwide.hash] at hfirst
  rw [hwide'.hash] at hsecond
  have hcrc := Except.ok.inj (hfirst.trans hsecond.symm)
  exact absurd hcrc (by decide +kernel)

end HenchDB.Check
