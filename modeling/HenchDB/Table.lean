import HenchDB.Schema

/-!
# Tables

A table is its primary tree, from encoded keys to encoded rows, and one tree
for every secondary index, whose keys are the encoded column value followed by
the encoded primary key.

The redo path (`applyRaw`, `removeRaw`) maintains the indexes from the bytes it
is given: it decodes the key, the new row and the displaced row, and leaves the
indexes alone when one of them does not decode.  `decode_key` may panic on a
key that `encode_key` did not make, so these operations can fault.

Wide rows are kept by value: the overflow pool that holds them is not part of
this model.
-/

namespace HenchDB

open Std (ExtTreeMap ExtTreeSet)

structure SecondaryIndex where
  /-- Its definition. -/
  info : IndexDef
  /-- Position of the indexed column. -/
  colIdx : Nat
  /-- The index keys. -/
  tree : ExtTreeSet Bytes

structure AutoIncState where
  colIdx : Nat
  next : Nat
deriving DecidableEq, Repr

structure Table where
  /-- The definition it was created with. -/
  info : TableDef
  tree : ExtTreeMap Bytes Bytes
  indexes : List SecondaryIndex
  /-- The `AUTO_INCREMENT` sequence. -/
  autoInc : Option AutoIncState
  /-- The last `ANALYZE TABLE` result. -/
  stats : Option TableStats

namespace Table

abbrev schema (t : Table) : Schema := t.info.schema

def autoIncFor (info : TableDef) : Option AutoIncState :=
  (info.schema.columns.findIdx? ColumnDef.autoIncrement).map fun i => { colIdx := i, next := 1 }

/-- `Table::new`; an index on an unknown column is left out. -/
def new (info : TableDef) : Table where
  info := info
  tree := ∅
  indexes := info.indexes.filterMap fun d =>
    (info.schema.indexOf d.column).map fun i => { info := d, colIdx := i, tree := ∅ }
  autoInc := autoIncFor info
  stats := info.stats

/-- The value of a column; a decoded row has every column of the schema. -/
def column (row : List Datum) (i : Nat) : Datum := row.getD i .null

def decodeStored (t : Table) (raw : Bytes) : Except Error (List Datum) := decodeRow t.schema raw

def keyOf (t : Table) (row : List Datum) : Except Error Bytes := encodeKey (column row t.schema.pkIdx)

/-- `decode_key` where an error is dropped. -/
def attemptKey (key : Bytes) : Except Fault (Option Datum) :=
  match decodeKey key with
  | .ok pk => .ok (some pk)
  | .error (.err _) => .ok none
  | .error .panic => .error .panic

end Table

namespace SecondaryIndex

def add (idx : SecondaryIndex) (pk : Datum) (row : List Datum) : SecondaryIndex :=
  match encodeSecIndexKey (Table.column row idx.colIdx) pk with
  | .ok k => { idx with tree := idx.tree.insert k }
  | .error _ => idx

def remove (idx : SecondaryIndex) (pk : Datum) (row : List Datum) : SecondaryIndex :=
  match encodeSecIndexKey (Table.column row idx.colIdx) pk with
  | .ok k => { idx with tree := idx.tree.erase k }
  | .error _ => idx

/-- Replace the entry of a row, if the column changed. -/
def replace (idx : SecondaryIndex) (pk : Datum) (old new : List Datum) : SecondaryIndex :=
  if (Table.column old idx.colIdx).eqv (Table.column new idx.colIdx) then idx
  else (idx.remove pk old).add pk new

end SecondaryIndex

namespace Table

/-! ## Redo -/

/-- The indexes after a row is put; `pk` is the decoded key. -/
def indexesPut (t : Table) (key full : Bytes) (pk : Option Datum) : List SecondaryIndex :=
  match pk, attempt (decodeRow t.schema full) with
  | some pk, some newRow =>
    match t.tree[key]?.bind fun prev => attempt (t.decodeStored prev) with
    | some oldRow => t.indexes.map fun i => i.replace pk oldRow newRow
    | none => t.indexes.map fun i => i.add pk newRow
  | _, _ => t.indexes

def applyRaw (t : Table) (key full : Bytes) : Except Fault Table :=
  if t.indexes.isEmpty then .ok { t with tree := t.tree.insert key full }
  else
    (attemptKey key).map fun pk =>
      { t with tree := t.tree.insert key full, indexes := t.indexesPut key full pk }

/-- The indexes after a stored row is removed; `pk` is the decoded key. -/
def indexesRemoved (t : Table) (prev : Bytes) (pk : Option Datum) : List SecondaryIndex :=
  match pk, attempt (t.decodeStored prev) with
  | some pk, some row => t.indexes.map fun i => i.remove pk row
  | _, _ => t.indexes

def removeRaw (t : Table) (key : Bytes) : Except Fault Table :=
  match t.tree[key]? with
  | none => .ok t
  | some prev =>
    if t.indexes.isEmpty then .ok { t with tree := t.tree.erase key }
    else
      (attemptKey key).map fun pk =>
        { t with tree := t.tree.erase key, indexes := t.indexesRemoved prev pk }

/-! ## Indexes -/

/-- The decoded rows in key order; `Table::scan` decodes the keys too. -/
def scan (t : Table) : Except Fault (List (Datum × List Datum)) :=
  t.tree.toList.mapM fun (k, raw) => do
    let pk ← decodeKey k
    let row ← (t.decodeStored raw).mapError Fault.err
    return (pk, row)

def indexKeys (t : Table) (colIdx : Nat) : Except Fault (List Bytes) := do
  let rows ← t.scan
  rows.mapM fun (_, row) =>
    (encodeSecIndexKey (Table.column row colIdx) (Table.column row t.schema.pkIdx)).mapError
      Fault.err

def addIndex (t : Table) (name column : String) : Except Fault Table :=
  match t.schema.indexOf column with
  | none => .error (.err (.columnNotFound column))
  | some colIdx =>
    if colIdx = t.schema.pkIdx then
      .error (.err (.invalidSchema "cannot create secondary index on primary key"))
    else if t.indexes.any fun i => i.info.name = name then
      .error (.err (.indexExists name))
    else
      (t.indexKeys colIdx).map fun keys =>
        let idx : SecondaryIndex :=
          { info := { name := name, column := column }
            colIdx := colIdx
            tree := keys.foldl (fun tree k => tree.insert k) ∅ }
        { t with indexes := t.indexes ++ [idx] }

def dropIndex (t : Table) (name : String) : Except Error Table :=
  match t.indexes.findIdx? fun i => i.info.name = name with
  | none => .error (.indexNotFound name)
  | some pos => .ok { t with indexes := t.indexes.eraseIdx pos }

def hasIndex (t : Table) (name : String) : Bool := t.indexes.any fun i => i.info.name = name

def secondaryIndexes (t : Table) : List IndexDef := t.indexes.map SecondaryIndex.info

/-! ## The `AUTO_INCREMENT` counter -/

/-- `u64::MAX`. -/
def u64Max : Nat := 2 ^ 64 - 1

/-- The larger of a key that holds a nonnegative integer and the maximum so far. -/
def maxKey (max : Option Nat) (key : Bytes) : Except Fault (Option Nat) :=
  match decodeKey key with
  | .ok (.int v) =>
    if 0 ≤ v.toInt then .ok (some (max.elim v.toInt.toNat (Nat.max v.toInt.toNat))) else .ok max
  | .error .panic => .error .panic
  | _ => .ok max

def refreshAutoInc (t : Table) : Except Fault Table := do
  match t.autoInc with
  | none => return t
  | some st =>
    let max ← t.tree.toList.foldlM (fun m (k, _) => maxKey m k) none
    return { t with
      autoInc := some { st with next := max.elim 1 fun m => Nat.min (m + 1) u64Max } }

end Table

/-! ## What does not panic -/

section NoPanic

variable {α β : Type}

def NoPanic (x : Except Fault α) : Prop := x ≠ .error .panic

theorem noPanic_ok (a : α) : NoPanic (.ok a) := by simp [NoPanic]

theorem noPanic_mapError (x : Except Error α) : NoPanic (x.mapError Fault.err) := by
  cases x <;> simp [NoPanic, Except.mapError]

theorem NoPanic.map {x : Except Fault α} {f : α → β} (h : NoPanic x) : NoPanic (x.map f) := by
  cases x with
  | error e => exact fun hbad => h (by cases hbad; rfl)
  | ok a => exact noPanic_ok _

theorem NoPanic.bind {x : Except Fault α} {f : α → Except Fault β} (h : NoPanic x)
    (hf : ∀ a, x = .ok a → NoPanic (f a)) : NoPanic (x >>= f) := by
  cases x with
  | error e => exact fun hbad => h (by cases hbad; rfl)
  | ok a => exact hf a rfl

/-- A traversal panics only where one of its steps does. -/
theorem noPanic_mapM {f : α → Except Fault β} :
    ∀ {l : List α}, (∀ a ∈ l, NoPanic (f a)) → NoPanic (l.mapM f)
  | [], _ => noPanic_ok _
  | a :: l, h => by
    rw [List.mapM_cons]
    refine (h a (by simp)).bind fun b _ => ?_
    exact (noPanic_mapM fun a ha => h a (by simp [ha])).bind fun bs _ => noPanic_ok _

end NoPanic

/-! ## What the operations keep -/

namespace SecondaryIndex

variable (idx : SecondaryIndex) (pk : Datum) (row old new : List Datum)

@[simp]
theorem add_info : (idx.add pk row).info = idx.info := by
  unfold add
  split <;> rfl

@[simp]
theorem remove_info : (idx.remove pk row).info = idx.info := by
  unfold remove
  split <;> rfl

@[simp]
theorem replace_info : (idx.replace pk old new).info = idx.info := by
  unfold replace
  split
  · rfl
  · rw [add_info, remove_info]

end SecondaryIndex

/-- `decode_key` does not panic on the key. -/
def KeyOk (key : Bytes) : Bool :=
  match decodeKey key with
  | .error .panic => false
  | _ => true

theorem noPanic_decodeKey {key : Bytes} (h : KeyOk key) : NoPanic (decodeKey key) := by
  intro hbad
  simp [KeyOk, hbad] at h

theorem length_beBytes (n : Nat) : (beBytes n).length = 8 := by
  rw [beBytes, List.length_reverse, Codec.length_leBytes]

/-- It does not panic on the keys that `encode_key` makes. -/
theorem keyOk_encodeKey {d : Datum} {key : Bytes} (h : encodeKey d = .ok key) : KeyOk key := by
  have hword : ∀ n, keyWord (beBytes n) = .ok (beBytes n) := by
    intro n
    have hlen := length_beBytes n
    rw [keyWord, if_neg (by omega), List.take_of_length_le (by omega)]
  cases d with
  | null => cases h
  | int v =>
    cases h
    simp [KeyOk, decodeKey, keyInt, hword, Except.map]
  | float bits =>
    cases h
    simp [KeyOk, decodeKey, hword, Except.map]
  | text v =>
    cases h
    simp [KeyOk, decodeKey]
  | bool v =>
    cases h
    simp [KeyOk, decodeKey]
  | dateTime v =>
    cases h
    simp [KeyOk, decodeKey, keyInt, hword, Except.map]

namespace Table

variable {t t' : Table} {key full : Bytes}

theorem attemptKey_of_keyOk (h : KeyOk key) : ∃ pk, attemptKey key = .ok pk := by
  unfold KeyOk at h
  unfold attemptKey
  split
  · exact ⟨_, rfl⟩
  · exact ⟨_, rfl⟩
  · next heq => simp [heq] at h

theorem indexesPut_info (pk : Option Datum) :
    (t.indexesPut key full pk).map SecondaryIndex.info = t.secondaryIndexes := by
  unfold indexesPut secondaryIndexes
  split
  · split <;> simp
  · rfl

theorem indexesRemoved_info {prev : Bytes} (pk : Option Datum) :
    (t.indexesRemoved prev pk).map SecondaryIndex.info = t.secondaryIndexes := by
  unfold indexesRemoved secondaryIndexes
  split
  · simp
  · rfl

/-- Putting a row changes every index by itself. -/
theorem indexesPut_map (t : Table) (key full : Bytes) (pk : Option Datum) :
    ∃ g : SecondaryIndex → SecondaryIndex, (∀ i, (g i).info = i.info) ∧
      ∀ l, { t with indexes := l }.indexesPut key full pk = l.map g := by
  have hput : ∀ l, { t with indexes := l }.indexesPut key full pk =
      match pk, attempt (decodeRow t.schema full) with
      | some pk, some newRow =>
        match t.tree[key]?.bind fun prev => attempt (t.decodeStored prev) with
        | some oldRow => l.map fun i => i.replace pk oldRow newRow
        | none => l.map fun i => i.add pk newRow
      | _, _ => l := fun l => rfl
  simp only [hput]
  cases pk with
  | none => exact ⟨id, fun _ => rfl, fun l => (List.map_id l).symm⟩
  | some pk =>
    cases attempt (decodeRow t.schema full) with
    | none => exact ⟨id, fun _ => rfl, fun l => (List.map_id l).symm⟩
    | some newRow =>
      cases t.tree[key]?.bind fun prev => attempt (t.decodeStored prev) with
      | none => exact ⟨fun i => i.add pk newRow, fun i => by simp, fun _ => rfl⟩
      | some oldRow => exact ⟨fun i => i.replace pk oldRow newRow, fun i => by simp, fun _ => rfl⟩

theorem indexesRemoved_map (t : Table) (prev : Bytes) (pk : Option Datum) :
    ∃ g : SecondaryIndex → SecondaryIndex, (∀ i, (g i).info = i.info) ∧
      ∀ l, { t with indexes := l }.indexesRemoved prev pk = l.map g := by
  have hremoved : ∀ l, { t with indexes := l }.indexesRemoved prev pk =
      match pk, attempt (t.decodeStored prev) with
      | some pk, some row => l.map fun i => i.remove pk row
      | _, _ => l := fun l => rfl
  simp only [hremoved]
  cases pk with
  | none => exact ⟨id, fun _ => rfl, fun l => (List.map_id l).symm⟩
  | some pk =>
    cases attempt (t.decodeStored prev) with
    | none => exact ⟨id, fun _ => rfl, fun l => (List.map_id l).symm⟩
    | some row => exact ⟨fun i => i.remove pk row, fun i => by simp, fun _ => rfl⟩

/-- Putting a row changes the primary tree and the index trees only. -/
theorem applyRaw_ok (h : KeyOk key) (full : Bytes) :
    ∃ t', t.applyRaw key full = .ok t' ∧ t'.tree = t.tree.insert key full ∧
      t'.info = t.info ∧ t'.secondaryIndexes = t.secondaryIndexes ∧ t'.autoInc = t.autoInc := by
  obtain ⟨pk, hpk⟩ := attemptKey_of_keyOk h
  unfold applyRaw
  split
  · exact ⟨_, rfl, rfl, rfl, rfl, rfl⟩
  · rw [hpk]
    exact ⟨_, rfl, rfl, rfl, indexesPut_info pk, rfl⟩

/-- Removing a row changes the primary tree and the index trees only. -/
theorem removeRaw_ok (h : KeyOk key) :
    ∃ t', t.removeRaw key = .ok t' ∧ t'.tree = t.tree.erase key ∧
      t'.info = t.info ∧ t'.secondaryIndexes = t.secondaryIndexes ∧ t'.autoInc = t.autoInc := by
  obtain ⟨pk, hpk⟩ := attemptKey_of_keyOk h
  unfold removeRaw
  split
  · next hnone =>
    refine ⟨t, rfl, ?_, rfl, rfl, rfl⟩
    refine ExtTreeMap.ext_getElem? fun k => ?_
    rw [ExtTreeMap.getElem?_erase]
    split
    · next hk => rw [← Std.compare_eq_iff_eq.mp hk, hnone]
    · rfl
  · next prev hprev =>
    split
    · exact ⟨_, rfl, rfl, rfl, rfl, rfl⟩
    · rw [hpk]
      exact ⟨_, rfl, rfl, rfl, indexesRemoved_info pk, rfl⟩

end Table

end HenchDB
