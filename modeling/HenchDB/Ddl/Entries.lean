import HenchDB.Keys
import HenchDB.Table

/-!
# The entries of indexes

An index holds one entry for every stored row: the encoded column value followed
by the key of the row (`Table.Exact`).  Entries under different keys differ, so a
row that comes or goes changes its own entry only.
-/

namespace HenchDB

open Std (ExtTreeSet)

namespace Table

def entry (row : List Datum) (i : Nat) (k : Bytes) : Bytes := encodeSecKeyPrefix (column row i) ++ k

/-- An index is on its column and holds the entries of the rows. -/
def Exact (t : Table) : Prop :=
  ∀ idx ∈ t.indexes, t.schema.indexOf idx.info.column = some idx.colIdx ∧
    ∀ e, idx.tree.contains e = true ↔ ∃ (k raw : Bytes) (row : List Datum),
      t.tree[k]? = some raw ∧ decodeRow t.schema raw = .ok row ∧ e = entry row idx.colIdx k

end Table

namespace SecondaryIndex

variable {idx : SecondaryIndex} {pk : Datum} {key : Bytes} {row old new : List Datum}

@[simp]
theorem add_colIdx : (idx.add pk row).colIdx = idx.colIdx := by
  unfold add
  split <;> rfl

@[simp]
theorem remove_colIdx : (idx.remove pk row).colIdx = idx.colIdx := by
  unfold remove
  split <;> rfl

@[simp]
theorem replace_colIdx : (idx.replace pk old new).colIdx = idx.colIdx := by
  unfold replace
  split
  · rfl
  · rw [add_colIdx, remove_colIdx]

theorem add_tree (hpk : encodeKey pk = .ok key) :
    (idx.add pk row).tree = idx.tree.insert (Table.entry row idx.colIdx key) := by
  rw [add, encodeSecIndexKey, hpk]
  rfl

theorem remove_tree (hpk : encodeKey pk = .ok key) :
    (idx.remove pk row).tree = idx.tree.erase (Table.entry row idx.colIdx key) := by
  rw [remove, encodeSecIndexKey, hpk]
  rfl

theorem contains_insert_iff {tree : ExtTreeSet Bytes} {a e : Bytes} :
    (tree.insert a).contains e = true ↔ e = a ∨ tree.contains e = true := by
  rw [ExtTreeSet.contains_insert, Bool.or_eq_true, beq_iff_eq, Std.compare_eq_iff_eq, eq_comm]

theorem contains_erase_iff {tree : ExtTreeSet Bytes} {a e : Bytes} :
    (tree.erase a).contains e = true ↔ e ≠ a ∧ tree.contains e = true := by
  rw [ExtTreeSet.contains_erase, Bool.and_eq_true, bne_iff_ne, ne_eq, Std.compare_eq_iff_eq, eq_comm]

theorem contains_add (hpk : encodeKey pk = .ok key) {e : Bytes} :
    (idx.add pk row).tree.contains e = true ↔
      e = Table.entry row idx.colIdx key ∨ idx.tree.contains e = true := by
  rw [add_tree hpk, contains_insert_iff]

end SecondaryIndex

namespace Table

variable {key : Bytes}

/-- Entries under different keys are different. -/
theorem entry_inj {row row' : List Datum} {i : Nat} {k k' : Bytes} (h : entry row i k = entry row' i k') :
    k = k' := (encodeSecKeyPrefix_append_inj h).2

theorem attemptKey_encodeKey {d : Datum} (h : encodeKey d = .ok key) :
    ∃ pk, attemptKey key = .ok (some pk) ∧ encodeKey pk = .ok key := by
  obtain ⟨pk, hpk, hkey⟩ := decodeKey_encodeKey h
  exact ⟨pk, by rw [attemptKey, hpk], hkey⟩

theorem attempt_ok {α : Type} {x : Except Error α} {a : α} (h : x = .ok a) : attempt x = some a := by
  rw [h]
  rfl

end Table

end HenchDB
