import Mathlib.Tactic
import HenchDB.BTree.Key

/-!
# Stored rows

The trees of all tables are one map from table name and encoded key to the
stored bytes.  A write puts or removes one row; a transaction is the list of
its writes.  What a list of writes leaves is decided key by key by the last
write to the key (`getElem?_replay`), so redoing writes that are already there
changes nothing.

A scan reads a table leaf by leaf: every leaf is a range of keys, read at one
moment (`leafRows`).
-/

namespace HenchDB

open Std (ExtTreeMap)

/-- Table name and encoded primary key. -/
abbrev TKey := String × Bytes

instance : Ord TKey := lexOrd

instance instTransOrdTKey : Std.TransOrd TKey := inferInstance

instance instLawfulEqOrdTKey : Std.LawfulEqOrd TKey := inferInstance

/-- The stored rows of every table. -/
abbrev Trees := ExtTreeMap TKey Bytes

/-- A write of one row; `none` deletes. -/
abbrev Write := TKey × Option Bytes

/-! ## Writes -/

/-- `apply_raw` or `remove_raw` on the primary tree. -/
def applyWrite (trees : Trees) (w : Write) : Trees :=
  match w.2 with
  | some raw => trees.insert w.1 raw
  | none => trees.erase w.1

def replay (trees : Trees) (ws : List Write) : Trees := ws.foldl applyWrite trees

def lastWrite (ws : List Write) (k : TKey) : Option (Option Bytes) := ws.reverse.lookup k

variable {trees : Trees} {ws ws' : List Write} {k : TKey}

theorem getElem?_applyWrite (trees : Trees) (w : Write) (k : TKey) :
    (applyWrite trees w)[k]? = if w.1 = k then w.2 else trees[k]? := by
  obtain ⟨k', raw⟩ := w
  cases raw with
  | none => simp [applyWrite, ExtTreeMap.getElem?_erase]
  | some raw => simp [applyWrite, ExtTreeMap.getElem?_insert]

theorem replay_append : replay trees (ws ++ ws') = replay (replay trees ws) ws' :=
  List.foldl_append

theorem lastWrite_append : lastWrite (ws ++ ws') k = (lastWrite ws' k).or (lastWrite ws k) := by
  rw [lastWrite, List.reverse_append, List.lookup_append]
  rfl

theorem getElem?_replay (trees : Trees) (ws : List Write) (k : TKey) :
    (replay trees ws)[k]? = (lastWrite ws k).getD trees[k]? := by
  induction ws using List.reverseRecOn with
  | nil => rfl
  | append_singleton ws w ih =>
    rw [replay_append, lastWrite_append]
    show (applyWrite (replay trees ws) w)[k]? = _
    rw [getElem?_applyWrite, ih]
    by_cases hk : w.1 = k
    · subst hk
      obtain ⟨k, v⟩ := w
      simp [lastWrite, List.lookup_cons_self]
    · have hne : (k == w.1) = false := by simpa using fun h => hk h.symm
      obtain ⟨k', v⟩ := w
      simp only [lastWrite, List.reverse_singleton, List.lookup_cons, List.lookup_nil, hne, hk]
      rfl

/-- Two states that differ only where the writes write end alike. -/
theorem replay_congr {trees' : Trees}
    (h : ∀ k : TKey, lastWrite ws k = none → trees[k]? = trees'[k]?) :
    replay trees ws = replay trees' ws := by
  refine ExtTreeMap.ext_getElem? fun k => ?_
  rw [getElem?_replay, getElem?_replay]
  cases hl : lastWrite ws k with
  | none => exact h k hl
  | some v => rfl

theorem mem_of_lookup {v : Option Bytes} (h : ws.lookup k = some v) : (k, v) ∈ ws := by
  obtain ⟨ws₁, ws₂, rfl, -⟩ := List.lookup_eq_some_iff.mp h
  simp

/-! ## Leaves -/

/-- The stored rows of a table from `cursor` on, below `upTo` if it is given. -/
def leafRows (trees : Trees) (table : String) (cursor : Bytes) (upTo : Option Bytes) :
    List (TKey × Bytes) :=
  trees.toList.filter fun (k, _) => k.1 = table ∧ cursor ≤ k.2 ∧ upTo.all fun b => k.2 < b

section Leaf

variable {table : String} {cursor : Bytes} {upTo : Option Bytes}

theorem mem_leafRows {raw : Bytes} :
    (k, raw) ∈ leafRows trees table cursor upTo ↔
      trees[k]? = some raw ∧ k.1 = table ∧ cursor ≤ k.2 ∧ ∀ b ∈ upTo, k.2 < b := by
  rw [leafRows, List.mem_filter, ExtTreeMap.mem_toList_iff_getElem?_eq_some]
  cases upTo <;> simp

/-- A leaf holds every key once. -/
theorem nodup_leafRows : ((leafRows trees table cursor upTo).map fun e => e.1.2).Nodup := by
  have hdistinct : (leafRows trees table cursor upTo).Pairwise fun a b => a.1 ≠ b.1 := by
    refine List.Pairwise.filter _ (List.Pairwise.imp ?_ ExtTreeMap.distinct_keys_toList)
    intro a b hne heq
    exact hne (Std.compare_eq_iff_eq.mpr heq)
  rw [List.Nodup, List.pairwise_map]
  refine List.Pairwise.imp_of_mem ?_ hdistinct
  intro a b ha hb hne heq
  have hta := mem_leafRows.mp ha
  have htb := mem_leafRows.mp hb
  exact hne (Prod.ext (hta.2.1.trans htb.2.1.symm) heq)

end Leaf

end HenchDB
