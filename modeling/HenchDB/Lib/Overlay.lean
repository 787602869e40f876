import Mathlib.Tactic

/-!
# Write sets over a map

A write set is a map from keys to what is to be put there, with none for a
removal.  Laying it over a map is decided key by key: a key of the write set
holds what the write set says, every other key what it held
(`getElem?_overlay`).  The keys of a map are distinct, so the order of the
writes plays no part.
-/

namespace Overlay

open Std (ExtTreeMap)

variable {K V : Type*} [Ord K] [Std.TransOrd K] [Std.LawfulEqOrd K]

def put (m : ExtTreeMap K V) (k : K) : Option V → ExtTreeMap K V
  | some v => m.insert k v
  | none => m.erase k

/-- A map with a write set laid over it. -/
def overlay (m : ExtTreeMap K V) (ws : ExtTreeMap K (Option V)) : ExtTreeMap K V :=
  ws.toList.foldl (fun m e => put m e.1 e.2) m

variable {m : ExtTreeMap K V} {k k' : K} {w : Option V}

theorem getElem?_put_self : (put m k w)[k]? = w := by
  cases w <;> simp [put]

theorem getElem?_put_of_ne (h : k' ≠ k) : (put m k' w)[k]? = m[k]? := by
  cases w with
  | none => simp [put, ExtTreeMap.getElem?_erase, h]
  | some v => simp [put, ExtTreeMap.getElem?_insert, h]

/-- Keys that are not written keep what they hold. -/
theorem getElem?_foldl_of_not_mem : ∀ {l : List (K × Option V)} {m : ExtTreeMap K V},
    (∀ w, (k, w) ∉ l) → (l.foldl (fun m e => put m e.1 e.2) m)[k]? = m[k]?
  | [], _, _ => rfl
  | (k', w) :: l, m, h => by
    have hne : k' ≠ k := by
      rintro rfl
      exact h w (by simp)
    rw [List.foldl_cons, getElem?_foldl_of_not_mem fun w' hw' => h w' (by simp [hw'])]
    exact getElem?_put_of_ne hne

/-- A key that is written once holds what was written. -/
theorem getElem?_foldl_of_mem : ∀ {l : List (K × Option V)} {m : ExtTreeMap K V},
    (l.Pairwise fun a b => a.1 ≠ b.1) → (k, w) ∈ l →
      (l.foldl (fun m e => put m e.1 e.2) m)[k]? = w
  | (k', w') :: l, m, hdistinct, h => by
    obtain ⟨hhead, htail⟩ := List.pairwise_cons.mp hdistinct
    rcases List.mem_cons.mp h with heq | hmem
    · cases heq
      have hnot : ∀ w', (k, w') ∉ l := fun w' hw' => hhead (k, w') hw' rfl
      rw [List.foldl_cons, getElem?_foldl_of_not_mem hnot]
      exact getElem?_put_self
    · rw [List.foldl_cons]
      exact getElem?_foldl_of_mem htail hmem

theorem getElem?_overlay (m : ExtTreeMap K V) (ws : ExtTreeMap K (Option V)) (k : K) :
    (overlay m ws)[k]? = ws[k]?.getD m[k]? := by
  have hdistinct : ws.toList.Pairwise fun a b => a.1 ≠ b.1 := by
    refine List.Pairwise.imp ?_ ExtTreeMap.distinct_keys_toList
    intro a b hne heq
    exact hne (Std.compare_eq_iff_eq.mpr heq)
  rcases Option.eq_none_or_eq_some ws[k]? with hnone | ⟨w, hw⟩
  · rw [hnone, overlay]
    refine getElem?_foldl_of_not_mem fun w hw => ?_
    rw [ExtTreeMap.mem_toList_iff_getElem?_eq_some.mp hw] at hnone
    cases hnone
  · rw [hw, overlay]
    exact getElem?_foldl_of_mem hdistinct (ExtTreeMap.mem_toList_iff_getElem?_eq_some.mpr hw)

end Overlay
