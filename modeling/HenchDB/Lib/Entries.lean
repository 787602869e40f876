import Mathlib.Tactic

/-!
# Passes over the entries of a map

A loop that runs over the entries of one map and changes a second map at the
key of each entry (`alterAll`) is decided key by key: a key the first map holds
is changed once, every other key keeps what it had (`getElem?_alterAll_toList`).
The order in which the entries come plays no part, since their keys are
distinct.
-/

namespace Entries

open Std (ExtTreeMap ExtTreeSet)

variable {K V W : Type*} [Ord K] [Std.TransOrd K] [Std.LawfulEqOrd K]

/-- Change the map at the key of every entry. -/
def alterAll (f : W → Option V → Option V) (es : List (K × W)) (m : ExtTreeMap K V) :
    ExtTreeMap K V :=
  es.foldl (fun m e => m.alter e.1 (f e.2)) m

def eraseAll (ks : List K) (m : ExtTreeMap K V) : ExtTreeMap K V := ks.foldl ExtTreeMap.erase m

variable {f : W → Option V → Option V} {k : K} {w : W}

theorem eq_of_insert_empty {k k' : K} {v v' : V}
    (h : ((∅ : ExtTreeMap K V).insert k v)[k']? = some v') : k' = k ∧ v' = v := by
  rw [ExtTreeMap.getElem?_insert] at h
  split at h
  · next heq => exact ⟨(Std.compare_eq_iff_eq.mp heq).symm, (Option.some.inj h).symm⟩
  · rw [ExtTreeMap.getElem?_empty] at h
    cases h

theorem getElem?_alter_of_ne {m : ExtTreeMap K V} {k' : K} {g : Option V → Option V} (h : k' ≠ k) :
    (m.alter k' g)[k]? = m[k]? := by
  simp [ExtTreeMap.getElem?_alter, h]

/-- A key without an entry keeps what it had. -/
theorem getElem?_alterAll_of_not_mem : ∀ {es : List (K × W)} {m : ExtTreeMap K V},
    (∀ w, (k, w) ∉ es) → (alterAll f es m)[k]? = m[k]?
  | [], _, _ => rfl
  | (k', w') :: es, m, h => by
    have hne : k' ≠ k := by
      rintro rfl
      exact h w' (by simp)
    have htail : (alterAll f es (m.alter k' (f w')))[k]? = (m.alter k' (f w'))[k]? :=
      getElem?_alterAll_of_not_mem fun w hw => h w (by simp [hw])
    exact htail.trans (getElem?_alter_of_ne hne)

/-- A key with one entry is changed by it. -/
theorem getElem?_alterAll_of_mem : ∀ {es : List (K × W)} {m : ExtTreeMap K V},
    (es.Pairwise fun a b => a.1 ≠ b.1) → (k, w) ∈ es → (alterAll f es m)[k]? = f w m[k]?
  | (k', w') :: es, m, hdistinct, h => by
    obtain ⟨hhead, htail⟩ := List.pairwise_cons.mp hdistinct
    rcases List.mem_cons.mp h with heq | hmem
    · cases heq
      have hrest : (alterAll f es (m.alter k (f w)))[k]? = (m.alter k (f w))[k]? :=
        getElem?_alterAll_of_not_mem fun w' hw' => hhead (k, w') hw' rfl
      exact hrest.trans (by simp)
    · have hne : k' ≠ k := hhead (k, w) hmem
      have hrest : (alterAll f es (m.alter k' (f w')))[k]? = f w (m.alter k' (f w'))[k]? :=
        getElem?_alterAll_of_mem htail hmem
      rw [getElem?_alter_of_ne hne] at hrest
      exact hrest

theorem toList_distinct (ws : ExtTreeMap K W) : ws.toList.Pairwise fun a b => a.1 ≠ b.1 := by
  refine List.Pairwise.imp ?_ ExtTreeMap.distinct_keys_toList
  intro a b hne heq
  exact hne (Std.compare_eq_iff_eq.mpr heq)

/-- A pass over a map changes the keys it holds. -/
theorem getElem?_alterAll_toList (ws : ExtTreeMap K W) (m : ExtTreeMap K V) (k : K) :
    (alterAll f ws.toList m)[k]? = ws[k]?.elim m[k]? fun w => f w m[k]? := by
  cases hk : ws[k]? with
  | some w =>
    exact getElem?_alterAll_of_mem (toList_distinct ws)
      (ExtTreeMap.mem_toList_iff_getElem?_eq_some.mpr hk)
  | none =>
    refine getElem?_alterAll_of_not_mem fun w hw => ?_
    rw [ExtTreeMap.mem_toList_iff_getElem?_eq_some.mp hw] at hk
    cases hk

/-- The same for a pass over the keys of a set, each with a value of its own. -/
theorem getElem?_alterAll_map [DecidableEq K] (ks : ExtTreeSet K) (g : K → W)
    (m : ExtTreeMap K V) (k : K) :
    (alterAll f (ks.toList.map fun k => (k, g k)) m)[k]? =
      if k ∈ ks then f (g k) m[k]? else m[k]? := by
  split
  · next hk =>
    refine getElem?_alterAll_of_mem ?_ (List.mem_map.mpr ⟨k, ExtTreeSet.mem_toList.mpr hk, rfl⟩)
    rw [List.pairwise_map]
    refine List.Pairwise.imp ?_ ExtTreeSet.distinct_toList
    intro a b hne heq
    exact hne (Std.compare_eq_iff_eq.mpr heq)
  · next hk =>
    refine getElem?_alterAll_of_not_mem fun w hw => hk ?_
    obtain ⟨k', hk', heq⟩ := List.mem_map.mp hw
    cases heq
    exact ExtTreeSet.mem_toList.mp hk'

/-- A map built from the entries of a map is that map. -/
theorem alterAll_toList_empty (ws : ExtTreeMap K V) :
    alterAll (fun v _ => some v) ws.toList ∅ = ws := by
  refine ExtTreeMap.ext_getElem? fun k => ?_
  rw [getElem?_alterAll_toList]
  cases ws[k]? <;> simp

/-- Inserting an entry changes the map at its key. -/
theorem foldl_insert_eq : ∀ (es : List (K × V)) (m : ExtTreeMap K V),
    es.foldl (fun m e => m.insert e.1 e.2) m = alterAll (fun v _ => some v) es m
  | [], _ => rfl
  | e :: es, m => by
    have hstep : m.insert e.1 e.2 = m.alter e.1 fun _ => some e.2 := by
      refine ExtTreeMap.ext_getElem? fun k => ?_
      rw [ExtTreeMap.getElem?_insert, ExtTreeMap.getElem?_alter]
    rw [List.foldl_cons, hstep, foldl_insert_eq es]
    rfl

theorem foldl_insert_toList (ws : ExtTreeMap K V) :
    ws.toList.foldl (fun m e => m.insert e.1 e.2) ∅ = ws :=
  (foldl_insert_eq _ _).trans (alterAll_toList_empty ws)

/-- What is found after a list was put was put or was there. -/
theorem of_getElem?_foldl_insert : ∀ {es : List (K × V)} {m : ExtTreeMap K V} {k : K} {v : V},
    (es.foldl (fun m e => m.insert e.1 e.2) m)[k]? = some v → (k, v) ∈ es ∨ m[k]? = some v
  | [], _, _, _, h => .inr h
  | e :: es, m, k, v, h => by
    rcases @of_getElem?_foldl_insert es _ _ _ h with hmem | hm
    · exact .inl (List.mem_cons_of_mem _ hmem)
    · rw [ExtTreeMap.getElem?_insert] at hm
      split at hm
      · next heq =>
        cases hm
        cases Std.compare_eq_iff_eq.mp heq
        exact .inl List.mem_cons_self
      · exact .inr hm

omit [Std.LawfulEqOrd K] in
theorem size_foldl_insert_le : ∀ (es : List (K × V)) (m : ExtTreeMap K V),
    (es.foldl (fun m e => m.insert e.1 e.2) m).size ≤ m.size + es.length
  | [], _ => le_rfl
  | e :: es, m => by
    have hinsert : (m.insert e.1 e.2).size ≤ m.size + 1 := ExtTreeMap.size_insert_le
    have hrest := size_foldl_insert_le es (m.insert e.1 e.2)
    rw [List.foldl_cons, List.length_cons]
    omega

theorem getElem?_eraseAll [DecidableEq K] : ∀ (ks : List K) (m : ExtTreeMap K V) (k : K),
    (eraseAll ks m)[k]? = if k ∈ ks then none else m[k]?
  | [], _, _ => by simp [eraseAll]
  | k' :: ks, m, k => by
    have hrest : (eraseAll ks (m.erase k'))[k]? = if k ∈ ks then none else (m.erase k')[k]? :=
      getElem?_eraseAll ks _ k
    refine hrest.trans ?_
    by_cases hk : k = k'
    · subst hk
      simp
    · have hne : ¬ k' = k := fun h => hk h.symm
      simp [ExtTreeMap.getElem?_erase, hne, hk]

theorem mem_foldl_insert : ∀ (ks : List K) (s : ExtTreeSet K) (k : K),
    k ∈ ks.foldl ExtTreeSet.insert s ↔ k ∈ ks ∨ k ∈ s
  | [], _, _ => by simp
  | k' :: ks, s, k => by
    rw [List.foldl_cons, mem_foldl_insert ks]
    simp only [ExtTreeSet.mem_insert, Std.compare_eq_iff_eq, List.mem_cons]
    constructor
    · rintro (h | h | h)
      · exact .inl (.inr h)
      · exact .inl (.inl h.symm)
      · exact .inr h
    · rintro ((h | h) | h)
      · exact .inr (.inl h.symm)
      · exact .inl h
      · exact .inr (.inr h)

end Entries
