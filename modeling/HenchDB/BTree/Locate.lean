import HenchDB.Lib.Splice
import HenchDB.BTree.Restructure

/-!
# Finding children and publishing visits

Where `lowerBound` leads in a well-formed node, what the heap holds after a
visit, and what a restructuring may change about the spans (`Frame`).
-/

namespace HenchDB.BTree

/-! ## The search on split key vectors -/

variable {A B keys : List Bytes} {key : Bytes} {hi : Fence} {g : Spans} {l : Nat}
  {children : List NodeId} {n x : NodeId} {c : Restructure}

/-- The search lands exactly at a cut of the keys around the searched key. -/
theorem lowerBound_append (sorted : (A ++ B).Pairwise (· < ·)) (hA : ∀ k ∈ A, k < key)
    (hB : ∀ k ∈ B, key ≤ k) :
    lowerBound (A ++ B) (headsFor (A ++ B)) key = A.length := by
  obtain ⟨hbelow, habove, hle⟩ := lowerBound_split sorted key
  generalize lowerBound (A ++ B) (headsFor (A ++ B)) key = i at hbelow habove hle
  rcases Nat.lt_trichotomy i A.length with hlt | heq | hgt
  · -- a key of `A` past the landing point would not be below
    have hmem : A[i] ∈ (A ++ B).drop i := by
      rw [List.drop_append_of_le_length (by omega)]
      exact List.mem_append_left _ (List.mem_drop_iff_getElem.mpr ⟨0, by simpa using hlt, by simp⟩)
    exact absurd (hA _ (List.getElem_mem hlt)) (not_lt.mpr (habove _ hmem))
  · exact heq
  · rw [List.length_append] at hle
    obtain ⟨b, B', rfl⟩ := List.exists_cons_of_length_pos (l := B) (by omega)
    have hmem : b ∈ (A ++ b :: B').take i := by
      rw [List.take_append]
      obtain ⟨j, hj⟩ : ∃ j, i - A.length = j + 1 := ⟨i - A.length - 1, by omega⟩
      rw [hj, List.take_succ_cons]
      simp
    exact absurd (hbelow _ hmem) (not_lt.mpr (hB _ (List.mem_cons_self ..)))

theorem lowerBound_cut (sorted : keys.Pairwise (· < ·)) (key : Bytes) :
    ∃ A B, keys = A ++ B ∧ lowerBound keys (headsFor keys) key = A.length ∧
      (∀ k ∈ A, k < key) ∧ ∀ k ∈ B, key ≤ k := by
  obtain ⟨h1, h2, h3⟩ := lowerBound_split sorted key
  refine ⟨_, _, (List.take_append_drop (lowerBound keys (headsFor keys) key) keys).symm, ?_, h1, h2⟩
  rw [List.length_take]
  omega

/-! ## The child for a key -/

theorem fencesOf_append :
    fencesOf (A ++ B) hi = A.map fence ++ fencesOf B hi := by
  simp [fencesOf]

theorem fencesOf_cons {k : Bytes} :
    fencesOf (k :: B) hi = fence k :: fencesOf B hi := rfl

theorem exists_fencesOf (B : List Bytes) (hi : Fence) : ∃ f F, fencesOf B hi = f :: F := by
  cases B with
  | nil => exact ⟨hi, [], rfl⟩
  | cons b B => exact ⟨fence b, fencesOf B hi, rfl⟩

@[simp] theorem length_fencesOf (B : List Bytes) (hi : Fence) :
    (fencesOf B hi).length = B.length + 1 := by simp [fencesOf]

/-- An internal node cut at the child the search for `key` leads to. -/
structure ChildAt (g : Spans) (l : Nat) (lo hi : Fence) (keys : List Bytes)
    (children : List NodeId) (key : Bytes) (A B : List Bytes) (f : Fence) (F : List Fence)
    (C1 : List NodeId) (c : NodeId) (C2 : List NodeId) : Prop where
  keys_eq : keys = A ++ B
  children_eq : children = C1 ++ c :: C2
  fences_eq : fencesOf B hi = f :: F
  index : lowerBound keys (headsFor keys) key = A.length
  aligned : A.length = C1.length
  before : Seg g l lo (A.map fence) C1
  child : g c = some ⟨(A.map fence).getLastD lo, f, l⟩
  after : Seg g l f F C2
  lower : (A.map fence).getLastD lo < fence key
  upper : fence key ≤ f

/-- The search in a well-formed internal node leads to the child that covers
the key. -/
theorem exists_childAt {lo : Fence} (h : Seg g l lo (fencesOf keys hi) children)
    (h1 : lo < fence key) (h2 : fence key ≤ hi) :
    ∃ A B f F C1 c C2, ChildAt g l lo hi keys children key A B f F C1 c C2 := by
  obtain ⟨A, B, rfl, hidx, hA, hB⟩ := lowerBound_cut (sorted_of_fences h.sorted) key
  obtain ⟨f, F, hF⟩ := exists_fencesOf B hi
  have hlen := h.length_eq
  rw [length_fencesOf, List.length_append] at hlen
  obtain ⟨C1, c, C2, rfl, hC1⟩ := List.exists_cut (l := children) (i := A.length) (by omega)
  rw [fencesOf_append, hF] at h
  obtain ⟨hbefore, hchild, -, hafter⟩ := h.of_append (by simp [hC1])
  refine ⟨A, B, f, F, C1, c, C2, rfl, rfl, hF, hidx, hC1.symm, hbefore, hchild, hafter, ?_, ?_⟩
  · -- the fence below the child is the last separator below the key
    rcases List.eq_nil_or_concat A with rfl | ⟨A', k, rfl⟩
    · exact h1
    · simpa using hA k (by simp)
  · cases B with
    | nil =>
      simp only [fencesOf, List.map_nil, List.nil_append, List.cons.injEq] at hF
      exact hF.1 ▸ h2
    | cons b B =>
      simp only [fencesOf_cons, List.cons.injEq] at hF
      rw [← hF.1, fence_le_fence]
      exact hB b (List.mem_cons_self ..)

theorem ChildAt.getElem? {lo : Fence} {C1 C2 : List NodeId} {f : Fence} {F : List Fence}
    {c : NodeId} (h : ChildAt g l lo hi keys children key A B f F C1 c C2) :
    children[lowerBound keys (headsFor keys) key]? = some c := by
  rw [h.index, h.children_eq]
  exact List.getElem?_at h.aligned.symm

/-- Descending by `lowerBound` stays on the path of the key. -/
theorem Inv.descend {t : BTree} (h : Inv t g) {s : Span} (hn : g n = some s)
    (hb : t.body n = some (newInternal keys children)) (hk : s.Covers key) :
    ∃ c sc, children[lowerBound keys (headsFor keys) key]? = some c ∧ g c = some sc ∧
      sc.level + 1 = s.level ∧ sc.Covers key := by
  obtain ⟨l, hl, hseg⟩ := h.seg hn hb
  obtain ⟨A, B, f, F, C1, c, C2, hc⟩ := exists_childAt hseg hk.1 hk.2
  exact ⟨c, _, hc.getElem?, hc.child, hl.symm, hc.lower, hc.upper⟩

/-! ## The heap after a visit -/

theorem publishAll_getElem?_of_not_mem :
    ∀ {l : List (NodeId × NodeBody)} {nodes : List NodeBody}, (∀ p ∈ l, p.1 ≠ n) →
      (publishAll nodes l)[n]? = nodes[n]?
  | [], _, _ => rfl
  | p :: l, nodes, h => by
    have ih : (publishAll (nodes.set p.1 p.2) l)[n]? = (nodes.set p.1 p.2)[n]? :=
      publishAll_getElem?_of_not_mem fun q hq => h q (List.mem_cons_of_mem _ hq)
    calc (publishAll nodes (p :: l))[n]? = (publishAll (nodes.set p.1 p.2) l)[n]? := rfl
      _ = (nodes.set p.1 p.2)[n]? := ih
      _ = nodes[n]? := List.getElem?_set_ne (h p (List.mem_cons_self ..))

@[simp] theorem length_publishAll : ∀ (l : List (NodeId × NodeBody)) (nodes : List NodeBody),
    (publishAll nodes l).length = nodes.length
  | [], _ => rfl
  | p :: l, nodes => by
    rw [show publishAll nodes (p :: l) = publishAll (nodes.set p.1 p.2) l from rfl,
      length_publishAll l, List.length_set]

theorem publishAll_getElem?_of_mem {b : NodeBody} :
    ∀ {l : List (NodeId × NodeBody)} {nodes : List NodeBody}, (l.map Prod.fst).Nodup →
      (n, b) ∈ l → n < nodes.length → (publishAll nodes l)[n]? = some b
  | [], _, _, h, _ => by simp at h
  | p :: l, nodes, hnd, h, hn => by
    rw [List.map_cons, List.nodup_cons] at hnd
    rw [show publishAll nodes (p :: l) = publishAll (nodes.set p.1 p.2) l from rfl]
    rcases List.mem_cons.mp h with rfl | hmem
    · have hnot : ∀ q ∈ l, q.1 ≠ n := fun q hq heq =>
        hnd.1 (List.mem_map.mpr ⟨q, hq, heq⟩)
      rw [publishAll_getElem?_of_not_mem hnot]
      exact List.getElem?_set_self hn
    · exact publishAll_getElem?_of_mem hnd.2 hmem (by rwa [List.length_set])

section Perform

variable {R : Type} {t : BTree} {v : Visit R} {n : NodeId} {b : NodeBody}

theorem body_perform_published (hnd : (v.published.map Prod.fst).Nodup)
    (h : (n, b) ∈ v.published) (hn : n < t.nodes.length) : (t.perform v).body n = some b :=
  publishAll_getElem?_of_mem hnd h (by rw [List.length_append]; exact Nat.lt_add_right _ hn)

theorem body_perform_other (h : ∀ p ∈ v.published, p.1 ≠ n) (hb : t.body n = some b) :
    (t.perform v).body n = some b := by
  refine (publishAll_getElem?_of_not_mem h).trans ?_
  rw [List.getElem?_append_left (List.getElem?_eq_some_iff.mp hb).1]
  exact hb

theorem body_perform_fresh (hf : v.fresh = [b]) (h : ∀ p ∈ v.published, p.1 ≠ t.nodes.length) :
    (t.perform v).body t.nodes.length = some b := by
  refine (publishAll_getElem?_of_not_mem h).trans ?_
  rw [hf]
  exact List.getElem?_concat_length

end Perform

/-! ## What restructuring changes -/

def Restructure.moved : Restructure → List NodeId
  | .none => []
  | .split child right => [child, right]
  | .borrowRight taker giver | .borrowLeft taker giver => [taker, giver]
  | .merge kept evicted => [kept, evicted]

/-- The nodes that lose the lower part of their span. -/
def Restructure.lost : Restructure → List NodeId
  | .borrowRight _ giver => [giver]
  | .merge _ evicted => [evicted]
  | .none | .split .. | .borrowLeft .. => []

/-- The nodes that lose a part of their span. -/
def Restructure.shrunk : Restructure → List NodeId
  | .none => []
  | .split child _ => [child]
  | .borrowRight _ giver | .borrowLeft _ giver => [giver]
  | .merge _ evicted => [evicted]

theorem Restructure.lost_subset_shrunk (h : x ∈ c.lost) :
    x ∈ c.shrunk := by
  cases c <;> simp_all [Restructure.lost, Restructure.shrunk]

theorem Restructure.shrunk_subset_moved (h : x ∈ c.shrunk) :
    x ∈ c.moved := by
  cases c <;> simp_all [Restructure.shrunk, Restructure.moved]

theorem Restructure.lost_subset_moved (h : x ∈ c.lost) :
    x ∈ c.moved := shrunk_subset_moved (lost_subset_shrunk h)

structure Frame (change : Restructure) (g g' : Spans) : Prop where
  /-- Nodes that are not restructured keep their span. -/
  same : ∀ n, n ∉ change.moved → g' n = g n
  /-- Nodes that do not lose the lower part of their span still reach as low. -/
  kept : ∀ n s, g n = some s → n ∉ change.lost →
    ∃ s', g' n = some s' ∧ s'.level = s.level ∧ s'.lo ≤ s.lo
  /-- Nodes that lose nothing still cover what they covered. -/
  grown : ∀ n s, g n = some s → n ∉ change.shrunk →
    ∃ s', g' n = some s' ∧ s'.level = s.level ∧ s'.lo ≤ s.lo ∧ s.hi ≤ s'.hi

theorem Frame.refl (g : Spans) : Frame .none g g :=
  ⟨fun _ _ => rfl, fun _ s h _ => ⟨s, h, rfl, le_rfl⟩, fun _ s h _ => ⟨s, h, rfl, le_rfl, le_rfl⟩⟩

/-- The frame of a pair rewrite, from what happens to the two nodes. -/
theorem frame_withPair {y : NodeId} {a f : Fence} {cut cut' : Option Fence} {change : Restructure}
    (hp : PairOk g l x y a f cut) (hx : x ∈ change.moved) (hy : y ∈ change.moved)
    (hlost : y ∉ change.lost → ∀ c ∈ cut, ∃ c' ∈ cut', c' ≤ c)
    (hshrunk : x ∉ change.shrunk → cut.getD f ≤ cut'.getD f) :
    Frame change g (withPair g l x y a f cut') := by
  refine ⟨fun n hn => ?_, fun n s hs hn => ?_, fun n s hs hn => ?_⟩
  · exact withPair_other (fun he => hn (he ▸ hx)) (fun he => hn (he ▸ hy))
  · by_cases hnx : n = x
    · subst hnx
      rw [hp.left, Option.some.injEq] at hs
      subst hs
      exact ⟨_, withPair_left, rfl, le_rfl⟩
    by_cases hny : n = y
    · subst hny
      rw [hp.right, Option.map_eq_some_iff] at hs
      obtain ⟨c, hc, rfl⟩ := hs
      obtain ⟨c', hc', hle⟩ := hlost hn c hc
      refine ⟨⟨c', f, l⟩, ?_, rfl, hle⟩
      rw [withPair_right hp.ne, hc']
      rfl
    · exact ⟨s, (withPair_other hnx hny).trans hs, rfl, le_rfl⟩
  · by_cases hnx : n = x
    · subst hnx
      rw [hp.left, Option.some.injEq] at hs
      subst hs
      exact ⟨_, withPair_left, rfl, le_rfl, hshrunk hn⟩
    by_cases hny : n = y
    · subst hny
      rw [hp.right, Option.map_eq_some_iff] at hs
      obtain ⟨c, hc, rfl⟩ := hs
      obtain ⟨c', hc', hle⟩ := hlost (fun hl => hn (Restructure.lost_subset_shrunk hl)) c hc
      refine ⟨⟨c', f, l⟩, ?_, rfl, hle, le_rfl⟩
      rw [withPair_right hp.ne, hc']
      rfl
    · exact ⟨s, (withPair_other hnx hny).trans hs, rfl, le_rfl, le_rfl⟩

end HenchDB.BTree
