import HenchDB.BTree.LeafVisit

/-!
# Specifications of the writers' visits

Every visit of `insert_rec`, `upsert_rec`, `update_in_place_rec`,
`delete_rec` and `fix_pass` on the path of its key keeps the invariant, stays
on the path, and changes the stored map only where the operation says so.
-/

namespace HenchDB.BTree

/-! ## Splitting a child -/

section Split

variable {t : BTree} {g : Spans} {m : Contents} {l : Nat} {n c right : NodeId} {s : Span}
  {F1 F2 : List Fence} {f : Fence} {C1 C2 : List NodeId} {cb left rb : NodeBody} {sep : Bytes}

/-- A full leaf splits into two nonempty runs behind the separator. -/
theorem splitBody_leaf {E : List (Bytes × Bytes)} {next : Option NodeId}
    (hfull : maxKeys ≤ E.length) (hs : splitBody right (leafBody E next) = some (sep, left, rb)) :
    ∃ E1 E2, E = E1 ++ E2 ∧ left = leafBody E1 (some right) ∧ rb = leafBody E2 next ∧
      CutAt E1 E2 (some (fence sep)) := by
  simp only [splitBody, leafBody, newLeafWith, headsFor, List.length_map, Option.some.injEq,
    Prod.mk.injEq] at hs
  obtain ⟨hsep, rfl, rfl⟩ := hs
  have hmax : 128 ≤ E.length := hfull
  refine ⟨E.take (E.length / 2), E.drop (E.length / 2), (List.take_append_drop ..).symm, ?_, ?_,
    sep, ?_, rfl, ?_⟩
  · simp [leafBody, newLeafWith, headsFor, List.map_take]
  · simp [leafBody, newLeafWith, headsFor, List.map_drop]
  · have hne : (E.map Prod.fst).take (E.length / 2) ≠ [] := by
      intro h0
      have := congrArg List.length h0
      simp only [List.length_take, List.length_map, List.length_nil] at this
      omega
    rw [List.map_take, ← hsep, List.getLast?_eq_some_getLast hne, Option.some.injEq,
      List.getLastD_eq_getLast?, List.getLast?_eq_some_getLast hne, Option.getD_some]
  · intro h0
    have := congrArg List.length h0
    simp only [List.length_drop, List.length_nil] at this
    omega

theorem splitBody_internal {K : List Bytes} {C : List NodeId} (hlen : C.length = K.length + 1)
    (hs : splitBody right (newInternal K C) = some (sep, left, rb)) :
    ∃ K1 K2 D1 D2, K = K1 ++ sep :: K2 ∧ C = D1 ++ D2 ∧ D1.length = K1.length + 1 ∧
      left = newInternal K1 D1 ∧ rb = newInternal K2 D2 := by
  simp only [splitBody, newInternal, Option.map_eq_some_iff, Prod.mk.injEq] at hs
  obtain ⟨a, ha, rfl, rfl, rfl⟩ := hs
  obtain ⟨hlt, hget⟩ := List.getElem?_eq_some_iff.mp ha
  refine ⟨K.take (K.length / 2), K.drop (K.length / 2 + 1), C.take (K.length / 2 + 1),
    C.drop (K.length / 2 + 1), ?_, (List.take_append_drop ..).symm, ?_, ?_, rfl⟩
  · rw [← hget]
    simp
  · simp
    omega
  · simp [newInternal, headsFor, List.map_take]

theorem splitBody_isLeaf (hs : splitBody right cb = some (sep, left, rb)) :
    left.isLeaf = cb.isLeaf := by
  cases cb with
  | leaf keys heads vals next =>
    simp only [splitBody, Option.some.injEq, Prod.mk.injEq] at hs
    rw [← hs.2.1]
    rfl
  | internal keys heads children =>
    simp only [splitBody, Option.map_eq_some_iff, Prod.mk.injEq] at hs
    obtain ⟨k, -, -, rfl, -⟩ := hs
    rfl

/-- Splitting a full child cuts its region at the separator. -/
theorem Inv.splitChild (h : Inv t g) (hm : Holds t g m)
    (hp : PairAt t g l n c right s F1 f F2 C1 C2 none) (hcb : t.body c = some cb)
    (hfull : maxKeys ≤ cb.keyCount) (hs : splitBody right cb = some (sep, left, rb)) :
    (F1.getLastD s.lo < fence sep ∧ fence sep < f) ∧
      ∀ t' keys', Rewrites t t' n c right keys' (C1 ++ (c :: right :: C2)) →
        fencesOf keys' s.hi = F1 ++ fence sep :: f :: F2 →
        t'.body c = some left → t'.body right = some rb →
        Inv t' (withPair g l c right (F1.getLastD s.lo) f (some (fence sep))) ∧
          Holds t' (withPair g l c right (F1.getLastD s.lo) f (some (fence sep))) m := by
  obtain ⟨-, hpair, -⟩ := hp.pieces h
  obtain ⟨b, hb, hok⟩ := h.body c _ hpair.left
  rw [hcb, Option.some.injEq] at hb
  subst hb
  cases hok with
  | @leaf E next h0 _ _ _ =>
    obtain rfl : l = 0 := h0
    obtain ⟨E1, E2, rfl, rfl, rfl, hcut⟩ := splitBody_leaf
      (by simpa [NodeBody.keyCount, leafBody, newLeafWith] using hfull) hs
    have hall : EntriesIn (F1.getLastD s.lo) f (E1 ++ E2) := (h.leaf hpair.left hcb).2.1
    refine ⟨(hall.cut hcut).2.2, fun t' keys' hw hfs hl hr => ?_⟩
    have hregion : LeafRegion t' c right E1 E2 next (some (fence sep)) := ⟨hl, hr⟩
    exact h.recutLeaves hm hp hw hfs ⟨hcb, rfl⟩ hregion (by simp) hcut
  | internal hl hseg =>
    obtain rfl := hl
    obtain ⟨K1, K2, D1, D2, rfl, rfl, hlen, rfl, rfl⟩ := splitBody_internal
      (by have := hseg.length_eq; rw [length_fencesOf] at this; omega) hs
    have hsorted := hseg.sorted
    rw [List.pairwise_cons, fencesOf_cut] at hsorted
    refine ⟨⟨hsorted.1 _ (by simp [fencesOf]), ?_⟩, fun t' keys' hw hfs hl hr => ?_⟩
    · exact (List.pairwise_append.mp hsorted.2).2.2 _ (by simp [fencesOf]) _ (by simp [fencesOf])
    · have hregion : InternalRegion t' c right (K1 ++ sep :: K2) (D1 ++ D2)
          (some (fence sep)) := ⟨K1, sep, K2, D1, D2, rfl, rfl, rfl, hlen, hl, hr⟩
      exact h.recutInternal hm hp hw hfs hcb hregion ⟨_, _, hr⟩

end Split

section Separator

variable {g : Spans} {l : Nat} {lo hi : Fence} {keys A B : List Bytes} {children C1 C2 : List NodeId}
  {key sep : Bytes} {f : Fence} {F : List Fence} {c : NodeId}

/-- The separator of a split child lies between the separators around the
child. -/
theorem ChildAt.sep_between (hc : ChildAt g l lo hi keys children key A B f F C1 c C2)
    (hsorted : (lo :: fencesOf keys hi).Pairwise (· < ·))
    (h1 : (A.map fence).getLastD lo < fence sep) (h2 : fence sep < f) :
    (∀ k ∈ A, k < sep) ∧ ∀ k ∈ B, sep < k := by
  have hkeys := sorted_of_fences hsorted
  obtain rfl := hc.keys_eq
  rw [List.pairwise_append] at hkeys
  refine ⟨fun k hk => ?_, fun k hk => ?_⟩
  · rcases List.eq_nil_or_concat A with rfl | ⟨A', a, rfl⟩
    · simp at hk
    · have ha : a < sep := by simpa using h1
      rw [List.concat_eq_append] at hk hkeys
      rcases List.mem_append.mp hk with hmem | hmem
      · exact ((List.pairwise_append.mp hkeys.1).2.2 k hmem a (by simp)).trans ha
      · rw [List.mem_singleton.mp hmem]
        exact ha
  · cases B with
    | nil => simp at hk
    | cons b B =>
      have hf := hc.fences_eq
      rw [fencesOf_cons, List.cons.injEq] at hf
      have hb : sep < b := by rwa [← hf.1, fence_lt_fence] at h2
      rcases List.mem_cons.mp hk with rfl | hmem
      · exact hb
      · exact hb.trans ((List.pairwise_cons.mp hkeys.2.1).1 k hmem)

theorem ChildAt.lowerBound_sep (hc : ChildAt g l lo hi keys children key A B f F C1 c C2)
    (hsorted : (lo :: fencesOf keys hi).Pairwise (· < ·))
    (h1 : (A.map fence).getLastD lo < fence sep) (h2 : fence sep < f) :
    lowerBound keys (headsFor keys) sep = A.length := by
  obtain ⟨hA, hB⟩ := hc.sep_between hsorted h1 h2
  have hkeys := sorted_of_fences hsorted
  obtain rfl := hc.keys_eq
  exact lowerBound_append hkeys hA fun k hk => (hB k hk).le

/-- The rewritten separators stay in order. -/
theorem ChildAt.sorted_sep (hc : ChildAt g l lo hi keys children key A B f F C1 c C2)
    (hsorted : (lo :: fencesOf keys hi).Pairwise (· < ·))
    (h1 : (A.map fence).getLastD lo < fence sep) (h2 : fence sep < f) :
    (A ++ sep :: B).Pairwise (· < ·) := by
  obtain ⟨hA, hB⟩ := hc.sep_between hsorted h1 h2
  have hkeys := sorted_of_fences hsorted
  obtain rfl := hc.keys_eq
  rw [List.pairwise_append] at hkeys
  refine List.pairwise_append.mpr ⟨hkeys.1, List.pairwise_cons.mpr ⟨hB, hkeys.2.1⟩,
    fun a ha b hb => ?_⟩
  rcases List.mem_cons.mp hb with rfl | hb
  · exact hA a ha
  · exact hkeys.2.2 a ha b hb

/-- The rewritten separators and children of a node whose child splits. -/
theorem ChildAt.insert_sep (hc : ChildAt g l lo hi keys children key A B f F C1 c C2)
    (sep : Bytes) (right : NodeId) :
    keys.insertIdx A.length sep = A ++ sep :: B ∧
      (headsFor keys).insertIdx A.length (keyHead sep) = headsFor (A ++ sep :: B) ∧
      children.insertIdx (A.length + 1) right = C1 ++ c :: right :: C2 := by
  refine ⟨?_, ?_, ?_⟩
  · rw [hc.keys_eq, List.insertIdx_at rfl]
  · rw [hc.keys_eq, headsFor, List.map_append, List.insertIdx_at (by simp)]
    simp [headsFor]
  · rw [hc.children_eq, List.insertIdx_at_succ hc.aligned.symm]

end Separator

section SplitDescend

variable {R : Type} {t : BTree} {g : Spans} {m : Contents} {l : Nat} {n : NodeId} {s : Span}
  {keys A B : List Bytes} {children C1 C2 : List NodeId} {key : Bytes} {f : Fence}
  {F : List Fence} {c : NodeId} {cb : NodeBody} {v : Visit R}
  {post : Contents → R → Contents → Prop}

/-- The spans after the split of the child `c` at `sep`. -/
def splitSpans (t : BTree) (g : Spans) (l : Nat) (lo : Fence) (A : List Bytes) (f : Fence)
    (c : NodeId) (sep : Bytes) : Spans :=
  withPair g l c t.nodes.length ((A.map fence).getLastD lo) f (some (fence sep))

/-- What a visit that splits the child `c` into `left` and `rb` achieves. -/
structure SplitDone (t : BTree) (g : Spans) (m : Contents) (l : Nat) (n : NodeId) (s : Span)
    (A : List Bytes) (f : Fence) (c : NodeId) (key sep : Bytes) (left rb : NodeBody)
    (v : Visit R) : Prop where
  visit : VisitOk t g v (splitSpans t g l s.lo A f c sep)
  holds : Holds (t.perform v) (splitSpans t g l s.lo A f c sep) m
  left : (t.perform v).body c = some left
  right : (t.perform v).body t.nodes.length = some rb
  same : ∀ z, z ≠ n → z ≠ c → ∀ b, t.body z = some b → (t.perform v).body z = some b
  outcome : ∃ next sc, v.outcome = .descend next ∧
    splitSpans t g l s.lo A f c sep next = some sc ∧ sc.level = l ∧ sc.Covers key

/-- A full child always splits. -/
theorem splitBody_isSome (h : Inv t g) {sc : Span} (hc : g c = some sc) (hcb : t.body c = some cb)
    (hfull : maxKeys ≤ cb.keyCount) (right : NodeId) :
    ∃ sep left rb, splitBody right cb = some (sep, left, rb) := by
  obtain ⟨b, hb, hok⟩ := h.body c sc hc
  rw [hcb, Option.some.injEq] at hb
  subst hb
  cases hok with
  | leaf _ _ _ _ => exact ⟨_, _, _, rfl⟩
  | @internal K C _ _ _ =>
    have hlen : 128 ≤ K.length := hfull
    have hget : K[K.length / 2]? = some K[K.length / 2] := List.getElem?_eq_getElem (by omega)
    have hsome : (splitBody right (newInternal K C)).isSome := by
      simp only [splitBody, newInternal, hget, Option.map_some, Option.isSome_some]
    obtain ⟨⟨sep, left, rb⟩, hs⟩ := Option.isSome_iff_exists.mp hsome
    exact ⟨sep, left, rb, hs⟩

/-- The child on the path beside the sibling that a split would give it. -/
theorem ChildAt.pairAt (h : Inv t g) (hn : g n = some s) (hl : s.level = l + 1)
    (hb : t.body n = some (newInternal keys children))
    (hc : ChildAt g l s.lo s.hi keys children key A B f F C1 c C2) :
    PairAt t g l n c t.nodes.length s (A.map fence) f F C1 C2 none := by
  have hdead : g t.nodes.length = none := h.fresh le_rfl
  refine ⟨hn, hl, ⟨keys, by rw [hb, hc.children_eq]; rfl, by
    rw [hc.keys_eq, fencesOf_append, hc.fences_eq]; rfl⟩, by simp [hc.aligned], fun he => ?_,
    fun _ => hdead⟩
  rw [← he, hc.child] at hdead
  cases hdead

/-- The visit of an internal node whose child on the path is full. -/
theorem splitDescend_split (h : Inv t g) (hm : Holds t g m) (hn : g n = some s)
    (hl : s.level = l + 1) (hb : t.body n = some (newInternal keys children))
    (hk : s.Covers key) (hc : ChildAt g l s.lo s.hi keys children key A B f F C1 c C2)
    (hcb : t.body c = some cb) (hfull : maxKeys ≤ cb.keyCount) :
    ∃ sep left rb v, splitBody t.nodes.length cb = some (sep, left, rb) ∧
      splitDescend (R := R) t n keys (headsFor keys) children key = some v ∧
      SplitDone t g m l n s A f c key sep left rb v := by
  obtain ⟨sep, left, rb, hsplit⟩ := splitBody_isSome h hc.child hcb hfull t.nodes.length
  obtain ⟨l', hl', hseg⟩ := h.seg hn hb
  obtain rfl : l = l' := by omega
  have hp := hc.pairAt h hn hl hb
  have hcne : c ≠ t.nodes.length := hp.ne
  have hdead : g t.nodes.length = none := h.fresh le_rfl
  have hnne : n ≠ t.nodes.length := fun he => by
    rw [← he, hn] at hdead
    cases hdead
  have hncne : n ≠ c := fun he => by
    rw [he, hc.child, Option.some.injEq] at hn
    rw [← hn] at hl
    exact absurd hl (Nat.ne_of_lt (Nat.lt_succ_self l))
  obtain ⟨⟨hlow, hhigh⟩, hsplitOk⟩ := h.splitChild hm hp hcb hfull hsplit
  have hpos := hc.lowerBound_sep hseg.sorted hlow hhigh
  obtain ⟨hkeys, hheads, hchildren⟩ := hc.insert_sep sep t.nodes.length
  -- the visit, up to the child it goes on with, which is read from the rewritten node
  let v (next : NodeId) : Visit R :=
    { latched := [n, c]
      fresh := [rb]
      published := [(c, left), (n, newInternal (A ++ sep :: B) (C1 ++ c :: t.nodes.length :: C2))]
      change := .split c t.nodes.length
      outcome := .descend next }
  have hnd : ∀ z, ((v z).published.map Prod.fst).Nodup := fun z => by simp [v, hncne.symm]
  have hbn : ∀ z, (t.perform (v z)).body n =
      some (newInternal (A ++ sep :: B) (C1 ++ c :: t.nodes.length :: C2)) :=
    fun z => body_perform_published (hnd z) (by simp [v]) (h.lt_length hn)
  have hbc : ∀ z, (t.perform (v z)).body c = some left :=
    fun z => body_perform_published (hnd z) (by simp [v]) (h.lt_length hc.child)
  have hbr : ∀ z, (t.perform (v z)).body t.nodes.length = some rb :=
    fun z => body_perform_fresh rfl (by simp [v, hcne, hnne])
  have hother : ∀ z z', z' ≠ n → z' ≠ c → ∀ b, t.body z' = some b →
      (t.perform (v z)).body z' = some b :=
    fun z z' h1 h2 b hb' => body_perform_other (by simp [v, h1.symm, h2.symm]) hb'
  have hinv : ∀ z, Inv (t.perform (v z)) (splitSpans t g l s.lo A f c sep) ∧
      Holds (t.perform (v z)) (splitSpans t g l s.lo A f c sep) m := fun z =>
    hsplitOk (t.perform (v z)) (A ++ sep :: B)
      ⟨rfl, fun z' h1 h2 _ b hb' => hother z z' h1 h2 b hb', hbn z⟩
      (by rw [fencesOf_append, fencesOf_cons, hc.fences_eq]) (hbc z) (hbr z)
  have hn' : splitSpans t g l s.lo A f c sep n = some s := (withPair_other hncne hnne).trans hn
  obtain ⟨next, sc, hnext, hgc, hlev, hcov⟩ := (hinv n).1.descend hn' (hbn n) hk
  obtain ⟨-, hpair, -⟩ := hp.pieces h
  refine ⟨sep, left, rb, v next, hsplit, ?_, ⟨⟨(hinv next).1, ?_, ?_, ?_, ?_, ?_, ?_, ?_⟩,
    (hinv next).2, hbc next, hbr next, hother next, next, sc, rfl, hgc, by omega, hcov⟩⟩
  · simp only [splitDescend, Option.bind_eq_bind, hc.getElem?, Option.bind_some, hcb, if_pos hfull,
      hsplit, hpos, hkeys, hheads, hchildren, hnext]
    rfl
  · exact frame_withPair hpair (by simp [v, Restructure.moved]) (by simp [v, Restructure.moved])
      (by simp) (by simp [v, Restructure.shrunk])
  · simp only [v, List.mem_cons, List.not_mem_nil, or_false]
    rintro z (rfl | rfl)
    · exact ⟨s, hn⟩
    · exact ⟨_, hc.child⟩
  · simp [v, hncne]
  · exact List.Perm.swap _ _ _
  · simp only [v, Restructure.moved, List.mem_cons, List.not_mem_nil, or_false]
    rintro z (rfl | rfl)
    · exact Or.inl (Or.inr rfl)
    · exact Or.inr rfl
  · simp only [v, Restructure.moved, List.mem_cons, List.not_mem_nil, or_false]
    intro z hz p sp pk pc hgp hbp hmem
    by_contra hne
    rw [not_or] at hne
    obtain ⟨h1, h2⟩ := hp.not_child h hgp hne.1 hbp hmem
    exact hz.elim h1 h2
  · simp only [v, List.mem_cons, List.not_mem_nil, or_false]
    rintro p (rfl | rfl) b' hb'
    · rw [hcb, Option.some.injEq] at hb'
      exact hb' ▸ splitBody_isLeaf hsplit
    · rw [hb, Option.some.injEq] at hb'
      exact hb' ▸ rfl

/-- The visit of an internal node whose child on the path is not full. -/
theorem splitDescend_plain (hc : ChildAt g l s.lo s.hi keys children key A B f F C1 c C2)
    (hcb : t.body c = some cb) (hroom : ¬ maxKeys ≤ cb.keyCount) :
    splitDescend (R := R) t n keys (headsFor keys) children key =
      some (single n (newInternal keys children) (.descend c)) := by
  simp only [splitDescend, Option.bind_eq_bind, hc.getElem?, Option.bind_some, hcb, if_neg hroom]
  rfl

theorem splitDescend_spec (h : Inv t g) (hm : Holds t g m) (hn : g n = some s)
    (hb : t.body n = some (newInternal keys children)) (hk : s.Covers key)
    (hv : splitDescend t n keys (headsFor keys) children key = some v) :
    ∃ g', VisitOk t g v g' ∧ OutcomeOk (t.perform v) g' m key s.level post v.outcome := by
  obtain ⟨l, hl, hseg⟩ := h.seg hn hb
  obtain ⟨A, B, f, F, C1, c, C2, hc⟩ := exists_childAt hseg hk.1 hk.2
  obtain ⟨cb, hcb, -⟩ := h.body c _ hc.child
  by_cases hfull : maxKeys ≤ cb.keyCount
  · obtain ⟨sep, left, rb, v', -, hv', hdone⟩ :=
      splitDescend_split (R := R) h hm hn hl hb hk hc hcb hfull
    rw [hv, Option.some.injEq] at hv'
    subst hv'
    obtain ⟨next, sc, hout, hgc, hlev, hcov⟩ := hdone.outcome
    rw [hout]
    exact ⟨_, hdone.visit, hdone.holds, sc, hgc, by omega, hcov⟩
  · rw [splitDescend_plain hc hcb hfull, Option.some.injEq] at hv
    subst hv
    refine ⟨g, VisitOk.single_same h hn hb, hm.single_same hb, _, hc.child, ?_, hc.lower, hc.upper⟩
    show l < s.level
    omega

/-- A plain descent by the search. -/
theorem descendArm_spec {child : NodeId} (h : Inv t g) (hm : Holds t g m) (hn : g n = some s)
    (hb : t.body n = some (newInternal keys children)) (hk : s.Covers key)
    (hchild : children[lowerBound keys (headsFor keys) key]? = some child) :
    ∃ g', VisitOk t g (single (R := R) n (newInternal keys children) (.descend child)) g' ∧
      OutcomeOk (t.perform (single (R := R) n (newInternal keys children) (.descend child))) g' m
        key s.level post (.descend child) := by
  obtain ⟨c, sc, hget, hgc, hlev, hcov⟩ := h.descend hn hb hk
  rw [hchild, Option.some.injEq] at hget
  exact ⟨g, VisitOk.single_same h hn hb, hm.single_same hb, sc, hget ▸ hgc, by omega, hcov⟩

end SplitDescend

/-! ## The four operations -/

section Operations

variable {key val : Bytes}

theorem insertVisit_spec : VisitSpec (insertVisit key val) key (insertPost key val) := by
  intro t g m n s v h hm hn hk hv
  obtain ⟨b, hb, hok⟩ := h.body n s hn
  cases hok with
  | @leaf E next _ _ _ _ =>
    simp only [insertVisit, hb, Option.bind_eq_bind, Option.bind_some, leafBody,
      newLeafWith] at hv
    split at hv
    · cases hv
      exact leafArm_same h hm hn hb (Or.inl rfl)
    split at hv
    · cases hv
      exact leafArm_same h hm hn hb (Or.inl rfl)
    rcases h.find hm hn hb hk with ⟨A, x, B, rfl, hidx, hmk, -, -⟩ | ⟨A, B, rfl, hidx, hmk, hB, he⟩
    · rw [hidx, if_pos getElem?_keys_found, Option.some.injEq] at hv
      subst hv
      exact leafArm_same h hm hn hb (Or.inr ⟨false, rfl, by simp [insertPost, hmk]⟩)
    · rw [hidx, if_neg (getElem?_keys_absent hB), leafBody_insertIdx, Option.some.injEq] at hv
      subst hv
      exact leafArm_edit h hm hn hb hk (he val) (by simp [insertPost, hmk])
  | internal hl hseg =>
    simp only [insertVisit, hb, Option.bind_eq_bind, Option.bind_some, newInternal] at hv
    exact splitDescend_spec h hm hn hb hk hv

theorem upsertVisit_spec : VisitSpec (upsertVisit key val) key (upsertPost key val) := by
  intro t g m n s v h hm hn hk hv
  obtain ⟨b, hb, hok⟩ := h.body n s hn
  cases hok with
  | @leaf E next _ _ _ _ =>
    simp only [upsertVisit, hb, Option.bind_eq_bind, Option.bind_some, leafBody,
      newLeafWith] at hv
    rcases h.find hm hn hb hk with ⟨A, x, B, rfl, hidx, hmk, he, -⟩ | ⟨A, B, rfl, hidx, hmk, hB, he⟩
    · rw [hidx, if_pos getElem?_keys_found, getElem?_vals_found, Option.bind_some, leafBody_set,
        Option.some.injEq] at hv
      subst hv
      exact leafArm_edit h hm hn hb hk (he val) ⟨hmk.symm, rfl⟩
    · rw [hidx, if_neg (getElem?_keys_absent hB)] at hv
      split at hv
      · cases hv
        exact leafArm_same h hm hn hb (Or.inl rfl)
      split at hv
      · cases hv
        exact leafArm_same h hm hn hb (Or.inl rfl)
      rw [leafBody_insertIdx, Option.some.injEq] at hv
      subst hv
      exact leafArm_edit h hm hn hb hk (he val) ⟨hmk.symm, rfl⟩
  | internal hl hseg =>
    simp only [upsertVisit, hb, Option.bind_eq_bind, Option.bind_some, newInternal] at hv
    exact splitDescend_spec h hm hn hb hk hv

theorem updateVisit_spec : VisitSpec (updateVisit key val) key (updatePost key val) := by
  intro t g m n s v h hm hn hk hv
  obtain ⟨b, hb, hok⟩ := h.body n s hn
  cases hok with
  | @leaf E next _ _ _ _ =>
    simp only [updateVisit, hb, Option.bind_eq_bind, Option.bind_some, leafBody,
      newLeafWith] at hv
    rcases h.find hm hn hb hk with ⟨A, x, B, rfl, hidx, hmk, he, -⟩ | ⟨A, B, rfl, hidx, hmk, hB, he⟩
    · rw [hidx, if_pos getElem?_keys_found, getElem?_vals_found, Option.bind_some, leafBody_set,
        Option.some.injEq] at hv
      subst hv
      exact leafArm_edit h hm hn hb hk (he val) ⟨hmk.symm, by simp [hmk]⟩
    · rw [hidx, if_neg (getElem?_keys_absent hB), Option.some.injEq] at hv
      subst hv
      exact leafArm_same h hm hn hb (Or.inr ⟨none, rfl, hmk.symm, by simp [hmk]⟩)
  | @internal keys children l hl hseg =>
    simp only [updateVisit, hb, Option.bind_eq_bind, Option.bind_some, newInternal] at hv
    have hne : children ≠ [] := by
      rintro rfl
      have := hseg.length_eq
      simp at this
    rw [if_neg hne] at hv
    obtain ⟨child, hchild, hv⟩ := Option.bind_eq_some_iff.mp hv
    rw [Option.some.injEq] at hv
    subst hv
    exact descendArm_spec h hm hn hb hk hchild

theorem deleteVisit_spec : VisitSpec (deleteVisit key) key (removePost key) := by
  intro t g m n s v h hm hn hk hv
  obtain ⟨b, hb, hok⟩ := h.body n s hn
  cases hok with
  | @leaf E next _ _ _ _ =>
    simp only [deleteVisit, hb, Option.bind_eq_bind, Option.bind_some, leafBody,
      newLeafWith] at hv
    rcases h.find hm hn hb hk with ⟨A, x, B, rfl, hidx, hmk, -, he⟩ | ⟨A, B, rfl, hidx, hmk, hB, -⟩
    · rw [hidx, if_pos getElem?_keys_found, getElem?_vals_found, Option.bind_some,
        leafBody_eraseIdx, Option.some.injEq] at hv
      subst hv
      exact leafArm_edit h hm hn hb hk he ⟨hmk.symm, rfl⟩
    · rw [hidx, if_neg (getElem?_keys_absent hB), Option.some.injEq] at hv
      subst hv
      have hsame : Function.update m key none = m := by rw [← hmk, Function.update_eq_self]
      exact leafArm_same h hm hn hb (Or.inr ⟨none, rfl, hmk.symm, hsame.symm⟩)
  | internal hl hseg =>
    simp only [deleteVisit, hb, Option.bind_eq_bind, Option.bind_some, newInternal] at hv
    obtain ⟨child, hchild, hv⟩ := Option.bind_eq_some_iff.mp hv
    rw [Option.some.injEq] at hv
    subst hv
    exact descendArm_spec h hm hn hb hk hchild

end Operations

end HenchDB.BTree
