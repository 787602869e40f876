import HenchDB.BTree.VisitSpec

/-!
# Specification of the fix-up visits

A fix-up visit looks at the child on the path of the removed key.  When the
child underflows, the visit borrows from a sibling or merges with it, and in
each case the entries (or separators and children) of the two neighbours are
cut anew.  The map does not change.
-/

namespace HenchDB.BTree

/-! ## Borrowing -/

section Borrow

variable {K1 K2 : List Bytes} {k : Bytes} {i : Nat} {ch : List NodeId} {pb' cb' sb' : NodeBody}

theorem getElem?_headsFor_at (hi : K1.length = i) :
    (headsFor (K1 ++ k :: K2))[i]? = some (keyHead k) := by
  rw [headsFor, List.getElem?_map, List.getElem?_at hi, Option.map_some]

theorem newInternal_set {k' : Bytes} (hi : K1.length = i) :
    NodeBody.internal ((K1 ++ k :: K2).set i k') ((headsFor (K1 ++ k :: K2)).set i (keyHead k')) ch =
      newInternal (K1 ++ k' :: K2) ch := by
  simp only [newInternal, headsFor, List.map_append, List.map_cons]
  rw [List.set_at hi, List.set_at (by simpa using hi)]

variable {Ex Ey : List (Bytes × Bytes)}

theorem borrow_right_leaf {nx ny : Option NodeId} (hi : K1.length = i)
    (h : borrow i (i + 1) (newInternal (K1 ++ k :: K2) ch) (leafBody Ex nx) (leafBody Ey ny) =
      some (pb', cb', sb')) :
    ∃ e Ey', Ey = e :: Ey' ∧ pb' = newInternal (K1 ++ e.1 :: K2) ch ∧
      cb' = leafBody (Ex ++ [e]) nx ∧ sb' = leafBody Ey' ny := by
  cases Ey with
  | nil => simp [borrow, newInternal, leafBody, newLeafWith, borrowLeafRight] at h
  | cons e Ey =>
    have hmin : min i (i + 1) = i := by omega
    simp only [borrow, newInternal, leafBody, newLeafWith, borrowLeafRight, List.map_cons,
      headsFor, if_pos (Nat.lt_succ_self i), hmin, Option.some.injEq, Prod.mk.injEq] at h
    obtain ⟨rfl, rfl, rfl⟩ := h
    refine ⟨e, Ey, rfl, newInternal_set hi, ?_, rfl⟩
    simp [leafBody, newLeafWith, headsFor]

theorem headsFor_dropLast_getLastD (K : List Bytes) :
    (headsFor K).getLastD 0 = keyHead (K.getLastD []) := by
  rcases List.eq_nil_or_concat K with rfl | ⟨K', a, rfl⟩
  · rfl
  · simp [headsFor]

theorem borrow_left_leaf {nx ny : Option NodeId} (hi : K1.length = i)
    (h : borrow (i + 1) i (newInternal (K1 ++ k :: K2) ch) (leafBody Ey ny) (leafBody Ex nx) =
      some (pb', cb', sb')) :
    ∃ Ex' e, Ex = Ex' ++ [e] ∧ pb' = newInternal (K1 ++ (Ex'.map Prod.fst).getLastD [] :: K2) ch ∧
      cb' = leafBody (e :: Ey) ny ∧ sb' = leafBody Ex' nx := by
  rcases List.eq_nil_or_concat Ex with rfl | ⟨Ex', e, rfl⟩
  · simp [borrow, newInternal, leafBody, newLeafWith, borrowLeafLeft] at h
  · have hmin : min (i + 1) i = i := by omega
    have hnot : ¬ i + 1 < i := by omega
    simp only [borrow, newInternal, leafBody, newLeafWith, borrowLeafLeft, List.concat_eq_append,
      List.map_append, List.map_cons, List.map_nil, if_neg hnot, hmin, headsFor,
      List.getLast?_concat, List.dropLast_concat, Option.some.injEq,
      Prod.mk.injEq] at h
    obtain ⟨rfl, rfl, rfl⟩ := h
    refine ⟨Ex', e, by simp, ?_, rfl, rfl⟩
    have hset : NodeBody.internal ((K1 ++ k :: K2).set i ((Ex'.map Prod.fst).getLastD []))
        ((headsFor (K1 ++ k :: K2)).set i ((headsFor (Ex'.map Prod.fst)).getLastD 0)) ch =
          newInternal (K1 ++ (Ex'.map Prod.fst).getLastD [] :: K2) ch := by
      rw [headsFor_dropLast_getLastD]
      exact newInternal_set hi
    simpa [headsFor] using hset

theorem borrow_right_internal {Kx Ky : List Bytes} {Cx Cy : List NodeId} (hi : K1.length = i)
    (h : borrow i (i + 1) (newInternal (K1 ++ k :: K2) ch) (newInternal Kx Cx)
      (newInternal Ky Cy) = some (pb', cb', sb')) :
    ∃ up Ky' mv Cy', Ky = up :: Ky' ∧ Cy = mv :: Cy' ∧
      pb' = newInternal (K1 ++ up :: K2) ch ∧ cb' = newInternal (Kx ++ [k]) (Cx ++ [mv]) ∧
      sb' = newInternal Ky' Cy' := by
  have hmin : min i (i + 1) = i := by omega
  have hk : (K1 ++ k :: K2)[i]? = some k := List.getElem?_at hi
  have hh : (headsFor (K1 ++ k :: K2))[i]? = some (keyHead k) := getElem?_headsFor_at hi
  cases Ky with
  | nil =>
    simp [borrow, newInternal, borrowInternal, hk, hh] at h
  | cons up Ky =>
    cases Cy with
    | nil => simp [borrow, newInternal, borrowInternal, hk, hh] at h
    | cons mv Cy =>
      simp only [borrow, newInternal, borrowInternal, hmin, hk, hh, Nat.lt_succ_self,
        decide_true, if_true] at h
      obtain ⟨rfl, rfl, rfl⟩ := h
      refine ⟨up, Ky, mv, Cy, rfl, rfl, newInternal_set hi, ?_, rfl⟩
      simp [newInternal, headsFor]

theorem borrow_left_internal {Kx Ky : List Bytes} {Cx Cy : List NodeId} (hi : K1.length = i)
    (h : borrow (i + 1) i (newInternal (K1 ++ k :: K2) ch) (newInternal Ky Cy)
      (newInternal Kx Cx) = some (pb', cb', sb')) :
    ∃ Kx' up Cx' mv, Kx = Kx' ++ [up] ∧ Cx = Cx' ++ [mv] ∧
      pb' = newInternal (K1 ++ up :: K2) ch ∧ cb' = newInternal (k :: Ky) (mv :: Cy) ∧
      sb' = newInternal Kx' Cx' := by
  have hmin : min (i + 1) i = i := by omega
  have hnot : ¬ i + 1 < i := by omega
  have hk : (K1 ++ k :: K2)[i]? = some k := List.getElem?_at hi
  have hh : (headsFor (K1 ++ k :: K2))[i]? = some (keyHead k) := getElem?_headsFor_at hi
  rcases List.eq_nil_or_concat Kx with rfl | ⟨Kx', up, rfl⟩
  · simp [borrow, newInternal, borrowInternal, hk, hh] at h
  · rcases List.eq_nil_or_concat Cx with rfl | ⟨Cx', mv, rfl⟩
    · simp [borrow, newInternal, borrowInternal, hk, hh] at h
    · have hdec : decide (i + 1 < i) = false := by simp
      have hheads : headsFor (Kx' ++ [up]) = headsFor Kx' ++ [keyHead up] := by simp [headsFor]
      simp only [borrow, newInternal, borrowInternal, hmin, hk, hh, hdec, Bool.false_eq_true,
        if_false, List.concat_eq_append, hheads, List.getLast?_concat, List.dropLast_concat,
        Option.some.injEq, Prod.mk.injEq] at h
      obtain ⟨rfl, rfl, rfl⟩ := h
      exact ⟨Kx', up, Cx', mv, by simp, by simp, newInternal_set hi, rfl, rfl⟩

end Borrow

/-! ## Merging -/

section Merge

variable {K1 K2 : List Bytes} {k : Bytes} {i : Nat} {D1 D2 : List NodeId} {x y : NodeId}
  {pb' cb' sb' xb yb : NodeBody}

theorem newInternal_erase (hi : K1.length = i) (hD : D1.length = i) :
    NodeBody.internal ((K1 ++ k :: K2).eraseIdx i) ((headsFor (K1 ++ k :: K2)).eraseIdx i)
      ((D1 ++ x :: y :: D2).eraseIdx (i + 1)) = newInternal (K1 ++ K2) (D1 ++ x :: D2) := by
  simp only [newInternal, headsFor, List.map_append, List.map_cons]
  rw [List.eraseIdx_at hi, List.eraseIdx_at (by simpa using hi), List.eraseIdx_at_succ hD]

theorem merge_right (hi : K1.length = i) (hD : D1.length = i)
    (h : merge i (i + 1) true (newInternal (K1 ++ k :: K2) (D1 ++ x :: y :: D2)) xb yb =
      some (pb', cb', sb')) :
    pb' = newInternal (K1 ++ K2) (D1 ++ x :: D2) ∧ fuse k (keyHead k) xb yb = some (cb', sb') := by
  have hmin : min i (i + 1) = i := by omega
  have hk : (K1 ++ k :: K2)[i]? = some k := List.getElem?_at hi
  have hh : (headsFor (K1 ++ k :: K2))[i]? = some (keyHead k) := getElem?_headsFor_at hi
  simp only [merge, newInternal, hmin, hk, hh, if_true, Option.map_eq_some_iff,
    Prod.mk.injEq] at h
  obtain ⟨⟨c, s⟩, hf, rfl, rfl, rfl⟩ := h
  exact ⟨newInternal_erase hi hD, hf⟩

theorem merge_left (hi : K1.length = i) (hD : D1.length = i)
    (h : merge (i + 1) i false (newInternal (K1 ++ k :: K2) (D1 ++ x :: y :: D2)) yb xb =
      some (pb', cb', sb')) :
    pb' = newInternal (K1 ++ K2) (D1 ++ x :: D2) ∧ fuse k (keyHead k) xb yb = some (sb', cb') := by
  have hmin : min (i + 1) i = i := by omega
  have hk : (K1 ++ k :: K2)[i]? = some k := List.getElem?_at hi
  have hh : (headsFor (K1 ++ k :: K2))[i]? = some (keyHead k) := getElem?_headsFor_at hi
  simp only [merge, newInternal, hmin, hk, hh, Bool.false_eq_true, if_false,
    Option.map_eq_some_iff, Prod.mk.injEq] at h
  obtain ⟨⟨c, s⟩, hf, rfl, rfl, rfl⟩ := h
  exact ⟨newInternal_erase hi hD, hf⟩

end Merge

/-! ## Rebalancing a pair -/

section Pair

variable {t : BTree} {g : Spans} {m : Contents} {l : Nat} {n x y : NodeId} {s : Span}
  {K1 K2 : List Bytes} {k : Bytes} {D1 D2 : List NodeId} {f : Fence} {F : List Fence}
  {xb yb xb' yb' pb' : NodeBody}

/-- Two neighbouring children with the separator `k` between them. -/
structure Neighbours (t : BTree) (g : Spans) (l : Nat) (n x y : NodeId) (s : Span)
    (K1 K2 : List Bytes) (k : Bytes) (D1 D2 : List NodeId) (f : Fence) (F : List Fence) : Prop where
  live : g n = some s
  level : s.level = l + 1
  body : t.body n = some (newInternal (K1 ++ k :: K2) (D1 ++ x :: y :: D2))
  aligned : K1.length = D1.length
  fences : fencesOf K2 s.hi = f :: F

theorem Neighbours.pairAt (h : Inv t g) (hn : Neighbours t g l n x y s K1 K2 k D1 D2 f F) :
    PairAt t g l n x y s (K1.map fence) f F D1 D2 (some (fence k)) := by
  obtain ⟨l', -, hseg⟩ := h.seg hn.live hn.body
  have hnd := (List.nodup_append.mp hseg.nodup).2.1
  refine ⟨hn.live, hn.level, ⟨_, hn.body, ?_⟩, by simp [hn.aligned], ?_, by simp⟩
  · rw [fencesOf_append, fencesOf_cons, hn.fences]
    rfl
  · rintro rfl
    simp at hnd

/-- The new bodies of two neighbours cut their region anew at `cut'`, in any
heap that is rewritten accordingly. -/
def Recut (t : BTree) (g : Spans) (m : Contents) (l : Nat) (n x y : NodeId) (s : Span)
    (K1 : List Bytes) (D1 D2 : List NodeId) (f : Fence) (xb' yb' pb' : NodeBody)
    (cut' : Option Fence) : Prop :=
  (∀ b, t.body x = some b → xb'.isLeaf = b.isLeaf) ∧
  (∀ b, t.body y = some b → yb'.isLeaf = b.isLeaf) ∧
  ∃ keys', pb' = newInternal keys' (D1 ++ (x :: second y cut' ++ D2)) ∧
    ∀ t', Rewrites t t' n x y keys' (D1 ++ (x :: second y cut' ++ D2)) →
      t'.body x = some xb' → t'.body y = some yb' →
      Inv t' (withPair g l x y ((K1.map fence).getLastD s.lo) f cut') ∧
        Holds t' (withPair g l x y ((K1.map fence).getLastD s.lo) f cut') m

theorem kindOf {z : NodeId} {b b' : NodeBody} (hb : t.body z = some b)
    (hk : b'.isLeaf = b.isLeaf) : ∀ b'', t.body z = some b'' → b'.isLeaf = b''.isLeaf := by
  intro b'' hb''
  rw [hb, Option.some.injEq] at hb''
  rw [hk, hb'']

/-- Two neighbours are both leaves or both internal nodes. -/
theorem Neighbours.bodies (h : Inv t g) (hn : Neighbours t g l n x y s K1 K2 k D1 D2 f F)
    (hx : t.body x = some xb) (hy : t.body y = some yb) :
    (l = 0 ∧ ∃ Ex Ey next, xb = leafBody Ex (some y) ∧ yb = leafBody Ey next) ∨
      ∃ l', l = l' + 1 ∧ ∃ Kx Cx Ky Cy, xb = newInternal Kx Cx ∧ yb = newInternal Ky Cy ∧
        Cx.length = Kx.length + 1 ∧ Cy.length = Ky.length + 1 := by
  obtain ⟨-, hpair, -⟩ := (hn.pairAt h).pieces h
  obtain ⟨bx, hbx, hokx⟩ := h.body x _ hpair.left
  obtain ⟨by', hby, hoky⟩ := h.body y _ hpair.right
  rw [hx, Option.some.injEq] at hbx
  rw [hy, Option.some.injEq] at hby
  subst hbx hby
  cases hokx with
  | @leaf Ex nextx h0 _ _ hnx =>
    obtain rfl : l = 0 := h0
    cases hoky with
    | @leaf Ey nexty _ _ _ _ =>
      refine Or.inl ⟨rfl, Ex, Ey, nexty, ?_, rfl⟩
      -- the leaf behind the left one starts at the cut, so it is the right one
      cases nextx with
      | none => exact absurd hnx (hpair.inside _ rfl).2.ne_top
      | some z =>
        obtain ⟨hz, hgz⟩ := hnx
        have hzp := h.proper z _ hgz
        rw [h.apart z y _ _ hgz hpair.right rfl (hpair.inside _ rfl).2 hzp]
    | internal h0' _ => simp at h0'
  | @internal Kx Cx lx hlx hsegx =>
    obtain rfl : l = lx + 1 := hlx
    cases hoky with
    | leaf h0 _ _ _ => simp at h0
    | @internal Ky Cy ly hly hsegy =>
      have h1 := hsegx.length_eq
      have h2 := hsegy.length_eq
      rw [length_fencesOf] at h1 h2
      exact Or.inr ⟨lx, rfl, Kx, Cx, Ky, Cy, rfl, rfl, h1.symm, h2.symm⟩

/-- The fences of a parent with another separator at the cut. -/
theorem fencesOf_sep {k' : Bytes} (hF : fencesOf K2 s.hi = f :: F) :
    fencesOf (K1 ++ k' :: K2) s.hi = K1.map fence ++ ((some (fence k')).toList ++ f :: F) := by
  rw [fencesOf_append, fencesOf_cons, hF]
  rfl

variable {i : Nat}

theorem Neighbours.borrowRight (h : Inv t g) (hm : Holds t g m)
    (hn : Neighbours t g l n x y s K1 K2 k D1 D2 f F) (hx : t.body x = some xb)
    (hy : t.body y = some yb) (hrich : minKeys < yb.fanout) (hi : K1.length = i)
    (hb : borrow i (i + 1) (newInternal (K1 ++ k :: K2) (D1 ++ x :: y :: D2)) xb yb = some (pb', xb', yb')) :
    ∃ c, fence k ≤ c ∧ Recut t g m l n x y s K1 D1 D2 f xb' yb' pb' (some c) := by
  obtain ⟨-, hpair, -⟩ := (hn.pairAt h).pieces h
  rcases hn.bodies h hx hy with ⟨rfl, Ex, Ey, next, rfl, rfl⟩ |
    ⟨l', rfl, Kx, Cx, Ky, Cy, rfl, rfl, hlx, hly⟩
  · obtain ⟨e, Ey', rfl, rfl, rfl, rfl⟩ := borrow_right_leaf hi hb
    have hne : Ey' ≠ [] := by
      rintro rfl
      simp [NodeBody.fanout, leafBody, newLeafWith, minKeys, maxKeys] at hrich
    have hright : g y = some ⟨fence k, f, 0⟩ := hpair.right
    refine ⟨fence e.1, ((h.leaf hright hy).2.1.inside _ (by simp)).1.le, kindOf hx rfl,
      kindOf hy rfl, _, rfl, fun t' hw hx' hy' => ?_⟩
    exact h.recutLeaves hm (hn.pairAt h) hw (fencesOf_sep hn.fences) ⟨hx, hy⟩ ⟨hx', hy'⟩
      (by simp) ⟨e.1, by simp, rfl, hne⟩
  · obtain ⟨up, Ky', mv, Cy', rfl, rfl, rfl, rfl, rfl⟩ := borrow_right_internal hi hb
    have hright : g y = some ⟨fence k, f, l' + 1⟩ := hpair.right
    obtain ⟨ly, -, hseg⟩ := h.seg hright hy
    refine ⟨fence up, ((List.pairwise_cons.mp hseg.sorted).1 _ (by simp [fencesOf])).le,
      kindOf hx rfl, kindOf hy rfl, _, rfl, fun t' hw hx' hy' => ?_⟩
    exact h.recutInternal hm (hn.pairAt h) hw (fencesOf_sep hn.fences)
      ⟨Kx, k, up :: Ky', Cx, mv :: Cy', rfl, rfl, rfl, hlx, hx, hy⟩
      ⟨Kx ++ [k], up, Ky', Cx ++ [mv], Cy', rfl, by simp, by simp, by simp [hlx], hx', hy'⟩
      ⟨_, _, hy'⟩

theorem Neighbours.borrowLeft (h : Inv t g) (hm : Holds t g m)
    (hn : Neighbours t g l n x y s K1 K2 k D1 D2 f F) (hx : t.body x = some xb)
    (hy : t.body y = some yb) (hrich : minKeys < xb.fanout) (hi : K1.length = i)
    (hb : borrow (i + 1) i (newInternal (K1 ++ k :: K2) (D1 ++ x :: y :: D2)) yb xb = some (pb', yb', xb')) :
    ∃ c ≤ fence k, Recut t g m l n x y s K1 D1 D2 f xb' yb' pb' (some c) := by
  obtain ⟨-, hpair, -⟩ := (hn.pairAt h).pieces h
  rcases hn.bodies h hx hy with ⟨rfl, Ex, Ey, next, rfl, rfl⟩ |
    ⟨l', rfl, Kx, Cx, Ky, Cy, rfl, rfl, hlx, hly⟩
  · obtain ⟨Ex', e, rfl, rfl, rfl, rfl⟩ := borrow_left_leaf hi hb
    have hne : Ex'.map Prod.fst ≠ [] := by
      intro h0
      rw [List.map_eq_nil_iff] at h0
      subst h0
      simp [NodeBody.fanout, leafBody, newLeafWith, minKeys, maxKeys] at hrich
    have hlast : (Ex'.map Prod.fst).getLast? = some ((Ex'.map Prod.fst).getLastD []) := by
      rw [List.getLastD_eq_getLast?, List.getLast?_eq_some_getLast hne, Option.getD_some]
    refine ⟨fence ((Ex'.map Prod.fst).getLastD []), ?_, kindOf hx rfl, kindOf hy rfl, _, rfl,
      fun t' hw hx' hy' => ?_⟩
    · -- the new separator is a key of the left leaf
      refine ((h.leaf hpair.left hx).2.1.inside _ ?_).2
      rw [List.map_append]
      exact List.mem_append_left _ (List.mem_of_getLast? hlast)
    · exact h.recutLeaves hm (hn.pairAt h) hw (fencesOf_sep hn.fences) ⟨hx, hy⟩ ⟨hx', hy'⟩
        (by simp) ⟨_, hlast, rfl, by simp⟩
  · obtain ⟨Kx', up, Cx', mv, rfl, rfl, rfl, rfl, rfl⟩ := borrow_left_internal hi hb
    refine ⟨fence up, ?_, kindOf hx rfl, kindOf hy rfl, _, rfl, fun t' hw hx' hy' => ?_⟩
    · obtain ⟨lx, -, hseg⟩ := h.seg hpair.left hx
      have hs := (List.pairwise_cons.mp hseg.sorted).2
      rw [fencesOf, List.pairwise_append] at hs
      exact (hs.2.2 (fence up) (by simp) _ (List.mem_singleton_self _)).le
    · exact h.recutInternal hm (hn.pairAt h) hw (fencesOf_sep hn.fences)
        ⟨Kx' ++ [up], k, Ky, Cx' ++ [mv], Cy, rfl, rfl, rfl, hlx, hx, hy⟩
        ⟨Kx', up, k :: Ky, Cx', mv :: Cy, rfl, by simp, by simp, by simpa using hlx, hx', hy'⟩
        ⟨_, _, hy'⟩

theorem Neighbours.fuse (h : Inv t g) (hm : Holds t g m)
    (hn : Neighbours t g l n x y s K1 K2 k D1 D2 f F) (hx : t.body x = some xb)
    (hy : t.body y = some yb) (hf : BTree.fuse k (keyHead k) xb yb = some (xb', yb')) :
    Recut t g m l n x y s K1 D1 D2 f xb' yb' (newInternal (K1 ++ K2) (D1 ++ x :: D2)) none := by
  have hfs : fencesOf (K1 ++ K2) s.hi = K1.map fence ++ ((none : Option Fence).toList ++ f :: F) := by
    rw [fencesOf_append, hn.fences]
    rfl
  rcases hn.bodies h hx hy with ⟨rfl, Ex, Ey, next, rfl, rfl⟩ |
    ⟨l', rfl, Kx, Cx, Ky, Cy, rfl, rfl, hlx, hly⟩
  · simp only [BTree.fuse, leafBody, newLeafWith, Option.some.injEq, Prod.mk.injEq] at hf
    obtain ⟨rfl, rfl⟩ := hf
    refine ⟨kindOf hx rfl, kindOf hy rfl, _, rfl, fun t' hw hx' hy' => ?_⟩
    have hx'' : t'.body x = some (leafBody (Ex ++ Ey) next) := by
      rw [hx']
      simp [leafBody, newLeafWith, headsFor]
    have hregion : LeafRegion t' x y (Ex ++ Ey) [] next none := ⟨hx'', rfl⟩
    exact h.recutLeaves hm (hn.pairAt h) hw hfs ⟨hx, hy⟩ hregion (by simp) trivial
  · simp only [BTree.fuse, newInternal, Option.some.injEq, Prod.mk.injEq] at hf
    obtain ⟨rfl, rfl⟩ := hf
    refine ⟨kindOf hx rfl, kindOf hy rfl, _, rfl, fun t' hw hx' hy' => ?_⟩
    have hx'' : t'.body x = some (newInternal (Kx ++ k :: Ky) (Cx ++ Cy)) := by
      rw [hx']
      simp [newInternal, headsFor]
    have hregion : InternalRegion t' x y (Kx ++ k :: Ky) (Cx ++ Cy) none := hx''
    exact h.recutInternal hm (hn.pairAt h) hw hfs
      ⟨Kx, k, Ky, Cx, Cy, rfl, rfl, rfl, hlx, hx, hy⟩ hregion ⟨[], [], hy'⟩

/-- The node that a merge evicts is no longer live. -/
def Evicts (change : Restructure) (g' : Spans) : Prop :=
  ∀ kept evicted, change = .merge kept evicted → g' evicted = none

theorem VisitOk.recut {R : Type} {v : Visit R} {cut' : Option Fence} (h : Inv t g)
    (hn : Neighbours t g l n x y s K1 K2 k D1 D2 f F)
    (hre : Recut t g m l n x y s K1 D1 D2 f xb' yb' pb' cut')
    (hlat : v.latched.Perm [n, x, y]) (hpub : (v.published.map Prod.fst).Perm [n, x, y])
    (hx : (x, xb') ∈ v.published) (hy : (y, yb') ∈ v.published) (hp : (n, pb') ∈ v.published)
    (hmx : x ∈ v.change.moved) (hmy : y ∈ v.change.moved)
    (hmoved : ∀ z ∈ v.change.moved, z = x ∨ z = y)
    (hlost : y ∉ v.change.lost → ∃ c' ∈ cut', c' ≤ fence k)
    (hshrunk : x ∉ v.change.shrunk → fence k ≤ cut'.getD f)
    (hevicts : ∀ kept evicted, v.change = .merge kept evicted → evicted = y ∧ cut' = none) :
    ∃ g', VisitOk t g v g' ∧ Holds (t.perform v) g' m ∧ Evicts v.change g' := by
  have hpa := hn.pairAt h
  obtain ⟨-, hpair, -⟩ := hpa.pieces h
  obtain ⟨hnx, hny⟩ := hpa.parent_ne h
  have hnd3 : [n, x, y].Nodup := by simp [hnx, hny, hpa.ne]
  have hnd : (v.published.map Prod.fst).Nodup := hpub.nodup_iff.mpr hnd3
  obtain ⟨hkx, hky, keys', rfl, hok⟩ := hre
  have hw : Rewrites t (t.perform v) n x y keys' (D1 ++ (x :: second y cut' ++ D2)) := by
    refine ⟨rfl, fun n' h1 h2 h3 b hb => body_perform_other (fun p hp' heq => ?_) hb,
      body_perform_published hnd hp (h.lt_length hn.live)⟩
    have hmem := hpub.mem_iff.mp (List.mem_map_of_mem (f := Prod.fst) hp')
    rw [heq] at hmem
    simp [h1, h2, h3] at hmem
  obtain ⟨hinv, hholds⟩ := hok (t.perform v) hw
    (body_perform_published hnd hx (h.lt_length hpair.left))
    (body_perform_published hnd hy (h.lt_length hpair.right))
  refine ⟨_, ⟨hinv, ?_, ?_, hlat.nodup_iff.mpr hnd3, hpub.trans hlat.symm, ?_, ?_, ?_⟩, hholds, ?_⟩
  · refine frame_withPair hpair hmx hmy (fun hl c hc => ?_) hshrunk
    cases hc
    exact hlost hl
  · intro z hz
    have hz' := hlat.mem_iff.mp hz
    simp only [List.mem_cons, List.not_mem_nil, or_false] at hz'
    rcases hz' with rfl | rfl | rfl
    · exact ⟨s, hn.live⟩
    · exact ⟨_, hpair.left⟩
    · exact ⟨_, hpair.right⟩
  · intro z hz
    refine Or.inl (hlat.mem_iff.mpr ?_)
    rcases hmoved z hz with rfl | rfl <;> simp
  · intro z hz p sp pk pc hgp hbp hmem
    refine hlat.mem_iff.mpr ?_
    by_contra hne
    rw [List.mem_cons, not_or] at hne
    obtain ⟨h1, h2⟩ := hpa.not_child h hgp hne.1 hbp hmem
    exact (hmoved z hz).elim h1 h2
  · intro p hpm b hb
    -- a node is published once, so the body is the one given
    have hbody : ∀ b', (p.1, b') ∈ v.published → p.2 = b' := fun b' hmem =>
      congrArg Prod.snd (List.inj_on_of_nodup_map hnd hpm hmem rfl)
    have hmem := hpub.mem_iff.mp (List.mem_map_of_mem (f := Prod.fst) hpm)
    simp only [List.mem_cons, List.not_mem_nil, or_false] at hmem
    rcases hmem with heq | heq | heq
    · rw [hbody _ (heq ▸ hp)]
      rw [heq, hn.body, Option.some.injEq] at hb
      rw [← hb]
      rfl
    · rw [hbody _ (heq ▸ hx)]
      exact hkx b (heq ▸ hb)
    · rw [hbody _ (heq ▸ hy)]
      exact hky b (heq ▸ hb)
  · intro kept evicted hchange
    obtain ⟨rfl, rfl⟩ := hevicts kept evicted hchange
    exact withPair_right hpa.ne

/-- `fix_child` when the child has a right sibling. -/
theorem fixChild_right {v : Visit Bool} (h : Inv t g) (hm : Holds t g m)
    (hn : Neighbours t g l n x y s K1 K2 k D1 D2 f F) (hx : t.body x = some xb) (hi : K1.length = i)
    (hv : fixChild t n (newInternal (K1 ++ k :: K2) (D1 ++ x :: y :: D2))
      (D1 ++ x :: y :: D2) i x xb = some v) :
    ∃ g' r, VisitOk t g v g' ∧ Holds (t.perform v) g' m ∧ v.outcome = .done r ∧
      Evicts v.change g' := by
  have hD : D1.length = i := hn.aligned.symm.trans hi
  have hrot : ([x, y, n] : List NodeId).Perm [n, x, y] :=
    ((List.Perm.swap n y []).cons x).trans (List.Perm.swap n x [y])
  obtain ⟨-, hpair, -⟩ := (hn.pairAt h).pieces h
  obtain ⟨yb, hy, -⟩ := h.body y _ hpair.right
  have hpick : pickSibling i (D1 ++ x :: y :: D2).length = (i + 1, true) := by
    simp only [pickSibling, List.length_append, List.length_cons]
    exact if_pos (by omega)
  simp only [fixChild, hpick, Option.bind_eq_bind, List.getElem?_at_succ hD, Option.bind_some, hy,
    if_true] at hv
  split at hv
  · next hrich =>
    obtain ⟨⟨pb', xb', yb'⟩, hb, hv⟩ := Option.bind_eq_some_iff.mp hv
    rw [Option.some.injEq] at hv
    obtain ⟨c, hle, hre⟩ := hn.borrowRight h hm hx hy hrich hi hb
    obtain ⟨g', hok, hholds, hev⟩ := VisitOk.recut (v := v) h hn hre (by rw [← hv])
      (by rw [← hv]; exact hrot)
      (by simp [← hv]) (by simp [← hv]) (by simp [← hv]) (by simp [← hv, Restructure.moved])
      (by simp [← hv, Restructure.moved]) (by simp [← hv, Restructure.moved])
      (by simp [← hv, Restructure.lost]) (fun _ => hle) (by simp [← hv])
    exact ⟨g', false, hok, hholds, by rw [← hv], hev⟩
  · obtain ⟨⟨pb', xb', yb'⟩, hb, hv⟩ := Option.bind_eq_some_iff.mp hv
    rw [Option.some.injEq] at hv
    obtain ⟨rfl, hf⟩ := merge_right hi hD hb
    obtain ⟨g', hok, hholds, hev⟩ := VisitOk.recut (v := v) h hn (hn.fuse h hm hx hy hf) (by rw [← hv])
      (by rw [← hv]; exact hrot)
      (by simp [← hv]) (by simp [← hv]) (by simp [← hv]) (by simp [← hv, Restructure.moved])
      (by simp [← hv, Restructure.moved]) (by simp [← hv, Restructure.moved])
      (by simp [← hv, Restructure.lost]) (fun _ => hpair.cut_le) (by simp [← hv])
    exact ⟨g', true, hok, hholds, by rw [← hv], hev⟩

/-- `fix_child` when the child is the last one. -/
theorem fixChild_left {v : Visit Bool} (h : Inv t g) (hm : Holds t g m)
    (hn : Neighbours t g l n x y s K1 K2 k D1 [] f F) (hy : t.body y = some yb) (hi : K1.length = i)
    (hv : fixChild t n (newInternal (K1 ++ k :: K2) (D1 ++ [x, y])) (D1 ++ [x, y]) (i + 1) y yb = some v) :
    ∃ g' r, VisitOk t g v g' ∧ Holds (t.perform v) g' m ∧ v.outcome = .done r ∧
      Evicts v.change g' := by
  have hD : D1.length = i := hn.aligned.symm.trans hi
  obtain ⟨-, hpair, -⟩ := (hn.pairAt h).pieces h
  obtain ⟨xb, hx, -⟩ := h.body x _ hpair.left
  have hpick : pickSibling (i + 1) (D1 ++ [x, y]).length = (i, false) := by
    simp only [pickSibling, List.length_append, List.length_cons, List.length_nil]
    exact if_neg (by omega)
  have hswap : ([n, y, x] : List NodeId).Perm [n, x, y] := (List.Perm.swap x y []).cons n
  have hrot : ([y, x, n] : List NodeId).Perm [n, y, x] := 
    ((List.Perm.swap n x []).cons y).trans (List.Perm.swap n y [x])
  simp only [fixChild, hpick, Option.bind_eq_bind, List.getElem?_at hD, Option.bind_some, hx,
    Bool.false_eq_true, if_false] at hv
  split at hv
  · next hrich =>
    obtain ⟨⟨pb', yb', xb'⟩, hb, hv⟩ := Option.bind_eq_some_iff.mp hv
    rw [Option.some.injEq] at hv
    obtain ⟨c, hle, hre⟩ := hn.borrowLeft h hm hx hy hrich hi hb
    obtain ⟨g', hok, hholds, hev⟩ := VisitOk.recut (v := v) h hn hre (by rw [← hv]; exact hswap)
      (by rw [← hv]; exact hrot.trans hswap)
      (by simp [← hv]) (by simp [← hv]) (by simp [← hv]) (by simp [← hv, Restructure.moved])
      (by simp [← hv, Restructure.moved]) (by simp [← hv, Restructure.moved])
      (fun _ => ⟨c, rfl, hle⟩) (by simp [← hv, Restructure.shrunk]) (by simp [← hv])
    exact ⟨g', false, hok, hholds, by rw [← hv], hev⟩
  · obtain ⟨⟨pb', yb', xb'⟩, hb, hv⟩ := Option.bind_eq_some_iff.mp hv
    rw [Option.some.injEq] at hv
    obtain ⟨rfl, hf⟩ := merge_left hi hD hb
    obtain ⟨g', hok, hholds, hev⟩ := VisitOk.recut (v := v) h hn (hn.fuse h hm hx hy hf)
      (by rw [← hv]; exact hswap)
      (by rw [← hv]; exact hrot.trans hswap)
      (by simp [← hv]) (by simp [← hv]) (by simp [← hv]) (by simp [← hv, Restructure.moved])
      (by simp [← hv, Restructure.moved]) (by simp [← hv, Restructure.moved])
      (by simp [← hv, Restructure.lost]) (fun _ => hpair.cut_le) (by simp [← hv])
    exact ⟨g', true, hok, hholds, by rw [← hv], hev⟩

end Pair

/-! ## A round of the fix-up pass -/

/-- `fix_pass` never changes the map. -/
def fixPost (m : Contents) (_ : Bool) (m' : Contents) : Prop := m' = m

/-- A round of the pass, with the node that a merge evicts. -/
theorem fixVisit_evicts {key : Bytes} {t : BTree} {g : Spans} {m : Contents} {n : NodeId} {s : Span}
    {v : Visit Bool} (h : Inv t g) (hm : Holds t g m) (hn : g n = some s) (hk : s.Covers key)
    (hv : fixVisit key t n = some v) :
    ∃ g', (VisitOk t g v g' ∧ OutcomeOk (t.perform v) g' m key s.level fixPost v.outcome) ∧
      Evicts v.change g' := by
  obtain ⟨b, hb, hok⟩ := h.body n s hn
  cases hok with
  | leaf _ _ _ _ =>
    simp only [fixVisit, hb, Option.bind_eq_bind, Option.bind_some, leafBody, newLeafWith] at hv
    cases hv
    have hquiet : ∃ r, Outcome.done false = .done r ∧ fixPost m r m := ⟨false, rfl, rfl⟩
    obtain ⟨g', hsingle, hsame⟩ := leafArm_same h hm hn hb (.inr hquiet)
    exact ⟨g', ⟨hsingle, hsame⟩, by simp [Evicts, single]⟩
  | @internal keys children l hl hseg =>
    obtain ⟨A, B, f, F, C1, c, C2, hc⟩ := exists_childAt hseg hk.1 hk.2
    obtain ⟨cb, hcb, hcok⟩ := h.body c _ hc.child
    have hlen := hseg.length_eq
    rw [length_fencesOf] at hlen
    have hidx : min (lowerBound keys (headsFor keys) key) (children.length - 1) = A.length := by
      rw [hc.index, hc.children_eq]
      have := hc.aligned
      simp only [List.length_append, List.length_cons]
      omega
    have hget : children[A.length]? = some c := by
      rw [hc.children_eq]
      exact List.getElem?_at hc.aligned.symm
    simp only [fixVisit, hb, Option.bind_eq_bind, Option.bind_some, newInternal, hidx, hget,
      hcb] at hv
    split at hv
    · cases hv
      exact ⟨g, ⟨VisitOk.single_same h hn hb, m, rfl, hm.single_same hb⟩, by simp [Evicts, single]⟩
    next hmany =>
    split at hv
    · have hfix : ∃ g' r, VisitOk t g v g' ∧ Holds (t.perform v) g' m ∧ v.outcome = .done r ∧
    Evicts v.change g' := by
        have hal := hc.aligned
        have hch := hc.children_eq
        have hks := hc.keys_eq
        have hfe := hc.fences_eq
        subst hks hch
        cases C2 with
        | cons y C2 =>
          cases B with
          | nil =>
            simp only [List.length_append, List.length_cons, List.length_nil] at hlen
            omega
          | cons k B =>
            obtain ⟨f', F', hF⟩ := exists_fencesOf B s.hi
            exact fixChild_right h hm ⟨hn, hl, hb, hal, hF⟩ hcb rfl hv
        | nil =>
          -- the child is the last one, so the last separator is before it
          obtain rfl : B = [] := by
            simp only [List.length_append, List.length_cons, List.length_nil] at hlen
            exact List.length_eq_zero_iff.mp (by omega)
          rcases List.eq_nil_or_concat C1 with rfl | ⟨D1, x, rfl⟩
          · simp at hmany
          · rcases List.eq_nil_or_concat A with rfl | ⟨K1, k, rfl⟩
            · simp at hal
            · simp only [List.concat_eq_append, List.append_nil, List.append_assoc,
                List.singleton_append, List.length_append, List.length_cons,
                List.length_nil] at hb hv hal
              exact fixChild_left h hm ⟨hn, hl, hb, by omega, rfl⟩ hcb rfl hv
      obtain ⟨g', r, hok, hholds, hout, hev⟩ := hfix
      rw [hout]
      exact ⟨g', ⟨hok, m, rfl, hholds⟩, hev⟩
    · have hnc : n ≠ c := by
        rintro rfl
        have hspan := hc.child
        rw [hn, Option.some.injEq] at hspan
        rw [hspan] at hl
        simp at hl
      have hlive : ∀ z ∈ [n, c], ∃ sz, g z = some sz := by
        intro z hz
        simp only [List.mem_cons, List.not_mem_nil, or_false] at hz
        rcases hz with rfl | rfl
        · exact ⟨s, hn⟩
        · exact ⟨_, hc.child⟩
      have hnd : [n, c].Nodup := by simp [hnc]
      cases hcok with
      | @leaf E next _ _ _ _ =>
        simp only [leafBody, newLeafWith, Option.some.injEq] at hv
        subst hv
        have hsame : ∀ p ∈ [(c, leafBody E next), (n, newInternal keys children)],
            t.body p.1 = some p.2 := by
          simpa using ⟨hcb, hb⟩
        exact ⟨g, ⟨VisitOk.unchanged h rfl rfl hsame hlive hnd (List.Perm.swap _ _ _), m, rfl,
          hm.unchanged rfl hsame⟩, by simp [Evicts]⟩
      | @internal ck cc _ _ _ =>
        simp only [newInternal, Option.some.injEq] at hv
        subst hv
        have hsame : ∀ p ∈ [(n, newInternal keys children), (c, newInternal ck cc)],
            t.body p.1 = some p.2 := by
          simpa using ⟨hb, hcb⟩
        refine ⟨g, ⟨VisitOk.unchanged h rfl rfl hsame hlive hnd (List.Perm.refl _),
          hm.unchanged rfl hsame, _, hc.child, ?_, hc.lower, hc.upper⟩, by simp [Evicts]⟩
        show l < s.level
        omega

theorem fixVisit_spec {key : Bytes} : VisitSpec (fixVisit key) key fixPost := by
  intro t g m n s v h hm hn hk hv
  obtain ⟨g', hok, -⟩ := fixVisit_evicts h hm hn hk hv
  exact ⟨g', hok⟩

end HenchDB.BTree
