import HenchDB.BTree.Locate

/-!
# Splits, borrows and merges of leaves and of internal nodes

A restructuring never invents anything: the entries of two neighbouring
leaves, or the separators and children of two neighbouring internal nodes,
are written in a row and cut at another place.  `Inv.recutLeaves` and
`Inv.recutInternal` say so once for every place of the cut.
-/

namespace HenchDB.BTree

/-- The heap differs from `t` only at `p`, `x` and `y`, and `p` is rewritten
as given. -/
structure Rewrites (t t' : BTree) (p x y : NodeId) (keys : List Bytes)
    (children : List NodeId) : Prop where
  root : t'.root = t.root
  frame : ∀ n, n ≠ p → n ≠ x → n ≠ y → ∀ b, t.body n = some b → t'.body n = some b
  parent : t'.body p = some (newInternal keys children)

/-! ## Leaves -/

/-- Entries in order, inside `(a, f]`. -/
structure EntriesIn (a f : Fence) (E : List (Bytes × Bytes)) : Prop where
  sorted : (E.map Prod.fst).Pairwise (· < ·)
  inside : ∀ k ∈ E.map Prod.fst, a < fence k ∧ fence k ≤ f

theorem EntriesIn.append {a c f : Fence} {E E' : List (Bytes × Bytes)} (h : EntriesIn a c E)
    (h' : EntriesIn c f E') (hac : a ≤ c) (hcf : c ≤ f) : EntriesIn a f (E ++ E') := by
  refine ⟨?_, fun k hk => ?_⟩
  · rw [List.map_append, List.pairwise_append]
    refine ⟨h.sorted, h'.sorted, fun k hk k' hk' => ?_⟩
    exact fence_lt_fence.mp ((h.inside k hk).2.trans_lt (h'.inside k' hk').1)
  · rw [List.map_append, List.mem_append] at hk
    rcases hk with hk | hk
    · exact ⟨(h.inside k hk).1, (h.inside k hk).2.trans hcf⟩
    · exact ⟨hac.trans_lt (h'.inside k hk).1, (h'.inside k hk).2⟩

/-- A cut of entries behind the last key of a nonempty left part. -/
def CutAt (E E' : List (Bytes × Bytes)) : Option Fence → Prop
  | none => True
  | some c => ∃ k, (E.map Prod.fst).getLast? = some k ∧ c = fence k ∧ E' ≠ []

/-- Cutting entries at a key gives two runs of entries and a proper cut. -/
theorem EntriesIn.cut {a c f : Fence} {E E' : List (Bytes × Bytes)} (h : EntriesIn a f (E ++ E'))
    (hc : CutAt E E' (some c)) : EntriesIn a c E ∧ EntriesIn c f E' ∧ a < c ∧ c < f := by
  obtain ⟨k, hk, rfl, hne⟩ := hc
  obtain ⟨hs, hi⟩ := h
  rw [List.map_append, List.pairwise_append] at hs
  obtain ⟨hs1, hs2, hs3⟩ := hs
  rw [List.map_append] at hi
  obtain ⟨K, hK⟩ : ∃ K, E.map Prod.fst = K ++ [k] := List.getLast?_eq_some_iff.mp hk
  have hkmem : k ∈ E.map Prod.fst := by rw [hK]; simp
  have hle : ∀ k' ∈ E.map Prod.fst, k' ≤ k := by
    intro k' hk'
    rw [hK] at hk' hs1
    rw [List.pairwise_append] at hs1
    rcases List.mem_append.mp hk' with hmem | hmem
    · exact (hs1.2.2 k' hmem k (List.mem_singleton_self k)).le
    · exact (List.mem_singleton.mp hmem).le
  obtain ⟨e, E'', rfl⟩ := List.exists_cons_of_ne_nil hne
  have he : e.1 ∈ (e :: E'').map Prod.fst := by simp
  refine ⟨⟨hs1, fun k' hk' => ?_⟩, ⟨hs2, fun k' hk' => ?_⟩, ?_, ?_⟩
  · exact ⟨(hi k' (List.mem_append_left _ hk')).1, fence_le_fence.mpr (hle k' hk')⟩
  · exact ⟨fence_lt_fence.mpr (hs3 k hkmem k' hk'), (hi k' (List.mem_append_right _ hk')).2⟩
  · exact (hi k (List.mem_append_left _ hkmem)).1
  · exact (fence_lt_fence.mpr (hs3 k hkmem e.1 he)).trans_le (hi e.1 (List.mem_append_right _ he)).2

section Leaves

variable {t t' : BTree} {g : Spans} {p x y : NodeId} {sp : Span} {F1 F2 : List Fence} {f : Fence}
  {C1 C2 : List NodeId} {cut cut' : Option Fence} {Ex Ey Ex' Ey' : List (Bytes × Bytes)}
  {next : Option NodeId} {keys' : List Bytes} {m : Contents}

/-- The leaf of a live node as the invariant describes it. -/
theorem Inv.leaf (h : Inv t g) {n : NodeId} {s : Span} {E : List (Bytes × Bytes)}
    {next : Option NodeId} (hn : g n = some s) (hb : t.body n = some (leafBody E next)) :
    s.level = 0 ∧ EntriesIn s.lo s.hi E ∧ NextOk g s.hi next := by
  obtain ⟨b, hb', hok⟩ := h.body n s hn
  rw [hb, Option.some.injEq] at hb'
  subst hb'
  obtain ⟨h1, h2, h3, h4⟩ := hok.leaf_inv
  exact ⟨h1, ⟨h2, h3⟩, h4⟩

/-- The leaves of a region hold one run of entries over all of it. -/
theorem Inv.region (h : Inv t g) {a : Fence} (hp : PairOk g 0 x y a f cut)
    (hE : LeafRegion t x y Ex Ey next cut) : EntriesIn a f (Ex ++ Ey) ∧ NextOk g f next := by
  cases cut with
  | none =>
    obtain ⟨hx, rfl⟩ := hE
    obtain ⟨-, h1, h2⟩ := h.leaf hp.left hx
    rw [List.append_nil]
    exact ⟨h1, h2⟩
  | some c =>
    obtain ⟨-, h1, -⟩ := h.leaf hp.left hE.1
    obtain ⟨-, h2, h3⟩ := h.leaf hp.right hE.2
    exact ⟨h1.append h2 (hp.inside c rfl).1.le (hp.inside c rfl).2.le, h3⟩

/-- The leaf behind a region is none of the two. -/
theorem NextOk.withPair {a : Fence} (hp : PairOk g 0 x y a f cut) (hn : NextOk g f next) :
    NextOk (withPair g 0 x y a f cut') f next := by
  cases next with
  | none => exact hn
  | some n =>
    obtain ⟨h', hn⟩ := hn
    refine ⟨h', (withPair_other ?_ ?_).trans hn⟩
    · rintro rfl
      rw [hp.left, Option.some.injEq, Span.mk.injEq] at hn
      exact hp.bounds.ne hn.1
    · rintro rfl
      rw [hp.right, Option.map_eq_some_iff] at hn
      obtain ⟨c, hc, heq⟩ := hn
      rw [Span.mk.injEq] at heq
      exact (hp.inside c hc).2.ne heq.1

/-- Cutting the entries of two neighbouring leaves anew keeps the invariant
and the stored map. -/
theorem Inv.recutLeaves (h : Inv t g) (hm : Holds t g m)
    (hp : PairAt t g 0 p x y sp F1 f F2 C1 C2 cut)
    (hw : Rewrites t t' p x y keys' (C1 ++ (x :: second y cut' ++ C2)))
    (hfs : fencesOf keys' sp.hi = F1 ++ (cut'.toList ++ f :: F2))
    (hE : LeafRegion t x y Ex Ey next cut) (hE' : LeafRegion t' x y Ex' Ey' next cut')
    (heq : Ex' ++ Ey' = Ex ++ Ey) (hcut : CutAt Ex' Ey' cut') :
    Inv t' (withPair g 0 x y (F1.getLastD sp.lo) f cut') ∧
      Holds t' (withPair g 0 x y (F1.getLastD sp.lo) f cut') m := by
  obtain ⟨-, hpair, -⟩ := hp.pieces h
  obtain ⟨hall, hnext⟩ := h.region hpair hE
  rw [← heq] at hall
  have hin : ∀ c ∈ cut', F1.getLastD sp.lo < c ∧ c < f := by
    rintro c hc
    rw [Option.mem_def] at hc
    subst hc
    exact (hall.cut hcut).2.2
  have hinv : Inv t' (BTree.withPair g 0 x y (F1.getLastD sp.lo) f cut') := by
    refine h.replacePair hp hw.root hw.frame hw.parent hfs hin ?_ ?_
    · cases cut' with
      | none =>
        obtain ⟨hx, rfl⟩ := hE'
        rw [List.append_nil] at hall
        exact ⟨_, hx, .leaf rfl hall.sorted hall.inside (hnext.withPair hpair)⟩
      | some c =>
        obtain ⟨h1, -, -⟩ := hall.cut hcut
        exact ⟨_, hE'.1, .leaf rfl h1.sorted h1.inside ⟨f, withPair_right hp.ne⟩⟩
    · rintro c rfl
      obtain ⟨-, h2, -⟩ := hall.cut hcut
      exact ⟨_, hE'.2, .leaf rfl h2.sorted h2.inside (hnext.withPair hpair)⟩
  exact ⟨hinv, hm.replacePair_leaf h hp hinv hw.frame hw.parent hin hE hE' heq⟩

end Leaves

/-! ## Internal nodes -/

/-- The region's internal nodes hold the separators `K` and children `C` in a
row; the separator at the cut is the parent's. -/
def InternalRegion (t : BTree) (x y : NodeId) (K : List Bytes) (C : List NodeId) :
    Option Fence → Prop
  | none => t.body x = some (newInternal K C)
  | some c => ∃ Kx k Ky Cx Cy, c = fence k ∧ K = Kx ++ k :: Ky ∧ C = Cx ++ Cy ∧
      Cx.length = Kx.length + 1 ∧ t.body x = some (newInternal Kx Cx) ∧
      t.body y = some (newInternal Ky Cy)

theorem fencesOf_cut {Kx Ky : List Bytes} {k : Bytes} {f : Fence} :
    fencesOf (Kx ++ k :: Ky) f = fencesOf Kx (fence k) ++ fencesOf Ky f := by
  simp [fencesOf]

@[simp] theorem getLastD_fencesOf (K : List Bytes) (f lo : Fence) :
    (fencesOf K f).getLastD lo = f := by simp [fencesOf]

section Internal

variable {t t' : BTree} {g : Spans} {l : Nat} {p x y : NodeId} {sp : Span} {F1 F2 : List Fence}
  {f : Fence} {C1 C2 : List NodeId} {cut cut' : Option Fence} {K keys' : List Bytes}
  {C : List NodeId} {m : Contents}

/-- The internal nodes of a region hold one segment over all of it. -/
theorem Inv.regionSeg (h : Inv t g) {a : Fence} (hp : PairOk g (l + 1) x y a f cut)
    (hK : InternalRegion t x y K C cut) : Seg g l a (fencesOf K f) C := by
  cases cut with
  | none =>
    obtain ⟨l', hl', hseg⟩ := h.seg hp.left hK
    obtain rfl : l' = l := (Nat.succ.inj hl').symm
    exact hseg
  | some c =>
    obtain ⟨Kx, k, Ky, Cx, Cy, rfl, rfl, rfl, -, hx, hy⟩ := hK
    obtain ⟨lx, hlx, hsegx⟩ := h.seg hp.left hx
    obtain ⟨ly, hly, hsegy⟩ := h.seg hp.right hy
    obtain rfl : lx = l := (Nat.succ.inj hlx).symm
    obtain rfl : ly = lx := (Nat.succ.inj hly).symm
    rw [fencesOf_cut]
    refine hsegx.append ?_
    rw [getLastD_fencesOf]
    exact hsegy

/-- Cutting the separators and children of two neighbouring internal nodes
anew keeps the invariant and the stored map. -/
theorem Inv.recutInternal (h : Inv t g) (hm : Holds t g m)
    (hp : PairAt t g (l + 1) p x y sp F1 f F2 C1 C2 cut)
    (hw : Rewrites t t' p x y keys' (C1 ++ (x :: second y cut' ++ C2)))
    (hfs : fencesOf keys' sp.hi = F1 ++ (cut'.toList ++ f :: F2))
    (hK : InternalRegion t x y K C cut) (hK' : InternalRegion t' x y K C cut')
    (hy' : ∃ keys cs, t'.body y = some (newInternal keys cs)) :
    Inv t' (withPair g (l + 1) x y (F1.getLastD sp.lo) f cut') ∧
      Holds t' (withPair g (l + 1) x y (F1.getLastD sp.lo) f cut') m := by
  obtain ⟨-, hpair, -⟩ := hp.pieces h
  have hseg := h.regionSeg hpair hK
  -- the two halves of the segment at a new cut
  have halves : ∀ c, cut' = some c → ∃ Kx Ky Cx Cy, t'.body x = some (newInternal Kx Cx) ∧
      t'.body y = some (newInternal Ky Cy) ∧
      Seg g l (F1.getLastD sp.lo) (fencesOf Kx c) Cx ∧ Seg g l c (fencesOf Ky f) Cy := by
    rintro c rfl
    obtain ⟨Kx, k, Ky, Cx, Cy, rfl, rfl, rfl, hlen, hx, hy⟩ := hK'
    rw [fencesOf_cut] at hseg
    obtain ⟨h1, h2⟩ := hseg.of_append (by rw [length_fencesOf, hlen])
    rw [getLastD_fencesOf] at h2
    exact ⟨Kx, Ky, Cx, Cy, hx, hy, h1, h2⟩
  have hin : ∀ c ∈ cut', F1.getLastD sp.lo < c ∧ c < f := by
    intro c hc
    obtain ⟨Kx, Ky, Cx, Cy, -, -, h1, h2⟩ := halves c hc
    refine ⟨?_, ?_⟩
    · exact (List.pairwise_cons.mp h1.sorted).1 c (by simp [fencesOf])
    · exact (List.pairwise_cons.mp h2.sorted).1 f (by simp [fencesOf])
  have hlow : ∀ {lo fs cs}, Seg g l lo fs cs →
      Seg (withPair g (l + 1) x y (F1.getLastD sp.lo) f cut') l lo fs cs :=
    fun hs => hpair.seg_other (Nat.ne_of_lt (Nat.lt_succ_self l)) hs
  refine ⟨h.replacePair hp hw.root hw.frame hw.parent hfs hin ?_ ?_,
    hm.replacePair_internal h hw.frame ?_⟩
  · cases cut' with
    | none => exact ⟨_, hK', .internal rfl (hlow hseg)⟩
    | some c =>
      obtain ⟨Kx, Ky, Cx, Cy, hx, -, h1, -⟩ := halves c rfl
      exact ⟨_, hx, .internal rfl (hlow h1)⟩
  · rintro c hc
    obtain ⟨Kx, Ky, Cx, Cy, -, hy, -, h2⟩ := halves c hc
    exact ⟨_, hy, .internal rfl (hlow h2)⟩
  · rintro n (rfl | rfl | rfl)
    · exact ⟨_, _, hw.parent⟩
    · cases cut' with
      | none => exact ⟨_, _, hK'⟩
      | some c =>
        obtain ⟨Kx, Ky, Cx, Cy, hx, -⟩ := halves c rfl
        exact ⟨_, _, hx⟩
    · exact hy'

end Internal

end HenchDB.BTree
