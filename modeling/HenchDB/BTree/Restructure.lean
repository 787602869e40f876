import HenchDB.BTree.Span

/-!
# Restructuring keeps the invariant

Splits, borrows and merges all act on two neighbouring positions `x` and `y`
under one parent.  Together the two nodes are responsible for a region
`(a, f]`.  Either `x` covers all of it and `y` is not part of the tree, or a
cut `c` gives `(a, c]` to `x` and `(c, f]` to `y`.  A split introduces a cut, a
borrow moves it, a merge removes it, so one theorem (`Inv.replacePair`) covers
the three.  Wrapping and collapsing the root are the two remaining changes.
-/

namespace HenchDB.BTree

/-! ## Two neighbours over one region -/

/-- The spans with the region `(a, f]` at level `l` given to `x` and `y`. -/
def withPair (g : Spans) (l : Nat) (x y : NodeId) (a f : Fence) (cut : Option Fence) : Spans :=
  fun n =>
    if n = x then some ⟨a, cut.getD f, l⟩
    else if n = y then cut.map fun c => ⟨c, f, l⟩
    else g n

/-- The spans give the region `(a, f]` to `x` and `y`. -/
structure PairOk (g : Spans) (l : Nat) (x y : NodeId) (a f : Fence) (cut : Option Fence) :
    Prop where
  left : g x = some ⟨a, cut.getD f, l⟩
  right : g y = cut.map fun c => ⟨c, f, l⟩
  ne : x ≠ y
  bounds : a < f
  inside : ∀ c ∈ cut, a < c ∧ c < f

/-- The second node as a child, when it is part of the tree. -/
def second (y : NodeId) (cut : Option Fence) : List NodeId := (cut.map fun _ => y).toList

section WithPair

variable {g : Spans} {l : Nat} {x y n : NodeId} {a f : Fence} {cut : Option Fence}

@[simp] theorem withPair_left : withPair g l x y a f cut x = some ⟨a, cut.getD f, l⟩ := by
  simp [withPair]

theorem withPair_right (hne : x ≠ y) :
    withPair g l x y a f cut y = cut.map fun c => ⟨c, f, l⟩ := by
  simp [withPair, hne.symm]

theorem withPair_other (hx : n ≠ x) (hy : n ≠ y) : withPair g l x y a f cut n = g n := by
  simp [withPair, hx, hy]

/-- A node that is live afterwards is one of the two or was live before. -/
theorem withPair_cases (hne : x ≠ y) {s : Span} (h : withPair g l x y a f cut n = some s) :
    (n = x ∧ s = ⟨a, cut.getD f, l⟩) ∨ (n = y ∧ ∃ c, cut = some c ∧ s = ⟨c, f, l⟩) ∨
      (n ≠ x ∧ n ≠ y ∧ g n = some s) := by
  by_cases hnx : n = x
  · subst hnx
    rw [withPair_left, Option.some.injEq] at h
    exact Or.inl ⟨rfl, h.symm⟩
  by_cases hny : n = y
  · subst hny
    rw [withPair_right hne] at h
    obtain ⟨c, hc, hs⟩ := Option.map_eq_some_iff.mp h
    exact Or.inr (Or.inl ⟨rfl, c, hc, hs.symm⟩)
  · rw [withPair_other hnx hny] at h
    exact Or.inr (Or.inr ⟨hnx, hny, h⟩)

theorem PairOk.lo_lt_cut (h : PairOk g l x y a f cut) : a < cut.getD f := by
  cases cut with
  | none => exact h.bounds
  | some c => exact (h.inside c rfl).1

theorem PairOk.cut_le (h : PairOk g l x y a f cut) : cut.getD f ≤ f := by
  cases cut with
  | none => exact le_rfl
  | some c => exact (h.inside c rfl).2.le

/-- Away from their level the two nodes do not appear. -/
theorem PairOk.ne_of_level (h : PairOk g l x y a f cut) {s : Span} (hn : g n = some s)
    (hl : s.level ≠ l) : n ≠ x ∧ n ≠ y := by
  constructor
  · rintro rfl
    rw [h.left, Option.some.injEq] at hn
    subst hn
    exact hl rfl
  · rintro rfl
    rw [h.right] at hn
    cases cut with
    | none => cases hn
    | some c =>
      simp only [Option.map_some, Option.some.injEq] at hn
      subst hn
      exact hl rfl

/-- A segment whose nodes are all of another level does not see the pair. -/
theorem PairOk.seg_other (h : PairOk g l x y a f cut) {l' : Nat} (hl : l' ≠ l) {cut' : Option Fence}
    {lo : Fence} {fs : List Fence} {cs : List NodeId} (hseg : Seg g l' lo fs cs) :
    Seg (withPair g l x y a f cut') l' lo fs cs := by
  refine hseg.congr fun c hc => ?_
  obtain ⟨s, hs, hsl, -, -, -⟩ := hseg.mem c hc
  obtain ⟨h1, h2⟩ := h.ne_of_level hs (hsl.trans_ne hl)
  exact withPair_other h1 h2

/-- The part of a parent's segment that holds the pair. -/
theorem pairOk_of_seg {F2 : List Fence} {C2 : List NodeId}
    (h : Seg g l a (cut.toList ++ f :: F2) (x :: second y cut ++ C2)) (hnone : cut = none → g y = none)
    (hne : x ≠ y) : PairOk g l x y a f cut ∧ Seg g l f F2 C2 := by
  cases cut with
  | none => exact ⟨⟨h.1, hnone rfl, hne, h.2.1, by simp⟩, h.2.2⟩
  | some c =>
    obtain ⟨h1, h2, h3, h4, h5⟩ := h
    exact ⟨⟨h1, h3, hne, h2.trans h4, by rintro c' ⟨⟩; exact ⟨h2, h4⟩⟩, h5⟩

theorem seg_withPair {F2 : List Fence} {C2 : List NodeId} (hne : x ≠ y) (hbounds : a < f)
    (hin : ∀ c ∈ cut, a < c ∧ c < f) (h : Seg (withPair g l x y a f cut) l f F2 C2) :
    Seg (withPair g l x y a f cut) l a (cut.toList ++ f :: F2) (x :: second y cut ++ C2) := by
  cases cut with
  | none => exact ⟨withPair_left, hbounds, h⟩
  | some c =>
    obtain ⟨h1, h2⟩ := hin c rfl
    exact ⟨withPair_left, h1, withPair_right hne, h2, h⟩

end WithPair

/-! ## Apartness -/

variable {t t' : BTree} {g : Spans} {l : Nat} {x y n p : NodeId} {a f : Fence}
  {cut cut' : Option Fence} {s : Span} {E E' Ex Ey : List (Bytes × Bytes)} {k : Bytes}
  {next : Option NodeId}

/-- Giving a region to its old owners in another way keeps spans apart. -/
theorem apart_withPair (h : Inv t g) (hp : PairOk g l x y a f cut)
    (hp' : PairOk (withPair g l x y a f cut') l x y a f cut') {m : NodeId} {s' : Span}
    (hn : withPair g l x y a f cut' n = some s) (hm : withPair g l x y a f cut' m = some s')
    (hl : s.level = s'.level) (h1 : s.lo < s'.hi) (h2 : s'.lo < s.hi) : n = m := by
  -- a node that overlaps the region at its level is one of the two
  have owner : ∀ k sk, g k = some sk → sk.level = l → sk.lo < f → a < sk.hi → k = x ∨ k = y := by
    intro k sk hk hkl hk1 hk2
    cases cut with
    | none => exact Or.inl (h.apart k x _ _ hk hp.left hkl hk1 hk2)
    | some c =>
      by_cases hc : sk.lo < c
      · exact Or.inl (h.apart k x _ _ hk hp.left hkl hc hk2)
      · refine Or.inr (h.apart k y _ _ hk hp.right hkl hk1 ?_)
        exact (not_lt.mp hc).trans_lt (h.proper k sk hk)
  -- the new spans of the two lie inside the region
  have inside : ∀ k sk, (k = x ∨ k = y) → withPair g l x y a f cut' k = some sk →
      sk.level = l ∧ a ≤ sk.lo ∧ sk.hi ≤ f := by
    intro k sk hkxy hk
    rcases withPair_cases hp.ne hk with ⟨-, rfl⟩ | ⟨-, c, hc, rfl⟩ | ⟨h1, h2, -⟩
    · exact ⟨rfl, le_rfl, hp'.cut_le⟩
    · exact ⟨rfl, (hp'.inside c hc).1.le, le_rfl⟩
    · exact (hkxy.elim h1 h2).elim
  have mixed : ∀ k k' sk sk', (k = x ∨ k = y) → ¬(k' = x ∨ k' = y) →
      withPair g l x y a f cut' k = some sk → withPair g l x y a f cut' k' = some sk' →
      sk.level = sk'.level → sk.lo < sk'.hi → sk'.lo < sk.hi → False := by
    intro k k' sk sk' hk hk' hs hs' hlev ho1 ho2
    obtain ⟨i1, i2, i3⟩ := inside k sk hk hs
    rw [withPair_other (fun he => hk' (Or.inl he)) (fun he => hk' (Or.inr he))] at hs'
    exact hk' (owner k' sk' hs' (hlev.symm.trans i1) (ho2.trans_le i3) (i2.trans_lt ho1))
  rcases withPair_cases hp.ne hn with ⟨rfl, rfl⟩ | ⟨rfl, c, hc, rfl⟩ | ⟨hnx, hny, hn'⟩
  · rcases withPair_cases hp.ne hm with ⟨rfl, rfl⟩ | ⟨rfl, c, hc, rfl⟩ | ⟨hmx, hmy, -⟩
    · rfl
    · -- the left part ends where the right part starts
      rw [hc] at h2
      exact absurd h2 (lt_irrefl _)
    · exact (mixed _ m _ s' (Or.inl rfl) (by simp [hmx, hmy]) hn hm hl h1 h2).elim
  · rcases withPair_cases hp.ne hm with ⟨rfl, rfl⟩ | ⟨rfl, c', -, rfl⟩ | ⟨hmx, hmy, -⟩
    · rw [hc] at h1
      exact absurd h1 (lt_irrefl _)
    · rfl
    · exact (mixed _ m _ s' (Or.inr rfl) (by simp [hmx, hmy]) hn hm hl h1 h2).elim
  · rcases withPair_cases hp.ne hm with ⟨rfl, rfl⟩ | ⟨rfl, c, -, rfl⟩ | ⟨-, -, hm'⟩
    · exact (mixed _ n _ s (Or.inl rfl) (by simp [hnx, hny]) hm hn hl.symm h2 h1).elim
    · exact (mixed _ n _ s (Or.inr rfl) (by simp [hnx, hny]) hm hn hl.symm h2 h1).elim
    · exact h.apart n m s s' hn' hm' hl h1 h2

/-! ## Replacing a pair -/

/-- A parent with the two neighbours in the middle of its segment. -/
structure PairAt (t : BTree) (g : Spans) (l : Nat) (p x y : NodeId) (sp : Span)
    (F1 : List Fence) (f : Fence) (F2 : List Fence) (C1 C2 : List NodeId)
    (cut : Option Fence) : Prop where
  parent : g p = some sp
  level : sp.level = l + 1
  body : ∃ keys, t.body p = some (newInternal keys (C1 ++ (x :: second y cut ++ C2))) ∧
    fencesOf keys sp.hi = F1 ++ (cut.toList ++ f :: F2)
  aligned : F1.length = C1.length
  ne : x ≠ y
  dead : cut = none → g y = none

namespace PairAt

variable {t : BTree} {g : Spans} {l : Nat} {p x y : NodeId} {sp : Span} {F1 F2 : List Fence}
  {f : Fence} {C1 C2 : List NodeId} {cut : Option Fence}

/-- The three pieces of the parent's segment. -/
theorem pieces (h : Inv t g) (hp : PairAt t g l p x y sp F1 f F2 C1 C2 cut) :
    Seg g l sp.lo F1 C1 ∧ PairOk g l x y (F1.getLastD sp.lo) f cut ∧ Seg g l f F2 C2 := by
  obtain ⟨keys, hb, hfs⟩ := hp.body
  obtain ⟨l', hl', hseg⟩ := h.seg hp.parent hb
  have hl : l' = l := by have := hp.level; omega
  subst hl
  rw [hfs] at hseg
  obtain ⟨h1, h2⟩ := hseg.of_append hp.aligned
  obtain ⟨h3, h4⟩ := pairOk_of_seg h2 hp.dead hp.ne
  exact ⟨h1, h3, h4⟩

theorem parent_ne (h : Inv t g) (hp : PairAt t g l p x y sp F1 f F2 C1 C2 cut) :
    p ≠ x ∧ p ≠ y :=
  (hp.pieces h).2.1.ne_of_level hp.parent (by rw [hp.level]; omega)

/-- The outer children are none of the two. -/
theorem outer_ne (h : Inv t g) (hp : PairAt t g l p x y sp F1 f F2 C1 C2 cut) {c : NodeId}
    (hc : c ∈ C1 ∨ c ∈ C2) : c ≠ x ∧ c ≠ y := by
  obtain ⟨keys, hb, hfs⟩ := hp.body
  obtain ⟨l', -, hseg⟩ := h.seg hp.parent hb
  have hnd := hseg.nodup
  rw [List.nodup_append] at hnd
  obtain ⟨-, hnd2, hdisj⟩ := hnd
  have hx : c ≠ x := by
    rcases hc with hc | hc
    · exact hdisj c hc x (by simp)
    · rintro rfl
      exact (List.nodup_cons.mp hnd2).1 (List.mem_append_right _ hc)
  refine ⟨hx, ?_⟩
  cases hcut : cut with
  | none =>
    -- outer children are live, the second node is not
    rintro rfl
    obtain ⟨s, hs, -⟩ := hseg.mem c (by rcases hc with hc | hc <;> simp [hc])
    rw [hp.dead hcut] at hs
    cases hs
  | some c' =>
    rw [hcut] at hnd2 hdisj
    rcases hc with hc | hc
    · exact hdisj c hc y (by simp [second])
    · rintro rfl
      have hnd3 : (c :: C2).Nodup := (List.nodup_cons.mp hnd2).2
      exact (List.nodup_cons.mp hnd3).1 hc

/-- Only the parent points down to the two. -/
theorem not_child (h : Inv t g) (hp : PairAt t g l p x y sp F1 f F2 C1 C2 cut) {keys : List Bytes}
    {children : List NodeId} (hn : g n = some s) (hnp : n ≠ p)
    (hb : t.body n = some (newInternal keys children)) {c : NodeId} (hc : c ∈ children) :
    c ≠ x ∧ c ≠ y := by
  obtain ⟨pk, hpb, -⟩ := hp.body
  constructor
  · rintro rfl
    exact hnp (h.parent_unique hn hp.parent hb hpb hc (by simp))
  · rintro rfl
    cases hcut : cut with
    | none =>
      obtain ⟨l', -, hseg⟩ := h.seg hn hb
      obtain ⟨s', hs', -⟩ := hseg.mem c hc
      rw [hp.dead hcut] at hs'
      cases hs'
    | some c' =>
      exact hnp (h.parent_unique hn hp.parent hb hpb hc (by simp [hcut, second]))

/-- A leaf outside the pair keeps a good `next` pointer: it can only point to
the left node of the pair, which keeps its lower end. -/
theorem nextOk (h : Inv t g) (hp : PairAt t g l p x y sp F1 f F2 C1 C2 cut) (hn : g n = some s)
    (hl : s.level = 0) (hnx : n ≠ x) (hnext : NextOk g s.hi next) :
    NextOk (withPair g l x y (F1.getLastD sp.lo) f cut') s.hi next := by
  obtain ⟨-, hpair, -⟩ := hp.pieces h
  cases next with
  | none => exact hnext
  | some m =>
    obtain ⟨h', hm⟩ := hnext
    by_cases hmx : m = x
    · subst hmx
      rw [hpair.left, Option.some.injEq, Span.mk.injEq] at hm
      obtain ⟨ha, -, hl0⟩ := hm
      subst hl0
      exact ⟨_, by rw [withPair_left, ha]⟩
    · by_cases hmy : m = y
      · -- the left neighbour of the right node is the left node
        subst hmy
        rw [hpair.right] at hm
        cases cut with
        | none => cases hm
        | some c =>
          simp only [Option.map_some, Option.some.injEq, Span.mk.injEq] at hm
          obtain ⟨hc, -, hl0⟩ := hm
          exact absurd (h.leaf_unique_hi hn hpair.left (hl.trans hl0.symm) hc.symm) hnx
      · exact ⟨h', by rw [withPair_other hmx hmy]; exact hm⟩

end PairAt

/-- Rewriting the two neighbours and the separator between them keeps the
invariant, whichever of the three restructurings it is. -/
theorem Inv.replacePair {sp : Span} {F1 F2 : List Fence} {C1 C2 : List NodeId} {keys' : List Bytes}
    (h : Inv t g) (hp : PairAt t g l p x y sp F1 f F2 C1 C2 cut) (hroot : t'.root = t.root)
    (hframe : ∀ n, n ≠ p → n ≠ x → n ≠ y → ∀ b, t.body n = some b → t'.body n = some b)
    (hpb : t'.body p = some (newInternal keys' (C1 ++ (x :: second y cut' ++ C2))))
    (hfs : fencesOf keys' sp.hi = F1 ++ (cut'.toList ++ f :: F2))
    (hin : ∀ c ∈ cut', F1.getLastD sp.lo < c ∧ c < f)
    (hx : ∃ b, t'.body x = some b ∧
      BodyOk (withPair g l x y (F1.getLastD sp.lo) f cut') ⟨F1.getLastD sp.lo, cut'.getD f, l⟩ b)
    (hy : ∀ c, cut' = some c → ∃ b, t'.body y = some b ∧
      BodyOk (withPair g l x y (F1.getLastD sp.lo) f cut') ⟨c, f, l⟩ b) :
    Inv t' (withPair g l x y (F1.getLastD sp.lo) f cut') := by
  obtain ⟨hleft, hpair, hright⟩ := hp.pieces h
  obtain ⟨hpx, hpy⟩ := hp.parent_ne h
  have hpair' : PairOk (withPair g l x y (F1.getLastD sp.lo) f cut') l x y
      (F1.getLastD sp.lo) f cut' :=
    ⟨withPair_left, withPair_right hp.ne, hp.ne, hpair.bounds, hin⟩
  have hgp : withPair g l x y (F1.getLastD sp.lo) f cut' p = some sp :=
    (withPair_other hpx hpy).trans hp.parent
  refine ⟨?_, ?_, ?_, ?_⟩
  · -- the root is above the pair
    obtain ⟨lr, hr, htop⟩ := h.root
    have hlr : l + 1 ≤ lr := hp.level ▸ htop p sp hp.parent
    obtain ⟨hrx, hry⟩ := hpair.ne_of_level hr (show lr ≠ l by omega)
    refine ⟨lr, by rw [hroot, withPair_other hrx hry]; exact hr, fun n s hn => ?_⟩
    rcases withPair_cases hp.ne hn with ⟨-, rfl⟩ | ⟨-, c, -, rfl⟩ | ⟨-, -, hn'⟩
    · exact show l ≤ lr by omega
    · exact show l ≤ lr by omega
    · exact htop n s hn'
  · intro n s hn
    rcases withPair_cases hp.ne hn with ⟨rfl, rfl⟩ | ⟨rfl, c, hc, rfl⟩ | ⟨hnx, hny, hn'⟩
    · exact hx
    · exact hy c hc
    by_cases hnp : n = p
    · subst hnp
      rw [hgp, Option.some.injEq] at hn
      subst hn
      refine ⟨_, hpb, .internal hp.level ?_⟩
      rw [hfs]
      refine (hleft.congr fun c hc => ?_).append (seg_withPair hp.ne hpair.bounds hin
        (hright.congr fun c hc => ?_))
      · obtain ⟨h1, h2⟩ := hp.outer_ne h (Or.inl hc)
        exact withPair_other h1 h2
      · obtain ⟨h1, h2⟩ := hp.outer_ne h (Or.inr hc)
        exact withPair_other h1 h2
    · obtain ⟨b, hb, hok⟩ := h.body n s hn'
      refine ⟨b, hframe n hnp hnx hny b hb, ?_⟩
      cases hok with
      | leaf h0 hsorted hcov hnext => exact .leaf h0 hsorted hcov (hp.nextOk h hn' h0 hnx hnext)
      | internal hl hseg =>
        refine .internal hl (hseg.congr fun c hc => ?_)
        obtain ⟨h1, h2⟩ := hp.not_child h hn' hnp hb hc
        exact withPair_other h1 h2
  · intro n s hn
    rcases withPair_cases hp.ne hn with ⟨-, rfl⟩ | ⟨-, c, hc, rfl⟩ | ⟨-, -, hn'⟩
    · exact hpair'.lo_lt_cut
    · exact (hin c hc).2
    · exact h.proper n s hn'
  · intro n m s s' hn hm hl h1 h2
    exact apart_withPair h hpair hpair' hn hm hl h1 h2

/-! ## The stored map -/

theorem lookup_eq_none_of_forall_ne (h : ∀ k' ∈ E.map Prod.fst, k ≠ k') : E.lookup k = none := by
  rw [List.lookup_eq_none_iff]
  intro e he
  simpa using h e.1 (List.mem_map_of_mem he)

/-- Looking up in two runs of entries that a fence separates. -/
theorem lookup_append_of_le {c : Fence} (h : ∀ k' ∈ E'.map Prod.fst, c < fence k')
    (hk : fence k ≤ c) :
    (E ++ E').lookup k = E.lookup k := by
  have hnone : E'.lookup k = none := by
    refine lookup_eq_none_of_forall_ne fun k' hk' heq => ?_
    exact absurd (hk.trans_lt (h k' hk')) (by rw [heq]; exact lt_irrefl _)
  rw [List.lookup_append, hnone, Option.or_none]

theorem lookup_append_of_lt {c : Fence} (h : ∀ k' ∈ E.map Prod.fst, fence k' ≤ c) (hk : c < fence k) :
    (E ++ E').lookup k = E'.lookup k := by
  have hnone : E.lookup k = none := by
    refine lookup_eq_none_of_forall_ne fun k' hk' heq => ?_
    exact absurd (hk.trans_le (heq ▸ h k' hk')) (lt_irrefl _)
  rw [List.lookup_append, hnone, Option.none_or]

/-- The entries of a leaf lie in the span the invariant gives it. -/
theorem Inv.covers (h : Inv t g) (hn : g n = some s) (hb : t.body n = some (leafBody E next)) :
    ∀ k ∈ E.map Prod.fst, s.Covers k := by
  obtain ⟨b, hb', hok⟩ := h.body n s hn
  rw [hb, Option.some.injEq] at hb'
  subst hb'
  exact hok.leaf_inv.2.2.1

/-- The region's leaves hold the entries `Ex` and `Ey` in a row and lead to
`next`; `Ey` is empty when `y` is not part of the tree. -/
def LeafRegion (t : BTree) (x y : NodeId) (Ex Ey : List (Bytes × Bytes)) (next : Option NodeId) :
    Option Fence → Prop
  | none => t.body x = some (leafBody Ex next) ∧ Ey = []
  | some _ => t.body x = some (leafBody Ex (some y)) ∧ t.body y = some (leafBody Ey next)

theorem leafBody_inj {next' : Option NodeId} (h : leafBody E next = leafBody E' next') :
    E = E' ∧ next = next' := by
  simp only [leafBody, newLeafWith, NodeBody.leaf.injEq] at h
  refine ⟨?_, h.2.2.2⟩
  have hz := congrArg₂ List.zip h.1 h.2.2.1
  simpa only [List.zip_map', List.map_id'] using hz

/-- The two leaves together answer for the whole region. -/
theorem lookup_leafRegion {nxt : Option NodeId} (h : Inv t g) (hp : PairOk g l x y a f cut)
    (hE : LeafRegion t x y Ex Ey nxt cut) (hxy : n = x ∨ n = y) (hn : g n = some s)
    (hb : t.body n = some (leafBody E next)) (hk : s.Covers k) :
    E.lookup k = (Ex ++ Ey).lookup k := by
  cases cut with
  | none =>
    obtain ⟨hx, rfl⟩ := hE
    rcases hxy with rfl | rfl
    · rw [hx, Option.some.injEq] at hb
      rw [(leafBody_inj hb).1, List.append_nil]
    · rw [hp.right] at hn
      cases hn
  | some c =>
    obtain ⟨hx, hy⟩ := hE
    rcases hxy with rfl | rfl
    · rw [hx, Option.some.injEq] at hb
      rw [hp.left, Option.some.injEq] at hn
      subst hn
      rw [(leafBody_inj hb).1,
        lookup_append_of_le (c := c) (fun k' hk' => (h.covers hp.right hy k' hk').1) hk.2]
    · rw [hy, Option.some.injEq] at hb
      rw [hp.right, Option.map_some, Option.some.injEq] at hn
      subst hn
      rw [(leafBody_inj hb).1,
        lookup_append_of_lt (c := c) (fun k' hk' => (h.covers hp.left hx k' hk').2) hk.1]

/-- Every key of the region is covered by one of the two. -/
theorem PairOk.covered (h : PairOk g l x y a f cut) (h1 : a < fence k) (h2 : fence k ≤ f) :
    ∃ n s, (n = x ∨ n = y) ∧ g n = some s ∧ s.Covers k := by
  cases cut with
  | none => exact ⟨x, _, Or.inl rfl, h.left, h1, h2⟩
  | some c =>
    by_cases hc : fence k ≤ c
    · exact ⟨x, _, Or.inl rfl, h.left, h1, hc⟩
    · exact ⟨y, _, Or.inr rfl, h.right, not_le.mp hc, h2⟩

/-- Moving entries between the two leaves does not change the map. -/
theorem Holds.replacePair_leaf {sp : Span} {F1 F2 : List Fence} {C1 C2 : List NodeId}
    {Ex' Ey' : List (Bytes × Bytes)} {next' : Option NodeId} {keys' : List Bytes}
    {cs' : List NodeId} {m : Contents} (h : Inv t g) (hm : Holds t g m)
    (hp : PairAt t g l p x y sp F1 f F2 C1 C2 cut)
    (h' : Inv t' (withPair g l x y (F1.getLastD sp.lo) f cut'))
    (hframe : ∀ n, n ≠ p → n ≠ x → n ≠ y → ∀ b, t.body n = some b → t'.body n = some b)
    (hpb : t'.body p = some (newInternal keys' cs'))
    (hin : ∀ c ∈ cut', F1.getLastD sp.lo < c ∧ c < f) (hE : LeafRegion t x y Ex Ey next cut)
    (hE' : LeafRegion t' x y Ex' Ey' next' cut') (heq : Ex' ++ Ey' = Ex ++ Ey) :
    Holds t' (withPair g l x y (F1.getLastD sp.lo) f cut') m := by
  obtain ⟨-, hpair, -⟩ := hp.pieces h
  have hpair' : PairOk (withPair g l x y (F1.getLastD sp.lo) f cut') l x y
      (F1.getLastD sp.lo) f cut' :=
    ⟨withPair_left, withPair_right hp.ne, hp.ne, hpair.bounds, hin⟩
  intro n s E nxt hn hb k hk
  by_cases hxy : n = x ∨ n = y
  · rw [lookup_leafRegion h' hpair' hE' hxy hn hb hk, heq]
    -- the old owner of the key gives its value
    have hreg : F1.getLastD sp.lo < fence k ∧ fence k ≤ f := by
      rcases withPair_cases hp.ne hn with ⟨-, rfl⟩ | ⟨-, c, hc, rfl⟩ | ⟨h1, h2, -⟩
      · exact ⟨hk.1, hk.2.trans hpair'.cut_le⟩
      · exact ⟨(hin c hc).1.trans hk.1, hk.2⟩
      · exact (hxy.elim h1 h2).elim
    obtain ⟨o, so, ho, hgo, hko⟩ := hpair.covered hreg.1 hreg.2
    obtain ⟨Eo, no, hbo⟩ : ∃ Eo no, t.body o = some (leafBody Eo no) := by
      cases cut with
      | none =>
        rcases ho with rfl | rfl
        · exact ⟨Ex, _, hE.1⟩
        · rw [hpair.right] at hgo
          cases hgo
      | some c =>
        rcases ho with rfl | rfl
        · exact ⟨Ex, _, hE.1⟩
        · exact ⟨Ey, _, hE.2⟩
    rw [← lookup_leafRegion h hpair hE ho hgo hbo hko]
    exact hm o so Eo no hgo hbo k hko
  · rw [not_or] at hxy
    rw [withPair_other hxy.1 hxy.2] at hn
    obtain ⟨b, hb', -⟩ := h.body n s hn
    by_cases hnp : n = p
    · subst hnp
      rw [hpb] at hb
      simp [newInternal, leafBody, newLeafWith] at hb
    · rw [hframe n hnp hxy.1 hxy.2 b hb', Option.some.injEq] at hb
      exact hm n s E nxt hn (hb ▸ hb') k hk

/-- Restructuring internal nodes does not touch the map. -/
theorem Holds.replacePair_internal {m : Contents} (h : Inv t g) (hm : Holds t g m)
    (hframe : ∀ n, n ≠ p → n ≠ x → n ≠ y → ∀ b, t.body n = some b → t'.body n = some b)
    (hinternal : ∀ n, n = p ∨ n = x ∨ n = y → ∃ keys cs, t'.body n = some (newInternal keys cs)) :
    Holds t' (withPair g l x y a f cut') m := by
  intro n s E next hn hb k hk
  by_cases hpxy : n = p ∨ n = x ∨ n = y
  · obtain ⟨keys, cs, hb'⟩ := hinternal n hpxy
    rw [hb'] at hb
    simp [newInternal, leafBody, newLeafWith] at hb
  · simp only [not_or] at hpxy
    obtain ⟨hnp, hnx, hny⟩ := hpxy
    rw [withPair_other hnx hny] at hn
    obtain ⟨b, hb', -⟩ := h.body n s hn
    rw [hframe n hnp hnx hny b hb', Option.some.injEq] at hb
    exact hm n s E next hn (hb ▸ hb') k hk

end HenchDB.BTree
