import HenchDB.BTree.Root

/-!
# Sizes of nodes

Every node but the root holds at least `minKeys` keys or children, and no leaf
holds more than `maxKeys` keys.  A removal breaks this at the leaf of its key,
and a merge moves the shortage to the parent, so the invariant `Sized` names
one node that may be short by one.  The short node always lies on the path of
the removed key, where the next fix-up pass finds it.
-/

namespace HenchDB.BTree

/-! ## The invariant -/

def short (d : Option NodeId) (n : NodeId) : Nat := if d = some n then 1 else 0

/-- The least number of keys or children.  Nothing is asked of a root leaf, and
an internal root has two children. -/
def least (root n : NodeId) (b : NodeBody) : Nat :=
  if n = root then (if b.isLeaf then 0 else 2) else minKeys

/-- The size of a body is right for its node, up to the short node `d`. -/
structure SizeOk (root : NodeId) (d : Option NodeId) (n : NodeId) (b : NodeBody) : Prop where
  low : least root n b ≤ b.fanout + short d n
  high : b.isLeaf = true → b.fanout ≤ maxKeys

/-- The sizes of all live nodes are right, up to the short node `d`. -/
def Sized (t : BTree) (g : Spans) (d : Option NodeId) : Prop :=
  ∀ n s b, g n = some s → t.body n = some b → SizeOk t.root d n b

def Covering (g : Spans) (key : Bytes) (d : Option NodeId) : Prop :=
  ∀ z, d = some z → ∃ s, g z = some s ∧ s.Covers key

def Bounded (b : NodeBody) : Prop :=
  minKeys ≤ b.fanout ∧ (b.isLeaf = true → b.fanout ≤ maxKeys)

@[simp] theorem short_none (n : NodeId) : short none n = 0 := rfl

@[simp] theorem short_self (n : NodeId) : short (some n) n = 1 := by simp [short]

variable {d : Option NodeId} {n : NodeId} {b : NodeBody} {t : BTree} {g : Spans} {s : Span}

theorem short_of_ne (h : d ≠ some n) : short d n = 0 := by
  simp [short, h]

theorem short_le_one (d : Option NodeId) (n : NodeId) : short d n ≤ 1 := by
  unfold short
  split <;> omega

theorem least_le (root n : NodeId) (b : NodeBody) : least root n b ≤ minKeys := by
  unfold least minKeys maxKeys
  split
  · split <;> omega
  · omega

theorem Bounded.sizeOk (h : Bounded b) (root : NodeId) (d : Option NodeId) (n : NodeId) :
    SizeOk root d n b :=
  ⟨(least_le root n b).trans (h.1.trans (Nat.le_add_right ..)), h.2⟩

/-- Away from the root a node is bounded unless it is the short one. -/
theorem SizeOk.bounded {root : NodeId} (h : SizeOk root d n b) (hn : n ≠ root) (hd : d ≠ some n) :
    Bounded b := by
  have hlow := h.low
  rw [least, if_neg hn, short_of_ne hd] at hlow
  exact ⟨hlow, h.high⟩

theorem SizeOk.mono {root : NodeId} {d' : Option NodeId} (h : SizeOk root d n b)
    (hd : short d n ≤ short d' n) : SizeOk root d' n b :=
  ⟨h.low.trans (Nat.add_le_add_left hd _), h.high⟩

/-- A body of the same kind that is no smaller and not too large. -/
theorem SizeOk.grow {root : NodeId} {d' : Option NodeId} {b' : NodeBody} (h : SizeOk root d n b)
    (hkind : b'.isLeaf = b.isLeaf) (hlow : b.fanout + short d n ≤ b'.fanout + short d' n)
    (hhigh : b.isLeaf = true → b.fanout ≤ maxKeys → b'.fanout ≤ maxKeys) : SizeOk root d' n b' := by
  refine ⟨?_, fun hleaf => hhigh (hkind ▸ hleaf) (h.high (hkind ▸ hleaf))⟩
  have hleast : least root n b' = least root n b := by rw [least, least, hkind]
  exact hleast.trans_le (h.low.trans hlow)

/-- Without a short node, any node may be called short. -/
theorem Sized.any (h : Sized t g none) (d : Option NodeId) :
    Sized t g d :=
  fun n s b hn hb => (h n s b hn hb).mono (Nat.zero_le _)

/-- A short node that has its full size is not short. -/
theorem Sized.settle (h : Sized t g d)
    (hfull : ∀ z s b, d = some z → g z = some s → t.body z = some b → SizeOk t.root none z b) :
    Sized t g none := by
  intro n s b hn hb
  by_cases hd : d = some n
  · exact hfull n s b hd hn hb
  · exact (h n s b hn hb).mono (short_of_ne hd).le

/-! ## Bodies -/

theorem BodyOk.length_children {keys : List Bytes} {children : List NodeId}
    (h : BodyOk g s (newInternal keys children)) : children.length = keys.length + 1 := by
  obtain ⟨l, -, hseg⟩ := h.internal_inv
  rw [← hseg.length_eq, length_fencesOf]

theorem BodyOk.keyCount_le (h : BodyOk g s b) :
    b.keyCount ≤ b.fanout := by
  cases h with
  | leaf _ _ _ _ => exact le_rfl
  | internal hl hseg =>
    have hlen := (BodyOk.internal hl hseg).length_children
    simp only [NodeBody.keyCount, newInternal, NodeBody.fanout]
    omega

theorem splitBody_bounded {cb left rb : NodeBody} {right : NodeId} {sep : Bytes}
    (hok : BodyOk g s cb) (hfull : maxKeys ≤ cb.keyCount)
    (hhigh : cb.isLeaf = true → cb.fanout ≤ maxKeys)
    (hs : splitBody right cb = some (sep, left, rb)) : Bounded left ∧ Bounded rb := by
  have hmax : maxKeys = 128 := rfl
  have hmin : minKeys = 64 := rfl
  cases hok with
  | @leaf E next _ _ _ _ =>
    have hlen : maxKeys ≤ E.length := by
      simpa [NodeBody.keyCount, leafBody, newLeafWith] using hfull
    have hle : E.length ≤ maxKeys := by
      simpa [NodeBody.fanout, leafBody, newLeafWith] using hhigh rfl
    simp only [splitBody, leafBody, newLeafWith, List.length_map, Option.some.injEq,
      Prod.mk.injEq] at hs
    obtain ⟨-, rfl, rfl⟩ := hs
    simp only [Bounded, NodeBody.fanout, List.length_take, List.length_drop, List.length_map]
    omega
  | @internal K C l hl hseg =>
    have hC := (BodyOk.internal hl hseg).length_children
    have hlen : maxKeys ≤ K.length := hfull
    simp only [splitBody, newInternal, Option.map_eq_some_iff, Prod.mk.injEq] at hs
    obtain ⟨k, -, -, rfl, rfl⟩ := hs
    simp only [Bounded, NodeBody.fanout, NodeBody.isLeaf, List.length_take, List.length_drop,
      Bool.false_eq_true, false_implies, and_true]
    omega

/-! ## Visits -/

section Visits

variable {R : Type} {t : BTree} {g g' : Spans} {d d' : Option NodeId} {v : Visit R}
  {n c : NodeId} {s : Span}

/-- Sizes after a visit: those of the latched nodes and of the fresh one are to
be checked, the others are as before. -/
theorem Sized.perform (h : Sized t g d) (hinv : Inv t g) (hok : VisitOk t g v g')
    (hother : ∀ z, z ∉ v.latched → short d z ≤ short d' z)
    (hlatched : ∀ z s b, z ∈ v.latched → g' z = some s → (t.perform v).body z = some b →
      SizeOk t.root d' z b)
    (hfresh : ∀ b, (t.perform v).body t.nodes.length = some b →
      SizeOk t.root d' t.nodes.length b) : Sized (t.perform v) g' d' := by
  intro z sz b hz hb
  by_cases hlat : z ∈ v.latched
  · exact hlatched z sz b hlat hz hb
  by_cases hnew : z = t.nodes.length
  · subst hnew
    exact hfresh b hb
  -- the node is not restructured and not published
  have hgz : g' z = g z := hok.frame.same z fun hmoved => (hok.moved z hmoved).elim hlat hnew
  rw [hgz] at hz
  obtain ⟨b', hb', -⟩ := hinv.body z sz hz
  have hunpublished : ∀ p ∈ v.published, p.1 ≠ z := by
    rintro p hp rfl
    exact hlat (hok.released.mem_iff.mp (List.mem_map_of_mem hp))
  have hsame := body_perform_other hunpublished hb'
  rw [hb, Option.some.injEq] at hsame
  subst hsame
  exact (h z sz b hz hb').mono (hother z hlat)

theorem body_perform_length (hf : v.fresh = []) : (t.perform v).body t.nodes.length = none := by
  have hlen : (t.perform v).nodes.length = t.nodes.length := by
    calc (t.perform v).nodes.length = (t.nodes ++ v.fresh).length := length_publishAll _ _
      _ = t.nodes.length := by rw [hf, List.append_nil]
  exact List.getElem?_eq_none hlen.le

theorem Sized.rewrite {b' : NodeBody} {o : Outcome R} (h : Sized t g d) (hinv : Inv t g)
    (hok : VisitOk t g (single n b' o) g') (hn : g n = some s)
    (hother : ∀ z, z ≠ n → short d z ≤ short d' z) (hsize : SizeOk t.root d' n b') :
    Sized (t.perform (single n b' o)) g' d' := by
  refine h.perform hinv hok (fun z hz => hother z fun he => hz (by simp [BTree.single, he])) ?_ ?_
  · intro z sz b hz _ hb
    obtain rfl : z = n := by simpa [BTree.single] using hz
    rw [body_perform_single (hinv.lt_length hn), Option.some.injEq] at hb
    exact hb ▸ hsize
  · intro b hb
    rw [body_perform_length rfl] at hb
    cases hb

/-- Sizes after a visit that republishes what it found. -/
theorem Sized.same (h : Sized t g d) (hf : v.fresh = [])
    (hp : ∀ p ∈ v.published, t.body p.1 = some p.2) : Sized (t.perform v) g d := by
  intro z sz b hz hb
  rw [BTree.body, perform_nodes_same hf hp] at hb
  exact h z sz b hz hb

/-- The root was wrapped over a full child, which the next visit splits. -/
structure Wrapped (t : BTree) (g : Spans) : Prop where
  sized : Sized t g (some t.root)
  full : ∃ c cb, t.body t.root = some (newInternal [] [c]) ∧ t.body c = some cb ∧
    maxKeys ≤ cb.keyCount

/-- The sizes an inserting descent starts from. -/
def Ready (t : BTree) (g : Spans) (n : NodeId) : Prop :=
  Sized t g none ∨ (n = t.root ∧ Wrapped t g)

variable {keys : List Bytes} {children : List NodeId}

/-- A search in a live internal node stays among its children. -/
theorem Inv.lowerBound_lt (hinv : Inv t g) (hn : g n = some s)
    (hb : t.body n = some (newInternal keys children)) (key : Bytes) :
    lowerBound keys (headsFor keys) key < children.length := by
  obtain ⟨l, -, hseg⟩ := hinv.seg hn hb
  have hlen := hseg.length_eq
  obtain ⟨A, B, hkeys, hidx, -⟩ := lowerBound_cut (sorted_of_fences hseg.sorted) key
  rw [length_fencesOf, hkeys, List.length_append] at hlen
  omega

theorem Inv.child_ne_root (hinv : Inv t g) (hn : g n = some s)
    (hb : t.body n = some (newInternal keys children)) (hc : c ∈ children) :
    c ≠ n ∧ c ≠ t.root ∧ ∃ sc, g c = some sc := by
  obtain ⟨l, hl, hseg⟩ := hinv.seg hn hb
  obtain ⟨sc, hsc, hlc, -⟩ := hseg.mem c hc
  obtain ⟨lr, hr, htop⟩ := hinv.root
  refine ⟨?_, ?_, sc, hsc⟩
  · rintro rfl
    rw [hn, Option.some.injEq] at hsc
    subst hsc
    omega
  · rintro rfl
    have hle := htop n s hn
    rw [hr, Option.some.injEq] at hsc
    subst hsc
    simp only at hlc
    omega

/-- The sizes a ready tree starts from: at most the visited node is short. -/
theorem Ready.sized (h : Ready t g n) : ∃ d, (∀ z, z ≠ n → d ≠ some z) ∧ Sized t g d := by
  rcases h with h | ⟨rfl, h⟩
  · exact ⟨none, by simp, h⟩
  · exact ⟨some t.root, fun z hz he => hz (Option.some.inj he).symm, h.sized⟩

/-- The internal arm of `insert_rec` and `upsert_rec` leaves all sizes right. -/
theorem splitDescend_sized {key : Bytes} (hinv : Inv t g) (hok : VisitOk t g v g')
    (hn : g n = some s) (hb : t.body n = some (newInternal keys children)) (hready : Ready t g n)
    (hv : splitDescend t n keys (headsFor keys) children key = some v) :
    Sized (t.perform v) g' none := by
  simp only [splitDescend, Option.bind_eq_bind] at hv
  obtain ⟨child, hchild, hv⟩ := Option.bind_eq_some_iff.mp hv
  obtain ⟨cb, hcb, hv⟩ := Option.bind_eq_some_iff.mp hv
  have hmem := List.mem_of_getElem? hchild
  obtain ⟨hcn, hcroot, sc, hsc⟩ := hinv.child_ne_root hn hb hmem
  split at hv
  · next hfull =>
    obtain ⟨⟨sep, left, rb⟩, hsplit, hv⟩ := Option.bind_eq_some_iff.mp hv
    obtain ⟨next, -, hv⟩ := Option.bind_eq_some_iff.mp hv
    rw [Option.some.injEq] at hv
    obtain ⟨d, hd, hsized⟩ := hready.sized
    obtain ⟨cb', hcb', hcok⟩ := hinv.body child sc hsc
    rw [hcb, Option.some.injEq] at hcb'
    subst hcb'
    obtain ⟨hleft, hright⟩ := splitBody_bounded hcok hfull (hsized child sc cb hsc hcb).high hsplit
    have hnd : (v.published.map Prod.fst).Nodup := hok.released.nodup_iff.mpr hok.nodup
    have hpc : (child, left) ∈ v.published := by
      rw [← hv]
      exact List.mem_cons_self
    obtain ⟨b', hpn, hkind, hlen⟩ : ∃ b', (n, b') ∈ v.published ∧ b'.isLeaf = false ∧
        b'.fanout = children.length + 1 := by
      rw [← hv]
      refine ⟨_, List.mem_cons_of_mem _ List.mem_cons_self, rfl, ?_⟩
      exact List.length_insertIdx_of_le_length (hinv.lowerBound_lt hn hb sep) _
    refine hsized.perform hinv hok (fun z hz => ?_) (fun z sz b hz _ hbz => ?_) fun b hbz => ?_
    · exact (short_of_ne (hd z fun he => hz (by simp [← hv, he]))).le
    · have hz' : z = n ∨ z = child := by simpa [← hv] using hz
      rcases hz' with rfl | rfl
      · -- the visited node has one more child
        rw [body_perform_published hnd hpn (hinv.lt_length hn), Option.some.injEq] at hbz
        subst hbz
        refine (hsized z s _ hn hb).grow hkind ?_ fun hleaf => absurd hleaf Bool.false_ne_true
        have hle := short_le_one d z
        have hfan : (newInternal keys children).fanout = children.length := rfl
        omega
      · rw [body_perform_published hnd hpc (hinv.lt_length hsc), Option.some.injEq] at hbz
        exact hbz ▸ hleft.sizeOk ..
    · have hold : ∀ p ∈ v.published, p.1 ≠ t.nodes.length := by
        intro p hp heq
        obtain ⟨sp, hsp⟩ := hok.live p.1 (hok.released.mem_iff.mp (List.mem_map_of_mem hp))
        rw [heq, hinv.fresh le_rfl] at hsp
        cases hsp
      rw [body_perform_fresh (b := rb) (by rw [← hv]) hold, Option.some.injEq] at hbz
      exact hbz ▸ hright.sizeOk ..
  · next hroom =>
    rw [Option.some.injEq] at hv
    subst hv
    obtain rfl : g' = g := funext fun z => hok.frame.same z (by simp [BTree.single, Restructure.moved])
    have hsized : Sized t g' none := by
      rcases hready with h | ⟨rfl, h⟩
      · exact h
      · -- the child under a wrapped root is full
        obtain ⟨c', cb', hbr, hcb', hfull⟩ := h.full
        rw [hb, Option.some.injEq] at hbr
        simp only [newInternal, NodeBody.internal.injEq] at hbr
        rw [hbr.2.2, List.mem_singleton] at hmem
        rw [hmem, hcb', Option.some.injEq] at hcb
        exact absurd (hcb ▸ hfull) hroom
    exact hsized.same rfl (by simpa [BTree.single, newInternal] using hb)

/-- A leaf is not a wrapped root. -/
theorem Ready.leaf {E : List (Bytes × Bytes)} {next : Option NodeId} (h : Ready t g n)
    (hb : t.body n = some (leafBody E next)) : Sized t g none := by
  rcases h with h | ⟨rfl, h⟩
  · exact h
  · obtain ⟨c, cb, hbr, -⟩ := h.full
    rw [hb] at hbr
    simp [leafBody, newLeafWith, newInternal] at hbr

theorem Sized.rewriteLeaf {E : List (Bytes × Bytes)} {next next' : Option NodeId}
    {vals : List Bytes} {heads : List Nat} {o : Outcome R} (h : Sized t g none) (hinv : Inv t g)
    (hok : VisitOk t g (single n (NodeBody.leaf keys heads vals next') o) g') (hn : g n = some s)
    (hb : t.body n = some (leafBody E next)) (hlow : E.length ≤ keys.length + short d n)
    (hhigh : E.length ≤ maxKeys → keys.length ≤ maxKeys) :
    Sized (t.perform (BTree.single n (.leaf keys heads vals next') o)) g' d := by
  have hfan : (leafBody E next).fanout = E.length := by
    simp [leafBody, newLeafWith, NodeBody.fanout]
  refine h.rewrite hinv hok hn (fun z _ => Nat.zero_le _) ?_
  refine (h n s _ hn hb).grow rfl ?_ fun _ => ?_
  · rw [hfan]
    exact hlow
  · rw [hfan]
    exact hhigh

end Visits

/-! ## The four operations -/

/-- A visit function keeps sizes right.  It may leave one short node on the
path of the key, when it is done with a result that `shrinks` says. -/
def SizeSpec {R : Type} (visit : BTree → NodeId → Option (Visit R)) (key : Bytes)
    (pre : BTree → Spans → NodeId → Prop) (shrinks : R → Bool) : Prop :=
  ∀ {t : BTree} {g g' : Spans} {n : NodeId} {s : Span} {v : Visit R}, Inv t g → pre t g n →
    g n = some s → s.Covers key → visit t n = some v → VisitOk t g v g' →
      Sized (t.perform v) g' none ∨
        ∃ r d, v.outcome = .done r ∧ shrinks r = true ∧ Sized (t.perform v) g' d ∧ Covering g' key d

section Operations

variable {key val : Bytes}

theorem insertVisit_sized : SizeSpec (insertVisit key val) key Ready fun _ => false := by
  intro t g g' n s v hinv hready hn hk hv hok
  obtain ⟨b, hb, hbok⟩ := hinv.body n s hn
  cases hbok with
  | @leaf E next _ _ _ _ =>
    have hsized := hready.leaf hb
    simp only [insertVisit, hb, Option.bind_eq_bind, Option.bind_some, leafBody,
      newLeafWith] at hv
    left
    split at hv
    · cases hv
      exact hsized.rewriteLeaf hinv hok hn hb (by simp) (by simp)
    split at hv
    · cases hv
      exact hsized.rewriteLeaf hinv hok hn hb (by simp) (by simp)
    split at hv
    · cases hv
      exact hsized.rewriteLeaf hinv hok hn hb (by simp) (by simp)
    · cases hv
      next hroom _ _ =>
      rw [List.length_map] at hroom
      refine hsized.rewriteLeaf hinv hok hn hb ?_ fun _ => ?_
      all_goals
        rw [List.length_insertIdx, List.length_map]
        split <;> omega
  | internal hl hseg =>
    simp only [insertVisit, hb, Option.bind_eq_bind, Option.bind_some, newInternal] at hv
    exact Or.inl (splitDescend_sized hinv hok hn hb hready hv)

theorem upsertVisit_sized : SizeSpec (upsertVisit key val) key Ready fun _ => false := by
  intro t g g' n s v hinv hready hn hk hv hok
  obtain ⟨b, hb, hbok⟩ := hinv.body n s hn
  cases hbok with
  | @leaf E next _ _ _ _ =>
    have hsized := hready.leaf hb
    simp only [upsertVisit, hb, Option.bind_eq_bind, Option.bind_some, leafBody,
      newLeafWith] at hv
    left
    split at hv
    · obtain ⟨prev, -, hv⟩ := Option.bind_eq_some_iff.mp hv
      cases hv
      exact hsized.rewriteLeaf hinv hok hn hb (by simp) (by simp)
    split at hv
    · cases hv
      exact hsized.rewriteLeaf hinv hok hn hb (by simp) (by simp)
    split at hv
    · cases hv
      exact hsized.rewriteLeaf hinv hok hn hb (by simp) (by simp)
    · cases hv
      next hroom _ =>
      rw [List.length_map] at hroom
      refine hsized.rewriteLeaf hinv hok hn hb ?_ fun _ => ?_
      all_goals
        rw [List.length_insertIdx, List.length_map]
        split <;> omega
  | internal hl hseg =>
    simp only [upsertVisit, hb, Option.bind_eq_bind, Option.bind_some, newInternal] at hv
    exact Or.inl (splitDescend_sized hinv hok hn hb hready hv)

/-- What a visit needs that allocates nothing above the leaves. -/
def Settled (t : BTree) (g : Spans) (_ : NodeId) : Prop := Sized t g none

theorem Settled.descend {R : Type} {t : BTree} {g g' : Spans} {n c : NodeId} {b : NodeBody}
    (h : Sized t g none) (hb : t.body n = some b)
    (hok : VisitOk t g (single (R := R) n b (.descend c)) g') :
    Sized (t.perform (single (R := R) n b (.descend c))) g' none := by
  obtain rfl : g' = g := funext fun z => hok.frame.same z (by simp [BTree.single, Restructure.moved])
  exact h.same rfl (by simpa [BTree.single] using hb)

theorem updateVisit_sized : SizeSpec (updateVisit key val) key Settled fun _ => false := by
  intro t g g' n s v hinv hsized hn hk hv hok
  obtain ⟨b, hb, hbok⟩ := hinv.body n s hn
  left
  cases hbok with
  | @leaf E next _ _ _ _ =>
    simp only [updateVisit, hb, Option.bind_eq_bind, Option.bind_some, leafBody,
      newLeafWith] at hv
    split at hv
    · obtain ⟨prev, -, hv⟩ := Option.bind_eq_some_iff.mp hv
      cases hv
      exact Sized.rewriteLeaf hsized hinv hok hn hb (by simp) (by simp)
    · cases hv
      exact Sized.rewriteLeaf hsized hinv hok hn hb (by simp) (by simp)
  | @internal keys children l hl hseg =>
    simp only [updateVisit, hb, Option.bind_eq_bind, Option.bind_some, newInternal] at hv
    split at hv
    · next hnil =>
      have hlen := hseg.length_eq
      simp [hnil] at hlen
    · obtain ⟨child, -, hv⟩ := Option.bind_eq_some_iff.mp hv
      cases hv
      exact Settled.descend hsized hb hok

theorem deleteVisit_sized : SizeSpec (deleteVisit key) key Settled Option.isSome := by
  intro t g g' n s v hinv hsized hn hk hv hok
  obtain ⟨b, hb, hbok⟩ := hinv.body n s hn
  cases hbok with
  | @leaf E next _ _ _ _ =>
    simp only [deleteVisit, hb, Option.bind_eq_bind, Option.bind_some, leafBody,
      newLeafWith] at hv
    split at hv
    · obtain ⟨x, -, hv⟩ := Option.bind_eq_some_iff.mp hv
      cases hv
      right
      refine ⟨some x, some n, rfl, rfl, ?_, ?_⟩
      · refine Sized.rewriteLeaf hsized hinv hok hn hb ?_ fun hmax => ?_
        · rw [List.length_eraseIdx, List.length_map, short_self]
          split <;> omega
        · rw [List.length_eraseIdx, List.length_map]
          split <;> omega
      · rintro z ⟨⟩
        have hsame := hok.frame.same n (by simp [BTree.single, Restructure.moved])
        exact ⟨s, hsame.trans hn, hk⟩
    · cases hv
      exact Or.inl (Sized.rewriteLeaf hsized hinv hok hn hb (by simp) (by simp))
  | internal hl hseg =>
    simp only [deleteVisit, hb, Option.bind_eq_bind, Option.bind_some, newInternal] at hv
    obtain ⟨child, -, hv⟩ := Option.bind_eq_some_iff.mp hv
    cases hv
    exact Or.inl (Settled.descend hsized hb hok)

end Operations

/-! ## Fix-up passes -/

section Fix

variable {idx sibIdx : Nat} {p c s p' c' s' : NodeBody}

/-- A borrow moves one key or child. -/
theorem borrow_fanout (h : borrow idx sibIdx p c s = some (p', c', s')) :
    p'.isLeaf = false ∧ p'.fanout = p.fanout ∧ c'.fanout = c.fanout + 1 ∧
      s'.fanout + 1 = s.fanout := by
  cases p with
  | leaf => simp [borrow] at h
  | internal pk ph pc =>
    cases c with
    | leaf ck ch cv cn =>
      simp only [borrow] at h
      split at h
      · unfold borrowLeafRight at h
        split at h
        · cases h
          simp [NodeBody.fanout, NodeBody.isLeaf]
        · cases h
      · unfold borrowLeafLeft at h
        split at h
        · next sk sh sv sn =>
          split at h
          · next hk _ _ =>
            cases h
            have hne : sk ≠ [] := by
              rintro rfl
              cases hk
            have hpos := List.length_pos_iff.mpr hne
            simp only [NodeBody.fanout, NodeBody.isLeaf, List.length_cons, List.length_dropLast,
              true_and]
            omega
          · cases h
        · cases h
    | internal ck ch cc =>
      simp only [borrow] at h
      unfold borrowInternal at h
      split at h
      · next sk sh sc =>
        split at h
        · split at h
          · split at h
            · cases h
              simp [NodeBody.fanout, NodeBody.isLeaf]
            · cases h
          · split at h
            · next hmv =>
              cases h
              have hne : sc ≠ [] := by
                rintro rfl
                cases hmv
              have hpos := List.length_pos_iff.mpr hne
              simp only [NodeBody.fanout, NodeBody.isLeaf, List.length_cons,
                List.length_dropLast, true_and]
              omega
            · cases h
        · cases h
      · cases h

/-- The kept node of a merge holds what both held. -/
theorem fuse_fanout {sep : Bytes} {sepH : Nat} (h : fuse sep sepH c s = some (c', s')) :
    c'.fanout = c.fanout + s.fanout := by
  unfold fuse at h
  split at h
  · cases h
    simp [NodeBody.fanout]
  · cases h
    simp [NodeBody.fanout]
  · cases h

/-- A merge drops one child of the parent. -/
theorem merge_fanout {into : Bool} (h : merge idx sibIdx into p c s = some (p', c', s'))
    (hidx : min idx sibIdx + 1 < p.fanout) :
    p'.isLeaf = false ∧ p'.fanout + 1 = p.fanout ∧
      (if into then c' else s').fanout = c.fanout + s.fanout := by
  cases p with
  | leaf => simp [merge] at h
  | internal pk ph pc =>
    simp only [NodeBody.fanout] at hidx
    simp only [merge] at h
    split at h
    · split at h
      · next hinto =>
        obtain ⟨⟨a, b⟩, hf, heq⟩ := Option.map_eq_some_iff.mp h
        cases heq
        rw [if_pos hinto, fuse_fanout hf]
        simp only [NodeBody.fanout, NodeBody.isLeaf, List.length_eraseIdx, if_pos hidx, true_and,
          and_true]
        omega
      · next hinto =>
        obtain ⟨⟨a, b⟩, hf, heq⟩ := Option.map_eq_some_iff.mp h
        cases heq
        rw [if_neg hinto, fuse_fanout hf, Nat.add_comm s.fanout]
        simp only [NodeBody.fanout, NodeBody.isLeaf, List.length_eraseIdx, if_pos hidx, true_and,
          and_true]
        omega
    · cases h

end Fix

/-- What `fix_child` does to the sizes of a parent, a child and its sibling. -/
structure FixSizes (t : BTree) (n c : NodeId) (pb cb : NodeBody) (children : List NodeId)
    (v : Visit Bool) (sib : NodeId) (sb pb' cb' sb' : NodeBody) : Prop where
  sibling : sib ∈ children
  body : t.body sib = some sb
  latched : v.latched = [n, c, sib]
  fresh : v.fresh = []
  published : v.published = [(c, cb'), (sib, sb'), (n, pb')]
  parent : pb'.isLeaf = false
  change :
    (minKeys < sb.fanout ∧ v.outcome = .done false ∧ pb'.fanout = pb.fanout ∧
      cb'.fanout = cb.fanout + 1 ∧ sb'.fanout + 1 = sb.fanout) ∨
    (sb.fanout ≤ minKeys ∧ v.outcome = .done true ∧ pb'.fanout + 1 = pb.fanout ∧
      (v.change = .merge c sib ∧ cb'.fanout = cb.fanout + sb.fanout ∨
        v.change = .merge sib c ∧ sb'.fanout = cb.fanout + sb.fanout))

theorem fixChild_sizes {c : NodeId} {cb : NodeBody} {keys : List Bytes} {heads : List Nat}
    {children : List NodeId} {idx : Nat} {v : Visit Bool} (hmany : 1 < children.length)
    (hidx : idx < children.length)
    (hv : fixChild t n (.internal keys heads children) children idx c cb = some v) :
    ∃ sib sb pb' cb' sb',
      FixSizes t n c (.internal keys heads children) cb children v sib sb pb' cb' sb' := by
  have hmin : min idx (pickSibling idx children.length).1 + 1 <
      (NodeBody.internal keys heads children).fanout := by
    simp only [pickSibling, NodeBody.fanout]
    split
    · simp only
      omega
    · simp only
      omega
  unfold fixChild at hv
  generalize pickSibling idx children.length = pick at hv hmin
  obtain ⟨sibIdx, into⟩ := pick
  simp only [Option.bind_eq_bind] at hv
  obtain ⟨sib, hsib, hv⟩ := Option.bind_eq_some_iff.mp hv
  obtain ⟨sb, hsb, hv⟩ := Option.bind_eq_some_iff.mp hv
  have hmem := List.mem_of_getElem? hsib
  split at hv
  · next hrich =>
    obtain ⟨⟨pb', cb', sb'⟩, hb, hv⟩ := Option.bind_eq_some_iff.mp hv
    cases hv
    obtain ⟨hkind, hp, hc, hs⟩ := borrow_fanout hb
    exact ⟨sib, sb, pb', cb', sb', hmem, hsb, rfl, rfl, rfl, hkind, Or.inl ⟨hrich, rfl, hp, hc, hs⟩⟩
  · next hpoor =>
    obtain ⟨⟨pb', cb', sb'⟩, hb, hv⟩ := Option.bind_eq_some_iff.mp hv
    cases hv
    obtain ⟨hkind, hp, hboth⟩ := merge_fanout hb hmin
    refine ⟨sib, sb, pb', cb', sb', hmem, hsb, rfl, rfl, rfl, hkind,
      Or.inr ⟨Nat.not_lt.mp hpoor, rfl, hp, ?_⟩⟩
    cases into with
    | true => exact Or.inl ⟨rfl, hboth⟩
    | false => exact Or.inr ⟨rfl, hboth⟩

/-- The short node is the root or lies on the path of the key below `level`. -/
def ShortBelow (t : BTree) (g : Spans) (key : Bytes) (level : Nat) (d : Option NodeId) : Prop :=
  ∀ z, d = some z → z = t.root ∨ ∃ s, g z = some s ∧ s.Covers key ∧ s.level < level

inductive FixRound (t : BTree) (g : Spans) (key : Bytes) (n : NodeId) (v : Visit Bool)
    (g' : Spans) : Prop where
  /-- A merge moved the shortage to the visited node. -/
  | merged : v.outcome = .done true → g' n = g n → Sized (t.perform v) g' (some n) →
      FixRound t g key n v g'
  | ended : v.outcome = .done false → Sized (t.perform v) g' (some t.root) → FixRound t g key n v g'
  | below (c : NodeId) (sc : Span) (d : Option NodeId) : v.outcome = .descend c →
      g' c = some sc → sc.Covers key → Sized (t.perform v) g' d →
      ShortBelow (t.perform v) g' key sc.level d → FixRound t g key n v g'

section FixVisits

variable {t : BTree} {g g' : Spans} {d : Option NodeId} {v : Visit Bool} {n c : NodeId} {s : Span}
  {key : Bytes} {keys : List Bytes} {children : List NodeId} {cb : NodeBody}

/-- A round that borrows or merges. -/
theorem fixChild_sized (hinv : Inv t g) (hok : VisitOk t g v g') (hev : Evicts v.change g')
    (hn : g n = some s) (hb : t.body n = some (newInternal keys children)) (hsized : Sized t g d)
    (hc : c ∈ children) (hcb : t.body c = some cb) (hshort : cb.fanout < minKeys) {sib : NodeId}
    {sb pb' cb' sb' : NodeBody}
    (h : FixSizes t n c (newInternal keys children) cb children v sib sb pb' cb' sb') :
    FixRound t g key n v g' := by
  obtain ⟨hcn, hcroot, sc, hsc⟩ := hinv.child_ne_root hn hb hc
  obtain ⟨hsibn, hsibroot, ss, hss⟩ := hinv.child_ne_root hn hb h.sibling
  have hmin : minKeys = 64 := rfl
  have hmax : maxKeys = 128 := rfl
  -- the child is the short node
  have hlow := (hsized c sc cb hsc hcb).low
  rw [least, if_neg hcroot] at hlow
  have hd : d = some c := by
    by_contra hne
    rw [short_of_ne hne] at hlow
    omega
  subst hd
  rw [short_self] at hlow
  have hnodup : v.latched.Nodup := hok.nodup
  rw [h.latched] at hnodup
  have hne : c ≠ sib := by
    rintro rfl
    simp at hnodup
  have hsibSize := (hsized sib ss sb hss h.body).bounded hsibroot (by simpa using hne)
  have hnSize := hsized n s _ hn hb
  have hnd : (v.published.map Prod.fst).Nodup := hok.released.nodup_iff.mpr hok.nodup
  have hkinds := hok.kinds
  rw [h.published] at hkinds
  have hckind : cb'.isLeaf = cb.isLeaf := hkinds (c, cb') (by simp) cb hcb
  have hskind : sb'.isLeaf = sb.isLeaf := hkinds (sib, sb') (by simp) sb h.body
  have hother : ∀ z, z ∉ v.latched → ∀ d', short (some c) z ≤ short d' z := by
    intro z hz d'
    have hzc : z ≠ c := fun he => hz (by simp [h.latched, he])
    rw [short_of_ne fun he => hzc (Option.some.inj he).symm]
    exact Nat.zero_le _
  -- the bodies that the round leaves at the three latched nodes
  have hsizes : ∀ d', (SizeOk t.root d' n pb') → (∀ sz, g' c = some sz → SizeOk t.root d' c cb') →
      (∀ sz, g' sib = some sz → SizeOk t.root d' sib sb') → Sized (t.perform v) g' d' := by
    intro d' h1 h2 h3
    refine hsized.perform hinv hok (fun z hz => hother z hz d') (fun z sz b hz hgz hbz => ?_) fun b hbz => ?_
    · rw [h.latched] at hz
      simp only [List.mem_cons, List.not_mem_nil, or_false] at hz
      rcases hz with rfl | rfl | rfl
      · rw [body_perform_published (b := pb') hnd (by simp [h.published]) (hinv.lt_length hn),
          Option.some.injEq] at hbz
        exact hbz ▸ h1
      · rw [body_perform_published (b := cb') hnd (by simp [h.published]) (hinv.lt_length hsc),
          Option.some.injEq] at hbz
        exact hbz ▸ h2 sz hgz
      · rw [body_perform_published (b := sb') hnd (by simp [h.published]) (hinv.lt_length hss),
          Option.some.injEq] at hbz
        exact hbz ▸ h3 sz hgz
    · rw [body_perform_length h.fresh] at hbz
      cases hbz
  rcases h.change with ⟨hrich, hout, hp, hc', hs'⟩ | ⟨hpoor, hout, hp, hkept⟩
  · refine .ended hout (Sized.any (hsizes none ?_ (fun sz _ => ?_) (fun sz _ => ?_)) _)
    · refine hnSize.grow h.parent ?_ fun hleaf => absurd hleaf Bool.false_ne_true
      rw [short_of_ne fun he => hcn (Option.some.inj he), hp]
      simp
    · exact Bounded.sizeOk ⟨by omega, fun _ => by omega⟩ ..
    · refine Bounded.sizeOk ⟨by omega, fun hleaf => ?_⟩ ..
      have hle := hsibSize.2 (hskind ▸ hleaf)
      omega
  · have hsame : g' n = g n := by
      refine hok.frame.same n ?_
      rcases hkept with ⟨hchange, -⟩ | ⟨hchange, -⟩
      · simp [hchange, Restructure.moved, hcn.symm, hsibn.symm]
      · simp [hchange, Restructure.moved, hcn.symm, hsibn.symm]
    refine .merged hout hsame (hsizes (some n) ?_ (fun sz hgc => ?_) (fun sz hgs => ?_))
    · refine hnSize.grow h.parent ?_ fun hleaf => absurd hleaf Bool.false_ne_true
      rw [short_of_ne fun he => hcn (Option.some.inj he), short_self]
      omega
    · rcases hkept with ⟨-, hkept⟩ | ⟨hchange, -⟩
      · have hsibLow := hsibSize.1
        exact Bounded.sizeOk ⟨by omega, fun _ => by omega⟩ ..
      · rw [hev sib c hchange] at hgc
        cases hgc
    · rcases hkept with ⟨hchange, -⟩ | ⟨-, hkept⟩
      · rw [hev c sib hchange] at hgs
        cases hgs
      · have hsibLow := hsibSize.1
        exact Bounded.sizeOk ⟨by omega, fun _ => by omega⟩ ..

theorem perform_same_spans {R : Type} {v : Visit R} (hok : VisitOk t g v g')
    (hchange : v.change = .none) : g' = g :=
  funext fun z => hok.frame.same z (by simp [hchange, Restructure.moved])

theorem ShortBelow.root (h : ShortBelow t g key 0 d) (hsized : Sized t g d) :
    Sized t g (some t.root) := by
  rcases Option.eq_none_or_eq_some d with rfl | ⟨z, rfl⟩
  · exact hsized.any _
  · rcases h z rfl with rfl | ⟨sz, -, -, hlt⟩
    · exact hsized
    · omega

/-- The child on the path has its full size, so a short node lies below it. -/
theorem ShortBelow.child {sc : Span} (h : ShortBelow t g key (sc.level + 1) d) (hinv : Inv t g)
    (hsized : Sized t g d) (hsc : g c = some sc) (hk : sc.Covers key)
    (hcb : t.body c = some cb) (hfull : minKeys ≤ cb.fanout) :
    ∃ d', Sized t g d' ∧ ShortBelow t g key sc.level d' := by
  by_cases hd : d = some c
  · refine ⟨none, hsized.settle fun z sz b hz hgz hbz => ?_, by simp [ShortBelow]⟩
    rw [hd, Option.some.injEq] at hz
    subst hz
    rw [hcb, Option.some.injEq] at hbz
    subst hbz
    exact Bounded.sizeOk ⟨hfull, (hsized c sz cb hgz hcb).high⟩ ..
  · refine ⟨d, hsized, fun z hz => (h z hz).imp id ?_⟩
    rintro ⟨sz, hgz, hkz, hlt⟩
    refine ⟨sz, hgz, hkz, Nat.lt_of_le_of_ne (Nat.lt_succ_iff.mp hlt) fun hlevel => hd ?_⟩
    rw [hz, hinv.covers_unique hgz hsc hlevel hkz hk]

theorem fixVisit_sized (hinv : Inv t g) (hn : g n = some s) (hk : s.Covers key)
    (hsized : Sized t g d) (hpath : ShortBelow t g key s.level d) (hv : fixVisit key t n = some v)
    (hok : VisitOk t g v g') (hev : Evicts v.change g') : FixRound t g key n v g' := by
  obtain ⟨b, hb, hbok⟩ := hinv.body n s hn
  cases hbok with
  | leaf h0 _ _ _ =>
    simp only [fixVisit, hb, Option.bind_eq_bind, Option.bind_some, leafBody, newLeafWith] at hv
    cases hv
    obtain rfl := perform_same_spans hok rfl
    rw [h0] at hpath
    exact .ended rfl ((hpath.root hsized).same rfl (by simpa [single, leafBody, newLeafWith] using hb))
  | @internal keys children l hl hseg =>
    obtain ⟨A, B, f, F, C1, c, C2, hc⟩ := exists_childAt hseg hk.1 hk.2
    obtain ⟨cb, hcb, hcok⟩ := hinv.body c _ hc.child
    have hlen := hseg.length_eq
    rw [length_fencesOf] at hlen
    have hidx : min (lowerBound keys (headsFor keys) key) (children.length - 1) = A.length := by
      rw [hc.index, hc.children_eq]
      have := hc.aligned
      simp only [List.length_append, List.length_cons]
      omega
    have hget : children[A.length]? = some c := by
      rw [hc.children_eq]
      exact List.getElem?_at hc.aligned.symm
    have hmem := List.mem_of_getElem? hget
    simp only [fixVisit, hb, Option.bind_eq_bind, Option.bind_some, newInternal, hidx, hget,
      hcb] at hv
    split at hv
    · next hfew =>
      cases hv
      obtain rfl := perform_same_spans hok rfl
      -- only the root may have a single child, and only when it is the short node
      have hlow := (hsized n s _ hn hb).low
      have hfan : (newInternal keys children).fanout = children.length := rfl
      have hshort := short_le_one d n
      have hmin : minKeys = 64 := rfl
      have hroot : n = t.root := by
        by_contra hne
        rw [least, if_neg hne] at hlow
        omega
      subst hroot
      have hd : d = some t.root := by
        by_contra hne
        have hleast : least t.root t.root (newInternal keys children) = 2 := by
          simp [least, newInternal, NodeBody.isLeaf]
        rw [short_of_ne hne, hleast] at hlow
        omega
      exact .ended rfl (Sized.same (hd ▸ hsized) rfl (by simpa [single, newInternal] using hb))
    next hmany =>
    split at hv
    · next hshort =>
      obtain ⟨sib, sb, pb', cb', sb', hsizes⟩ := fixChild_sizes (by omega)
        (List.getElem?_eq_some_iff.mp hget).1 hv
      exact fixChild_sized hinv hok hev hn hb hsized hmem hcb hshort hsizes
    · next hfull =>
      rw [hl] at hpath
      obtain ⟨d', hsized', hpath'⟩ := ShortBelow.child hpath hinv hsized hc.child
        ⟨hc.lower, hc.upper⟩ hcb (Nat.not_lt.mp hfull)
      cases hcok with
      | @leaf E next h0 _ _ _ =>
        simp only [leafBody, newLeafWith, Option.some.injEq] at hv
        subst hv
        obtain rfl := perform_same_spans hok rfl
        simp only at h0 hpath'
        rw [h0] at hpath'
        exact .ended rfl ((hpath'.root hsized').same rfl (by simpa using ⟨hcb, hb⟩))
      | @internal ck cc _ _ _ =>
        simp only [newInternal, Option.some.injEq] at hv
        subst hv
        obtain rfl := perform_same_spans hok rfl
        exact .below c _ d' rfl hc.child ⟨hc.lower, hc.upper⟩
          (hsized'.same rfl (by simpa using ⟨hb, hcb⟩)) hpath'

end FixVisits

end HenchDB.BTree
