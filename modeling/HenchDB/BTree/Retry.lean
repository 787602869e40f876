import HenchDB.BTree.Range

/-!
# Termination of the retry loops

`insert` and `upsert` restart a descent when the leaf they reach is full, or
when the key lies above the last key of a leaf that has a successor.  The
second test takes such a leaf for the left half of a concurrent split.  After
deletions the last key of a leaf can be below its separator, and a key between
the two meets the test on every attempt although nobody else is writing.
`Gap` names this situation.  Without it the loops end: a restart can only come
from a full leaf, and the next descent halves that leaf.
-/

namespace HenchDB.BTree

/-! ## The leaf a key belongs to -/

/-- The keys and the `next` pointer of the leaf the separators lead `key` to. -/
def leafFor (t : BTree) (key : Bytes) : Nat → NodeId → Option (List Bytes × Option NodeId)
  | 0, _ => none
  | fuel + 1, n => do
    match ← t.body n with
    | .leaf keys _ _ next => some (keys, next)
    | .internal keys heads children =>
      leafFor t key fuel (← children[lowerBound keys heads key]?)

/-- The key lies above the last key of the nonempty leaf it belongs to, and
that leaf has a successor. -/
def Gap (t : BTree) (key : Bytes) : Prop :=
  ∃ fuel keys next, t.leafFor key fuel t.root = some (keys, some next) ∧ keys ≠ [] ∧
    keys.getLastD [] < key

/-- The restart test of `insert_rec` and `upsert_rec` on a leaf. -/
def gapIn (E : List (Bytes × Bytes)) (next : Option NodeId) (key : Bytes) : Prop :=
  next.isSome ∧ E.map Prod.fst ≠ [] ∧ (E.map Prod.fst).getLastD [] < key

/-- The leaf that covers `key` holds `E` and leads to `next`. -/
def TargetAt (t : BTree) (g : Spans) (key : Bytes) (E : List (Bytes × Bytes))
    (next : Option NodeId) : Prop :=
  ∃ n s, g n = some s ∧ s.level = 0 ∧ s.Covers key ∧ t.body n = some (leafBody E next)

section Target

variable {t : BTree} {g : Spans} {key : Bytes} {E E' : List (Bytes × Bytes)}
  {next next' : Option NodeId}

theorem TargetAt.unique (h : Inv t g) (ht : TargetAt t g key E next)
    (ht' : TargetAt t g key E' next') : E = E' ∧ next = next' := by
  obtain ⟨n, s, hn, hl, hk, hb⟩ := ht
  obtain ⟨n', s', hn', hl', hk', hb'⟩ := ht'
  obtain rfl := h.covers_unique hn hn' (hl.trans hl'.symm) hk hk'
  rw [hb, Option.some.injEq] at hb'
  exact leafBody_inj hb'

/-- The descent by separators reaches the target leaf and nothing else. -/
theorem leafFor_spec (h : Inv t g) (key : Bytes) : ∀ (fuel : Nat) {n : NodeId} {s : Span},
    g n = some s → s.Covers key →
    (∀ x, leafFor t key fuel n = some x → ∃ E next, TargetAt t g key E next ∧
      x = (E.map Prod.fst, next)) ∧
    (s.level < fuel → (leafFor t key fuel n).isSome)
  | 0, _, _, _, _ => ⟨by simp [leafFor], by omega⟩
  | fuel + 1, n, s, hn, hk => by
    obtain ⟨b, hb, hok⟩ := h.body n s hn
    cases hok with
    | @leaf E next hl _ _ _ =>
      have heq : leafFor t key (fuel + 1) n = some (E.map Prod.fst, next) := by
        simp [leafFor, hb, leafBody, newLeafWith]
      refine ⟨fun x hx => ⟨E, next, ⟨n, s, hn, hl, hk, hb⟩, ?_⟩, fun _ => by simp [heq]⟩
      rw [heq, Option.some.injEq] at hx
      exact hx.symm
    | @internal keys children l hl hseg =>
      obtain ⟨c, sc, hget, hgc, hlev, hcov⟩ := h.descend hn hb hk
      have heq : leafFor t key (fuel + 1) n = leafFor t key fuel c := by
        simp [leafFor, hb, newInternal, hget]
      rw [heq]
      obtain ⟨h1, h2⟩ := leafFor_spec h key fuel hgc hcov
      exact ⟨h1, fun hf => h2 (by omega)⟩

theorem exists_target (h : Inv t g) (key : Bytes) : ∃ E next, TargetAt t g key E next := by
  obtain ⟨l, hr, -⟩ := h.root
  obtain ⟨h1, h2⟩ := leafFor_spec h key (l + 1) hr
    ⟨bot_lt_fence key, (fence_lt_top key).le⟩
  obtain ⟨x, hx⟩ := Option.isSome_iff_exists.mp (h2 (Nat.lt_succ_self l))
  obtain ⟨E, next, ht, -⟩ := h1 x hx
  exact ⟨E, next, ht⟩

/-- `Gap` is the restart test on the target leaf. -/
theorem gap_iff (h : Inv t g) (ht : TargetAt t g key E next) : Gap t key ↔ gapIn E next key := by
  obtain ⟨l, hr, -⟩ := h.root
  have hspec := fun fuel => leafFor_spec h key fuel hr
    ⟨bot_lt_fence key, (fence_lt_top key).le⟩
  constructor
  · rintro ⟨fuel, keys, z, hleaf, hne, hlt⟩
    obtain ⟨E', next', ht', heq⟩ := (hspec fuel).1 _ hleaf
    obtain ⟨rfl, rfl⟩ := ht.unique h ht'
    rw [Prod.mk.injEq] at heq
    obtain ⟨rfl, rfl⟩ := heq
    exact ⟨rfl, hne, hlt⟩
  · rintro ⟨hnext, hne, hlt⟩
    obtain ⟨z, rfl⟩ := Option.isSome_iff_exists.mp hnext
    obtain ⟨x, hx⟩ := Option.isSome_iff_exists.mp ((hspec (l + 1)).2 (Nat.lt_succ_self l))
    obtain ⟨E', next', ht', rfl⟩ := (hspec (l + 1)).1 x hx
    obtain ⟨rfl, rfl⟩ := ht.unique h ht'
    exact ⟨l + 1, _, z, hx, hne, hlt⟩

/-- Wrapping the root leaves the leaves alone. -/
theorem TargetAt.wrapRoot {l : Nat} (h : Inv t g) (ht : TargetAt t g key E next) :
    TargetAt t.wrapRoot (withRoot g t.nodes.length l) key E next := by
  obtain ⟨n, s, hn, hl, hk, hb⟩ := ht
  exact ⟨n, s, withRoot_of_live h hn, hl, hk, (body_wrapRoot_of_live h hn).trans hb⟩

end Target

/-! ## Splitting the target leaf -/

variable {E : List (Bytes × Bytes)} {key : Bytes}

/-- The keys at or below a leaf's last key are no gap. -/
theorem not_gapIn_of_le {next : Option NodeId} {k : Bytes} (hs : (E.map Prod.fst).Pairwise (· < ·))
    (hk : k ∈ E.map Prod.fst) (hle : key ≤ k) :
    ¬ gapIn E next key := by
  rintro ⟨-, hne, hlt⟩
  obtain ⟨K, a, hK⟩ := List.eq_nil_or_concat (E.map Prod.fst) |>.resolve_left hne
  rw [List.concat_eq_append] at hK
  rw [hK] at hk hs hlt
  have hka : k ≤ a := by
    rcases List.mem_append.mp hk with hmem | hmem
    · exact ((List.pairwise_append.mp hs).2.2 k hmem a (by simp)).le
    · exact (List.mem_singleton.mp hmem).le
  simp only [List.getLastD_concat] at hlt
  exact absurd hlt (not_lt.mpr (hle.trans hka))

section SplitTarget

variable {R : Type} {t : BTree} {g : Spans} {m : Contents} {n : NodeId} {s : Span}
  {keys : List Bytes} {children : List NodeId} {key : Bytes} {E : List (Bytes × Bytes)}
  {next : Option NodeId}

/-- What a descending visit of an internal node does for the target leaf: the
restart test keeps its answer, the leaf does not grow, and a full leaf right
below the node is halved. -/
structure Narrows (t : BTree) (g : Spans) (key : Bytes) (E : List (Bytes × Bytes))
    (next : Option NodeId) (level : Nat) (t' : BTree) (g' : Spans) : Prop where
  target : ∃ E' next', TargetAt t' g' key E' next' ∧ (gapIn E' next' key ↔ gapIn E next key) ∧
    (level = 1 → maxKeys ≤ E'.length → E'.length < E.length) ∧ E'.length ≤ E.length

theorem SplitDone.target {A : List Bytes} {f : Fence} {c : NodeId} {sep : Bytes}
    {left rb : NodeBody} {v : Visit R} (h : Inv t g) (hc : g c = some ⟨(A.map fence).getLastD s.lo, f, 0⟩)
    (hcov : (⟨(A.map fence).getLastD s.lo, f, 0⟩ : Span).Covers key)
    (hcb : t.body c = some (leafBody E next)) (hfull : maxKeys ≤ E.length)
    (hsplit : splitBody t.nodes.length (leafBody E next) = some (sep, left, rb))
    (hd : SplitDone t g m 0 n s A f c key sep left rb v) :
    Narrows t g key E next 1 (t.perform v) (splitSpans t g 0 s.lo A f c sep) := by
  obtain ⟨E1, E2, rfl, rfl, rfl, hcut⟩ := splitBody_leaf hfull hsplit
  have hE := (h.leaf hc hcb).2.1
  obtain ⟨k, hk, hfk, hne⟩ := hcut
  obtain rfl : sep = k := fence_inj.mp hfk
  have hcne : c ≠ t.nodes.length := fun he => absurd (h.lt_length hc) (by simp [he])
  have hE1 : E1 ≠ [] := by
    rintro rfl
    simp at hk
  have hpos1 : 0 < E1.length := List.length_pos_of_ne_nil hE1
  have hpos2 : 0 < E2.length := List.length_pos_of_ne_nil hne
  by_cases hside : fence key ≤ fence sep
  · -- the key stays in the left half, at or below its last key
    refine ⟨E1, some t.nodes.length, ⟨c, _, withPair_left, rfl, ⟨hcov.1, hside⟩, hd.left⟩, ?_, ?_, ?_⟩
    · have hmem : sep ∈ E1.map Prod.fst := List.mem_of_getLast? hk
      have hle : key ≤ sep := fence_le_fence.mp hside
      have hs1 : (E1.map Prod.fst).Pairwise (· < ·) :=
        (List.pairwise_append.mp (List.map_append ▸ hE.sorted)).1
      exact iff_of_false (not_gapIn_of_le hs1 hmem hle)
        (not_gapIn_of_le hE.sorted (by rw [List.map_append]; exact List.mem_append_left _ hmem) hle)
    · intro _ _
      rw [List.length_append]
      omega
    · simp
  · -- the key moves to the right half, which keeps the last key
    refine ⟨E2, next, ⟨t.nodes.length, _, withPair_right hcne, rfl, ⟨not_le.mp hside, hcov.2⟩,
      hd.right⟩, ?_, ?_, ?_⟩
    · obtain ⟨E2', e, rfl⟩ := List.eq_nil_or_concat E2 |>.resolve_left hne
      simp [gapIn]
    · intro _ _
      rw [List.length_append]
      omega
    · simp

theorem SplitDone.target_above {l : Nat} {A : List Bytes} {f : Fence} {c : NodeId} {sep : Bytes}
    {left rb : NodeBody} {v : Visit R} (h : Inv t g) (hn : g n = some s) (hl : s.level = l + 2)
    (hc : g c = some ⟨(A.map fence).getLastD s.lo, f, l + 1⟩)
    (hd : SplitDone t g m (l + 1) n s A f c key sep left rb v) (ht : TargetAt t g key E next) :
    TargetAt (t.perform v) (splitSpans t g (l + 1) s.lo A f c sep) key E next := by
  obtain ⟨z, sz, hz, hlz, hkz, hbz⟩ := ht
  have hzn : z ≠ n := by
    rintro rfl
    rw [hn, Option.some.injEq] at hz
    subst hz
    omega
  have hzc : z ≠ c := by
    rintro rfl
    rw [hc, Option.some.injEq] at hz
    subst hz
    simp at hlz
  have hzr : z ≠ t.nodes.length := fun he => absurd (h.lt_length hz) (by simp [he])
  exact ⟨z, sz, (withPair_other hzc hzr).trans hz, hlz, hkz, hd.same z hzn hzc _ hbz⟩

/-- One descending visit of `insert_rec` or `upsert_rec`. -/
theorem splitDescend_narrows (h : Inv t g) (hm : Holds t g m) (hn : g n = some s)
    (hb : t.body n = some (newInternal keys children)) (hk : s.Covers key)
    (ht : TargetAt t g key E next) :
    ∃ v g' c sc, splitDescend (R := R) t n keys (headsFor keys) children key = some v ∧
      VisitOk t g v g' ∧ Holds (t.perform v) g' m ∧ v.outcome = .descend c ∧ g' c = some sc ∧
      sc.level + 1 = s.level ∧ sc.Covers key ∧ Narrows t g key E next s.level (t.perform v) g' := by
  obtain ⟨l, hl, hseg⟩ := h.seg hn hb
  obtain ⟨A, B, f, F, C1, c, C2, hc⟩ := exists_childAt hseg hk.1 hk.2
  obtain ⟨cb, hcb, hcok⟩ := h.body c _ hc.child
  by_cases hfull : maxKeys ≤ cb.keyCount
  · obtain ⟨sep, left, rb, v, hsplit, hv, hdone⟩ :=
      splitDescend_split (R := R) h hm hn hl hb hk hc hcb hfull
    obtain ⟨c', sc, hout, hgc, hlev, hcov⟩ := hdone.outcome
    refine ⟨v, _, c', sc, hv, hdone.visit, hdone.holds, hout, hgc, by omega, hcov, ?_⟩
    cases hcok with
    | @leaf E' next' h0 _ _ _ =>
      obtain rfl : l = 0 := h0
      obtain ⟨rfl, rfl⟩ := ht.unique h ⟨c, _, hc.child, rfl, ⟨hc.lower, hc.upper⟩, hcb⟩
      rw [hl]
      exact hdone.target h hc.child ⟨hc.lower, hc.upper⟩ hcb
        (by simpa [NodeBody.keyCount, leafBody, newLeafWith] using hfull) hsplit
    | internal hl' _ =>
      simp only at hl'
      subst hl'
      exact ⟨E, next, hdone.target_above h hn hl hc.child ht, Iff.rfl, by omega, le_rfl⟩
  · refine ⟨_, g, c, _, splitDescend_plain hc hcb hfull, VisitOk.single_same h hn hb,
      hm.single_same hb, rfl, hc.child, hl.symm, ⟨hc.lower, hc.upper⟩, ?_⟩
    refine ⟨E, next, ?_, Iff.rfl, fun h1 hge => ?_, le_rfl⟩
    · obtain ⟨z, sz, hz, hlz, hkz, hbz⟩ := ht
      refine ⟨z, sz, hz, hlz, hkz, ?_⟩
      have hnodes : (t.perform (single (R := R) n (newInternal keys children) (.descend c))).nodes =
          t.nodes := perform_nodes_same rfl (by simpa [single] using hb)
      rw [BTree.body, hnodes]
      exact hbz
    · -- the leaf below is the target, and it is not full
      obtain rfl : l = 0 := by omega
      cases hcok with
      | @leaf E' next' _ _ _ _ =>
        obtain ⟨rfl, rfl⟩ := ht.unique h ⟨c, _, hc.child, rfl, ⟨hc.lower, hc.upper⟩, hcb⟩
        simp only [NodeBody.keyCount, leafBody, newLeafWith, List.length_map] at hfull
        omega
      | internal hl' _ => simp at hl'

end SplitTarget

/-! ## The retry loops -/

/-- The shape `insert_rec` and `upsert_rec` share. -/
structure RetryVisit {R : Type} (visit : BTree → NodeId → Option (Visit R)) (key : Bytes) :
    Prop where
  internal : ∀ {t : BTree} {n : NodeId} {keys : List Bytes} {children : List NodeId},
    t.body n = some (newInternal keys children) →
      visit t n = splitDescend t n keys (headsFor keys) children key
  stuck : ∀ {t : BTree} {n : NodeId} {E : List (Bytes × Bytes)} {next : Option NodeId},
    (E.map Prod.fst).Pairwise (· < ·) → t.body n = some (leafBody E next) → gapIn E next key →
      visit t n = some (single n (leafBody E next) .restart)
  settled : ∀ {t : BTree} {n : NodeId} {E : List (Bytes × Bytes)} {next : Option NodeId},
    (E.map Prod.fst).Pairwise (· < ·) → t.body n = some (leafBody E next) → ¬ gapIn E next key →
      (∃ b r, visit t n = some (single n b (.done r))) ∨
        (maxKeys ≤ E.length ∧ visit t n = some (single n (leafBody E next) .restart))

theorem insertVisit_retry {val : Bytes} : RetryVisit (insertVisit key val) key where
  internal hb := by simp [insertVisit, hb, newInternal]
  stuck _ hb hgap := by
    rw [gapIn] at hgap
    simp only [insertVisit, hb, Option.bind_eq_bind, Option.bind_some, leafBody, newLeafWith]
    rw [if_pos hgap, ite_self]
  settled _ hb hgap := by
    rw [gapIn] at hgap
    simp only [insertVisit, hb, Option.bind_eq_bind, Option.bind_some, leafBody, newLeafWith,
      List.length_map]
    split
    · next hfull => exact Or.inr ⟨hfull, rfl⟩
    · split
      · exact Or.inl ⟨_, _, rfl⟩
      · exact Or.inl ⟨_, _, rfl⟩

/-- Above the last key of a leaf nothing is found. -/
theorem not_found_of_gapIn {next : Option NodeId} {i : Nat} (hs : (E.map Prod.fst).Pairwise (· < ·))
    (hgap : gapIn E next key) :
    (E.map Prod.fst)[i]? ≠ some key :=
  fun hfound => not_gapIn_of_le hs (List.mem_of_getElem? hfound) le_rfl hgap

theorem upsertVisit_retry {val : Bytes} : RetryVisit (upsertVisit key val) key where
  internal hb := by simp [upsertVisit, hb, newInternal]
  stuck hs hb hgap := by
    have hnot := fun i => not_found_of_gapIn (i := i) hs hgap
    rw [gapIn] at hgap
    simp only [upsertVisit, hb, Option.bind_eq_bind, Option.bind_some, leafBody, newLeafWith]
    rw [if_neg (hnot _), if_pos hgap, ite_self]
  settled {t n E next} _ hb hgap := by
    rw [gapIn] at hgap
    simp only [upsertVisit, hb, Option.bind_eq_bind, Option.bind_some, leafBody, newLeafWith,
      List.length_map]
    split
    · next hfound =>
      have hlt : lowerBound (E.map Prod.fst) (headsFor (E.map Prod.fst)) key <
          (E.map Prod.snd).length := by
        simpa using (List.getElem?_eq_some_iff.mp hfound).1
      rw [List.getElem?_eq_getElem hlt]
      exact Or.inl ⟨_, _, rfl⟩
    split
    · next hfull => exact Or.inr ⟨hfull, rfl⟩
    · exact Or.inl ⟨_, _, rfl⟩

section Loops

variable {R : Type} {visit : BTree → NodeId → Option (Visit R)} {key : Bytes}
  {m : Contents}

/-- With a gap every descent restarts and leaves the gap behind. -/
theorem descend_stuck (hr : RetryVisit visit key) :
    ∀ {fuel : Nat} {t t' : BTree} {g : Spans} {n : NodeId} {s : Span} {E : List (Bytes × Bytes)}
      {next : Option NodeId} {o : Option R}, Inv t g → Holds t g m → g n = some s →
      s.Covers key → TargetAt t g key E next → gapIn E next key →
      descendFrom visit fuel t n = some (t', o) →
      o = none ∧ ∃ g' E' next', Inv t' g' ∧ Holds t' g' m ∧ TargetAt t' g' key E' next' ∧
        gapIn E' next' key
  | 0, _, _, _, _, _, _, _, _, _, _, _, _, _, _, h => by simp [descendFrom] at h
  | fuel + 1, t, t', g, n, s, E, next, o, hinv, hm, hn, hk, ht, hgap, h => by
    rw [descendFrom, Option.bind_eq_bind] at h
    obtain ⟨v, hv, h⟩ := Option.bind_eq_some_iff.mp h
    obtain ⟨b, hb, hok⟩ := hinv.body n s hn
    cases hok with
    | @leaf E' next' hl hs _ _ =>
      obtain ⟨rfl, rfl⟩ := ht.unique hinv ⟨n, s, hn, hl, hk, hb⟩
      rw [hr.stuck hs hb hgap, Option.some.injEq] at hv
      subst hv
      cases h
      refine ⟨rfl, g, E, next, (VisitOk.single_same hinv hn hb).inv, hm.single_same hb, ?_, hgap⟩
      exact ⟨n, s, hn, hl, hk, body_perform_single (hinv.lt_length hn)⟩
    | internal _ _ =>
      rw [hr.internal hb] at hv
      obtain ⟨v', g', c, sc, hv', hvok, hm', hout, hgc, -, hcov, hnar⟩ :=
        splitDescend_narrows (R := R) hinv hm hn hb hk ht
      rw [hv, Option.some.injEq] at hv'
      subst hv'
      rw [hout] at h
      obtain ⟨E', next', ht', hiff, -⟩ := hnar.target
      exact descend_stuck hr hvok.inv hm' hgc hcov ht' (hiff.mpr hgap) h

theorem retryLoop_stuck (hr : RetryVisit visit key) {count : R → BTree → BTree} :
    ∀ {fuel : Nat} {t : BTree} {g : Spans} {E : List (Bytes × Bytes)} {next : Option NodeId},
      Inv t g → Holds t g m → TargetAt t g key E next → gapIn E next key →
      retryLoop (fun fuel t n => descendFrom visit fuel t n) count fuel t = none
  | 0, _, _, _, _, _, _, _, _ => rfl
  | fuel + 1, t, g, E, next, hinv, hm, ht, hgap => by
    rw [retryLoop]
    split
    · obtain ⟨l, -, hinv'⟩ := hinv.wrapRoot
      exact retryLoop_stuck hr hinv' (hm.wrapRoot hinv) (ht.wrapRoot hinv) hgap
    · obtain ⟨l, hroot, -⟩ := hinv.root
      cases hd : descendFrom visit fuel t t.root with
      | none => rfl
      | some p =>
        obtain ⟨t', o⟩ := p
        obtain ⟨rfl, g', E', next', hinv', hm', ht', hgap'⟩ := descend_stuck hr hinv hm hroot
          ⟨bot_lt_fence key, (fence_lt_top key).le⟩ ht hgap hd
        exact retryLoop_stuck hr hinv' hm' ht' hgap'

/-- Without a gap a descent is done or has halved a full target leaf. -/
theorem descend_progress (hr : RetryVisit visit key) :
    ∀ (fuel : Nat) {t : BTree} {g : Spans} {n : NodeId} {s : Span} {E : List (Bytes × Bytes)}
      {next : Option NodeId}, Inv t g → Holds t g m → g n = some s → s.Covers key →
      TargetAt t g key E next → ¬ gapIn E next key → s.level < fuel →
      (∃ t' r, descendFrom visit fuel t n = some (t', some r)) ∨
        (∃ t' g' E' next', descendFrom visit fuel t n = some (t', none) ∧ Inv t' g' ∧
          Holds t' g' m ∧ TargetAt t' g' key E' next' ∧ ¬ gapIn E' next' key ∧
          maxKeys ≤ E'.length ∧ E'.length ≤ E.length ∧ (0 < s.level → E'.length < E.length))
  | 0, _, _, _, _, _, _, _, _, _, _, _, _, hf => by omega
  | fuel + 1, t, g, n, s, E, next, hinv, hm, hn, hk, ht, hgap, hf => by
    obtain ⟨b, hb, hok⟩ := hinv.body n s hn
    cases hok with
    | @leaf E' next' hl hs _ _ =>
      obtain ⟨rfl, rfl⟩ := ht.unique hinv ⟨n, s, hn, hl, hk, hb⟩
      rcases hr.settled hs hb hgap with ⟨b', r, hv⟩ | ⟨hfull, hv⟩
      · exact Or.inl ⟨_, r, by rw [descendFrom, hv]; rfl⟩
      · refine Or.inr ⟨_, g, E, next, by rw [descendFrom, hv]; rfl,
          (VisitOk.single_same hinv hn hb).inv, hm.single_same hb, ?_, hgap, hfull, le_rfl,
          by omega⟩
        exact ⟨n, s, hn, hl, hk, body_perform_single (hinv.lt_length hn)⟩
    | @internal keys children l hl hseg =>
      obtain ⟨v, g', c, sc, hv, hvok, hm', hout, hgc, hlev, hcov, hnar⟩ :=
        splitDescend_narrows (R := R) hinv hm hn hb hk ht
      obtain ⟨E', next', ht', hiff, hhalf, hle⟩ := hnar.target
      have heq : descendFrom visit (fuel + 1) t n = descendFrom visit fuel (t.perform v) c := by
        rw [descendFrom, hr.internal hb, hv]
        simp only [Option.bind_eq_bind, Option.bind_some, hout]
      rw [heq]
      rcases descend_progress hr fuel hvok.inv hm' hgc hcov ht' (fun hg => hgap (hiff.mp hg))
        (by omega) with hdone | ⟨t'', g'', E'', next'', hd, h1, h2, h3, h4, h5, h6, h7⟩
      · exact Or.inl hdone
      · refine Or.inr ⟨t'', g'', E'', next'', hd, h1, h2, h3, h4, h5, h6.trans hle, fun _ => ?_⟩
        by_cases hsc : 0 < sc.level
        · exact (h7 hsc).trans_le hle
        · exact h6.trans_lt (hhalf (by omega) (h5.trans h6))

theorem keyCount_wrapRoot {t : BTree} : t.wrapRoot.keyCount t.wrapRoot.root = 0 := by
  have hb : t.wrapRoot.body t.wrapRoot.root = some (newInternal [] [t.root]) :=
    List.getElem?_concat_length
  rw [keyCount, hb]
  rfl

/-- More fuel does not change what a descent returns. -/
theorem descendFrom_mono {t : BTree} {n : NodeId} {x : BTree × Option R} : ∀ {fuel fuel' : Nat},
    fuel ≤ fuel' → descendFrom visit fuel t n = some x → descendFrom visit fuel' t n = some x
  | 0, _, _, h => by simp [descendFrom] at h
  | fuel + 1, 0, hle, _ => by omega
  | fuel + 1, fuel' + 1, hle, h => by
    rw [descendFrom, Option.bind_eq_bind] at h ⊢
    obtain ⟨v, hv, h⟩ := Option.bind_eq_some_iff.mp h
    rw [hv, Option.bind_some]
    cases ho : v.outcome with
    | done r => rwa [ho] at h
    | restart => rwa [ho] at h
    | descend c =>
      rw [ho] at h
      exact descendFrom_mono (by omega) h

/-- Without a gap the loop returns: every restart halves the target leaf. -/
theorem retryLoop_returns (hr : RetryVisit visit key) (count : R → BTree → BTree) :
    ∀ (size : Nat) {t : BTree} {g : Spans} {E : List (Bytes × Bytes)} {next : Option NodeId},
      Inv t g → Holds t g m → TargetAt t g key E next → ¬ gapIn E next key → E.length < size →
      ∃ bound, ∀ fuel, bound ≤ fuel →
        (retryLoop (fun fuel t n => descendFrom visit fuel t n) count fuel t).isSome := by
  intro size
  induction size with
  | zero => intro t g E next _ _ _ _ hsize; omega
  | succ size ih =>
    intro t g E next hinv hm ht hgap hsize
    -- first with room in the root
    have room : ∀ {t : BTree} {g : Spans}, Inv t g → Holds t g m → TargetAt t g key E next →
        ¬ maxKeys ≤ t.keyCount t.root → ∃ bound, ∀ fuel, bound ≤ fuel →
          (retryLoop (fun fuel t n => descendFrom visit fuel t n) count fuel t).isSome := by
      intro t g hinv hm ht hroom
      obtain ⟨l, hroot, -⟩ := hinv.root
      have hcov : (⟨⊥, ⊤, l⟩ : Span).Covers key := ⟨bot_lt_fence key, (fence_lt_top key).le⟩
      rcases descend_progress hr (l + 1) hinv hm hroot hcov ht hgap
          (Nat.lt_succ_self l) with ⟨t', r, hd⟩ | ⟨t', g', E', next', hd, h1, h2, h3, h4, h5, h6, h7⟩
      · refine ⟨l + 2, fun fuel hf => ?_⟩
        obtain ⟨fuel, rfl⟩ : ∃ f, fuel = f + 1 := ⟨fuel - 1, by omega⟩
        rw [retryLoop, if_neg hroom, descendFrom_mono (by omega) hd]
        rfl
      · have hlt : E'.length < E.length := by
          by_cases hl : 0 < l
          · exact h7 hl
          · -- a root leaf with room is the target and does not restart
            obtain ⟨b, hb, hok⟩ := hinv.body _ _ hroot
            cases hok with
            | @leaf E0 next0 _ _ _ _ =>
              obtain ⟨rfl, rfl⟩ := ht.unique hinv ⟨_, _, hroot, by simp only; omega, hcov, hb⟩
              rw [keyCount, hb] at hroom
              simp only [Option.elim_some, NodeBody.keyCount, leafBody, newLeafWith,
                List.length_map] at hroom
              omega
            | internal hl' _ =>
              simp only at hl'
              omega
        obtain ⟨bound, hbound⟩ := ih h1 h2 h3 h4 (by omega)
        refine ⟨max bound (l + 1) + 1, fun fuel hf => ?_⟩
        obtain ⟨fuel, rfl⟩ : ∃ f, fuel = f + 1 := ⟨fuel - 1, by omega⟩
        rw [retryLoop, if_neg hroom, descendFrom_mono (by omega) hd]
        exact hbound fuel (by omega)
    by_cases hroom : maxKeys ≤ t.keyCount t.root
    · obtain ⟨l, -, hinv'⟩ := hinv.wrapRoot
      obtain ⟨bound, hbound⟩ := room hinv' (hm.wrapRoot hinv) (ht.wrapRoot hinv)
        (by rw [keyCount_wrapRoot]; decide)
      refine ⟨bound + 1, fun fuel hf => ?_⟩
      obtain ⟨fuel, rfl⟩ : ∃ f, fuel = f + 1 := ⟨fuel - 1, by omega⟩
      rw [retryLoop, if_pos hroom]
      exact hbound fuel (by omega)
    · exact room hinv hm ht hroom

theorem retryLoop_returns_iff (hr : RetryVisit visit key) {count : R → BTree → BTree} {t : BTree}
    (h : Stores t m) :
    (∃ fuel x, retryLoop (fun fuel t n => descendFrom visit fuel t n) count fuel t = some x) ↔
      ¬ Gap t key := by
  obtain ⟨g, hinv, hm⟩ := h
  obtain ⟨E, next, ht⟩ := exists_target hinv key
  rw [gap_iff hinv ht]
  constructor
  · rintro ⟨fuel, x, hx⟩ hgap
    rw [retryLoop_stuck hr hinv hm ht hgap] at hx
    cases hx
  · intro hgap
    obtain ⟨bound, hbound⟩ := retryLoop_returns hr count (E.length + 1) hinv hm ht hgap
      (Nat.lt_succ_self _)
    obtain ⟨x, hx⟩ := Option.isSome_iff_exists.mp (hbound bound le_rfl)
    exact ⟨bound, x, hx⟩

end Loops

/-- The even keys up to 256 split the root leaf at 126.  Key 1 lets the left
leaf lose its last key without an underflow. -/
def gapOps : List Op :=
  (List.range 129).map (fun i => .insert (keyAt (2 * i)) []) ++
    [.insert (keyAt 1) [], .remove (keyAt 126)]

/-- The tree has a gap at `key`, tested with fuel. -/
def gapTest (fuel : Nat) (key : Bytes) (t : BTree) : Bool :=
  match t.leafFor key fuel t.root with
  | some (keys, some _) => keys ≠ [] ∧ keys.getLastD [] < key
  | _ => false

theorem gap_of_gapTest {fuel : Nat} {t : BTree} (h : gapTest fuel key t = true) :
    Gap t key := by
  unfold gapTest at h
  split at h
  · next keys next hleaf =>
    rw [decide_eq_true_iff] at h
    exact ⟨fuel, keys, next, hleaf, h.1, h.2⟩
  · cases h

set_option maxRecDepth 10000 in
theorem gapTest_gapOps :
    ((runOps 8 new gapOps).map fun x =>
      (gapTest 8 (keyAt 126) x.1, (x.1.insert 8 (keyAt 3) []).isSome)) = some (true, true) := by
  decide +kernel

/-- After any history, `insert` and `upsert` of a key return exactly when the
key is not in a gap of the tree. -/
theorem insert_upsert_return_iff {l : List (Op × OpResult)} {t : BTree} (h : Run new l t)
    (key val : Bytes) :
    ((∃ fuel x, t.insert fuel key val = some x) ↔ ¬ Gap t key) ∧
      ((∃ fuel x, t.upsert fuel key val = some x) ↔ ¬ Gap t key) := by
  obtain ⟨-, hst⟩ := h.stores stores_new
  exact ⟨retryLoop_returns_iff insertVisit_retry hst, retryLoop_returns_iff upsertVisit_retry hst⟩

/-- In a tree of two leaves, one of them behind a gap: key 3 of the left leaf is in no
gap, as the insert shows, so the upsert returns too; the upsert of key 126 does not. -/
theorem insert_upsert_return_iff_gapOps :
    ∃ l t, Run new l t ∧ (∃ fuel x, t.upsert fuel (keyAt 3) [] = some x) ∧
      ¬ ∃ fuel x, t.upsert fuel (keyAt 126) [] = some x := by
  obtain ⟨⟨t, l⟩, hrun, htests⟩ := Option.map_eq_some_iff.mp gapTest_gapOps
  simp only [Prod.mk.injEq] at htests
  have hhist := run_of_runOps hrun
  obtain ⟨x, hinsert⟩ := Option.isSome_iff_exists.mp htests.2
  have hthree := (insert_upsert_return_iff hhist (keyAt 3) []).1.mp ⟨8, x, hinsert⟩
  refine ⟨l, t, hhist, (insert_upsert_return_iff hhist (keyAt 3) []).2.mpr hthree, fun hreturns => ?_⟩
  exact (insert_upsert_return_iff hhist (keyAt 126) []).2.mp hreturns (gap_of_gapTest htests.1)


/-- Reinserting the key that was the separator never returns, neither by
`insert` nor by `upsert`. -/
theorem reinsert_separator_hangs :
    ∃ l t, Run new l t ∧ (∀ fuel, t.insert fuel (keyAt 126) [] = none) ∧
      ∀ fuel, t.upsert fuel (keyAt 126) [] = none := by
  obtain ⟨⟨t, l⟩, hrun, htests⟩ := Option.map_eq_some_iff.mp gapTest_gapOps
  simp only [Prod.mk.injEq] at htests
  have hhist := run_of_runOps hrun
  have hgap := gap_of_gapTest htests.1
  obtain ⟨-, hst⟩ := hhist.stores stores_new
  refine ⟨l, t, hhist, fun fuel => ?_, fun fuel => ?_⟩
  · rcases h : t.insert fuel (keyAt 126) [] with _ | x
    · rfl
    · exact absurd hgap ((retryLoop_returns_iff insertVisit_retry hst).mp ⟨fuel, x, h⟩)
  · rcases h : t.upsert fuel (keyAt 126) [] with _ | x
    · rfl
    · exact absurd hgap ((retryLoop_returns_iff upsertVisit_retry hst).mp ⟨fuel, x, h⟩)

end HenchDB.BTree
