import HenchDB.BTree.Refinement

/-!
# Range scans and the refinement theorem

A scan descends to the leaf of its start bound and walks the chain of leaves.
The walk carries the invariant that everything inside the bounds up to the
current leaf has been emitted, and it ends because the leaves ahead get fewer.
-/

namespace HenchDB.BTree

/-! ## Bounds -/

def Bounds.Contains (b : Bounds) (k : Bytes) : Prop :=
  (∀ lo ∈ b.start, lo < k ∨ (b.startIncl = true ∧ lo = k)) ∧
    ∀ hi ∈ b.stop, k < hi ∨ (b.stopIncl = true ∧ k = hi)

variable {b : Bounds} {k : Bytes} {m : Contents} {t : BTree}

theorem Bounds.contains_iff :
    b.Contains k ↔ b.before k = false ∧ b.past k = false := by
  refine and_congr ?_ ?_
  · cases hs : b.start with
    | none => simp [Bounds.before, hs]
    | some lo =>
      simp only [Option.mem_def, Option.some.injEq, forall_eq', Bounds.before, hs,
        decide_eq_false_iff_not, not_or, not_and, Bool.not_eq_false]
      constructor
      · rintro (h | ⟨h1, rfl⟩)
        · exact ⟨h.not_gt, fun he => absurd he h.ne'⟩
        · exact ⟨lt_irrefl _, fun _ => h1⟩
      · rintro ⟨h1, h2⟩
        rcases (not_lt.mp h1).lt_or_eq with h | h
        · exact Or.inl h
        · exact Or.inr ⟨h2 h.symm, h⟩
  · cases hs : b.stop with
    | none => simp [Bounds.past, hs]
    | some hi =>
      simp only [Option.mem_def, Option.some.injEq, forall_eq', Bounds.past, hs,
        decide_eq_false_iff_not, not_or, not_and, Bool.not_eq_false]
      constructor
      · rintro (h | ⟨h1, rfl⟩)
        · exact ⟨h.not_gt, fun he => absurd he h.ne⟩
        · exact ⟨lt_irrefl _, fun _ => h1⟩
      · rintro ⟨h1, h2⟩
        rcases (not_lt.mp h1).lt_or_eq with h | h
        · exact Or.inl h
        · exact Or.inr ⟨h2 h, h⟩

/-- Past the end bound there is no way back. -/
theorem Bounds.past_of_le {k' : Bytes} (h : b.past k = true) (hle : k ≤ k') :
    b.past k' = true := by
  cases hs : b.stop with
  | none => simp [Bounds.past, hs] at h
  | some hi =>
    simp only [Bounds.past, hs, decide_eq_true_iff] at h ⊢
    rcases h with h | ⟨rfl, h⟩
    · exact Or.inl (h.trans_le hle)
    · rcases hle.lt_or_eq with hlt | rfl
      · exact Or.inl hlt
      · exact Or.inr ⟨rfl, h⟩

/-! ## One leaf -/

/-- The scan emits the key: it is inside the bounds and past the last one. -/
def emits (b : Bounds) (last : Option Bytes) (k : Bytes) : Bool :=
  !last.any (k ≤ ·) && !b.before k && !b.past k

theorem emits_iff {last : Option Bytes} :
    emits b last k = true ↔ (∀ l ∈ last, l < k) ∧ b.Contains k := by
  rw [Bounds.contains_iff, emits]
  cases last with
  | none => simp
  | some l => simp [and_assoc]

/-- What the loop over the entries of one leaf emits. -/
theorem scanEntries_out : ∀ {E : List (Bytes × Bytes)} {acc : ScanAcc},
    (E.map Prod.fst).Pairwise (· < ·) →
      (scanEntries b E acc).1.out = acc.out ++ E.filter (fun e => emits b acc.lastKey e.1)
  | [], acc, _ => by simp [scanEntries]
  | (k, v) :: E, acc, hs => by
    rw [List.map_cons, List.pairwise_cons] at hs
    rw [scanEntries]
    by_cases hlast : acc.lastKey.any (k ≤ ·) = true
    · rw [if_pos hlast, scanEntries_out hs.2, List.filter_cons_of_neg (by simp [emits, hlast])]
    rw [if_neg hlast]
    by_cases hbefore : b.before k = true
    · rw [if_pos hbefore, scanEntries_out hs.2,
        List.filter_cons_of_neg (by simp [emits, hbefore])]
    rw [if_neg hbefore]
    by_cases hpast : b.past k = true
    · -- everything behind the end bound is filtered out
      have hnil : ((k, v) :: E).filter (fun e => emits b acc.lastKey e.1) = [] := by
        rw [List.filter_eq_nil_iff]
        intro e he
        have hle : k ≤ e.1 := by
          rcases List.mem_cons.mp he with rfl | he
          · exact le_rfl
          · exact (hs.1 e.1 (List.mem_map_of_mem he)).le
        simp [emits, Bounds.past_of_le hpast hle]
      rw [if_pos hpast, hnil, List.append_nil]
    · rw [if_neg hpast, scanEntries_out hs.2,
        List.filter_cons_of_pos (by simp [emits, hlast, hbefore, hpast])]
      -- later keys are past the new last key as they were past the old one
      have hsame : E.filter (fun e => emits b (some k) e.1) =
          E.filter (fun e => emits b acc.lastKey e.1) := by
        refine List.filter_congr fun e he => ?_
        have hlt : k < e.1 := hs.1 e.1 (List.mem_map_of_mem he)
        have hany : acc.lastKey.any (e.1 ≤ ·) = false := by
          cases hl : acc.lastKey with
          | none => rfl
          | some l =>
            have hlk : l < k := by simpa [hl] using hlast
            simpa using hlk.trans hlt
        have hle : decide (e.1 ≤ k) = false := decide_eq_false hlt.not_ge
        simp [emits, hany, hle]
      rw [hsame]
      simp

/-- The last emitted key only grows, and comes from the leaf when it changes. -/
theorem scanEntries_lastKey : ∀ {E : List (Bytes × Bytes)} {acc : ScanAcc} {l : Bytes},
    l ∈ (scanEntries b E acc).1.lastKey → l ∈ acc.lastKey ∨ l ∈ E.map Prod.fst
  | [], _, _, h => Or.inl h
  | (k, v) :: E, acc, l, h => by
    rw [List.map_cons, List.mem_cons]
    rw [scanEntries] at h
    split at h
    · exact (scanEntries_lastKey h).imp_right Or.inr
    split at h
    · exact (scanEntries_lastKey h).imp_right Or.inr
    split at h
    · exact Or.inl h
    · rcases scanEntries_lastKey h with h' | h'
      · exact Or.inr (Or.inl (Option.some.inj h').symm)
      · exact Or.inr (Or.inr h')

/-- An early return means that the leaf reaches past the end bound. -/
theorem scanEntries_past : ∀ {E : List (Bytes × Bytes)} {acc : ScanAcc},
    (scanEntries b E acc).2 = true → ∃ k ∈ E.map Prod.fst, b.past k = true
  | [], _, h => by simp [scanEntries] at h
  | (k, v) :: E, acc, h => by
    rw [scanEntries] at h
    split at h
    · obtain ⟨k', hk', hp⟩ := scanEntries_past h
      exact ⟨k', by simp [hk'], hp⟩
    split at h
    · obtain ⟨k', hk', hp⟩ := scanEntries_past h
      exact ⟨k', by simp [hk'], hp⟩
    split at h
    · next hp => exact ⟨k, by simp, hp⟩
    · obtain ⟨k', hk', hp⟩ := scanEntries_past h
      exact ⟨k', by simp [hk'], hp⟩

theorem mem_iff_lookup : ∀ {E : List (Bytes × Bytes)}, (E.map Prod.fst).Pairwise (· < ·) →
    ∀ {k v : Bytes}, (k, v) ∈ E ↔ E.lookup k = some v
  | [], _, _, _ => by simp
  | (k', v') :: E, hs, k, v => by
    rw [List.map_cons, List.pairwise_cons] at hs
    by_cases hk : k = k'
    · subst hk
      rw [List.lookup_cons_self, Option.some.injEq, List.mem_cons, Prod.mk.injEq]
      constructor
      · rintro (⟨-, rfl⟩ | hmem)
        · rfl
        · exact absurd (hs.1 k (List.mem_map_of_mem (f := Prod.fst) hmem)) (lt_irrefl k)
      · rintro rfl
        exact Or.inl ⟨rfl, rfl⟩
    · have hbeq : (k == k') = false := by simpa using hk
      rw [List.lookup_cons, hbeq, List.mem_cons, Prod.mk.injEq, mem_iff_lookup hs.2]
      simp [hk]

/-! ## The leaf walk -/

/-- The entries of the map inside the bounds, in order. -/
structure RangeSpec (m : Contents) (b : Bounds) (out : List (Bytes × Bytes)) : Prop where
  sorted : (out.map Prod.fst).Pairwise (· < ·)
  exact : ∀ k v, (k, v) ∈ out ↔ m k = some v ∧ b.Contains k

/-- A map and bounds determine the list. -/
theorem RangeSpec.unique {out out' : List (Bytes × Bytes)} (h : RangeSpec m b out)
    (h' : RangeSpec m b out') : out = out' := by
  have hs := List.pairwise_map.mp h.sorted
  have hs' := List.pairwise_map.mp h'.sorted
  have hperm : out.Perm out' := by
    refine (List.perm_ext_iff_of_nodup (hs.imp fun hab => ?_) (hs'.imp fun hab => ?_)).mpr ?_
    · exact fun he => absurd hab (by simp [he])
    · exact fun he => absurd hab (by simp [he])
    · rintro ⟨k, v⟩
      rw [h.exact, h'.exact]
  refine hperm.eq_of_pairwise (fun a c _ _ hac hca => ?_) hs hs'
  exact absurd hac hca.not_gt

/-- Everything inside the bounds up to `lo` has been emitted. -/
structure ScanOk (m : Contents) (b : Bounds) (acc : ScanAcc) (lo : Fence) : Prop where
  sorted : (acc.out.map Prod.fst).Pairwise (· < ·)
  last : ∀ l ∈ acc.lastKey, fence l ≤ lo
  exact : ∀ k v, (k, v) ∈ acc.out ↔ m k = some v ∧ b.Contains k ∧ fence k ≤ lo

theorem zip_entries (E : List (Bytes × Bytes)) : (E.map Prod.fst).zip (E.map Prod.snd) = E := by
  simp only [List.zip_map', List.map_id']

theorem scanNode_leaf {acc : ScanAcc} {E : List (Bytes × Bytes)} {next : Option NodeId} :
    scanNode b acc (leafBody E next) =
      if (scanEntries b E acc).2 then ((scanEntries b E acc).1, none)
      else ((scanEntries b E acc).1, next) := by
  simp only [scanNode, leafBody, newLeafWith, zip_entries]
  rcases scanEntries b E acc with ⟨acc', _ | _⟩ <;> rfl

section Walk

variable {t : BTree} {g : Spans} {m : Contents} {b : Bounds}

/-- Scanning a leaf extends what has been emitted to the end of its span. -/
theorem ScanOk.leaf (h : Inv t g) (hm : Holds t g m) {n : NodeId} {s : Span}
    {E : List (Bytes × Bytes)} {next : Option NodeId} {acc : ScanAcc} (hn : g n = some s)
    (hb : t.body n = some (leafBody E next)) (ha : ScanOk m b acc s.lo) :
    ScanOk m b (scanEntries b E acc).1 s.hi := by
  obtain ⟨-, hE, -⟩ := h.leaf hn hb
  have hemit : ∀ k ∈ E.map Prod.fst, (emits b acc.lastKey k = true ↔ b.Contains k) := by
    intro k hk
    rw [emits_iff, and_iff_right_iff_imp]
    exact fun _ l hl => fence_lt_fence.mp ((ha.last l hl).trans_lt (hE.inside k hk).1)
  refine ⟨?_, fun l hl => ?_, fun k v => ?_⟩
  · rw [scanEntries_out hE.sorted, List.map_append, List.pairwise_append]
    refine ⟨ha.sorted, ?_, fun k hk k' hk' => ?_⟩
    · exact List.Pairwise.sublist (List.filter_sublist.map _) hE.sorted
    · obtain ⟨e, he, rfl⟩ := List.mem_map.mp hk
      obtain ⟨e', he', rfl⟩ := List.mem_map.mp hk'
      have h1 := ((ha.exact e.1 e.2).mp he).2.2
      have h2 := hE.inside e'.1 (List.mem_map_of_mem (List.mem_of_mem_filter he'))
      exact fence_lt_fence.mp (h1.trans_lt h2.1)
  · rcases scanEntries_lastKey hl with hl' | hl'
    · exact (ha.last l hl').trans (h.proper n s hn).le
    · exact (hE.inside l hl').2
  · rw [scanEntries_out hE.sorted, List.mem_append, ha.exact, List.mem_filter]
    constructor
    · rintro (⟨h1, h2, h3⟩ | ⟨hmem, hem⟩)
      · exact ⟨h1, h2, h3.trans (h.proper n s hn).le⟩
      · have hkE : k ∈ E.map Prod.fst := List.mem_map_of_mem (f := Prod.fst) hmem
        have hin := hE.inside k hkE
        refine ⟨?_, (hemit k hkE).mp hem, hin.2⟩
        rw [← hm n s E next hn hb k hin]
        exact (mem_iff_lookup hE.sorted).mp hmem
    · rintro ⟨h1, h2, h3⟩
      by_cases hlo : fence k ≤ s.lo
      · exact Or.inl ⟨h1, h2, hlo⟩
      · refine Or.inr ?_
        have hmem : (k, v) ∈ E := by
          rw [mem_iff_lookup hE.sorted, hm n s E next hn hb k ⟨not_le.mp hlo, h3⟩, h1]
        exact ⟨hmem, (hemit k (List.mem_map_of_mem (f := Prod.fst) hmem)).mpr h2⟩

/-- The walk is over when no key inside the bounds lies behind. -/
theorem ScanOk.finish {acc : ScanAcc} {lo : Fence} (ha : ScanOk m b acc lo)
    (hend : ∀ k, b.Contains k → fence k ≤ lo) : RangeSpec m b acc.out := by
  refine ⟨ha.sorted, fun k v => ?_⟩
  rw [ha.exact]
  exact ⟨fun hk => ⟨hk.1, hk.2.1⟩, fun hk => ⟨hk.1, hk.2, hend k hk.2⟩⟩

open Classical in
/-- The number of leaves that start after `lo`. -/
noncomputable def ahead (t : BTree) (g : Spans) (lo : Fence) : Nat :=
  ((Finset.range t.nodes.length).filter fun n =>
    ∃ s, g n = some s ∧ s.level = 0 ∧ lo < s.lo).card

/-- Walking to the next leaf leaves fewer leaves ahead. -/
theorem ahead_next (h : Inv t g) {n : NodeId} {s : Span} {lo : Fence} (hn : g n = some s)
    (hl : s.level = 0) (hlo : lo < s.lo) : ahead t g s.lo < ahead t g lo := by
  refine Finset.card_lt_card (Finset.ssubset_iff_of_subset ?_ |>.mpr ⟨n, ?_, ?_⟩)
  · intro n' hn'
    rw [Finset.mem_filter] at hn' ⊢
    obtain ⟨h1, s', h2, h3, h4⟩ := hn'
    exact ⟨h1, s', h2, h3, hlo.trans h4⟩
  · rw [Finset.mem_filter]
    exact ⟨Finset.mem_range.mpr (h.lt_length hn), s, hn, hl, hlo⟩
  · rw [Finset.mem_filter]
    rintro ⟨-, s', hn', -, hlt⟩
    rw [hn, Option.some.injEq] at hn'
    subst hn'
    exact absurd hlt (lt_irrefl _)

theorem scanFrom_spec (h : Inv t g) (hm : Holds t g m) :
    ∀ (fuel : Nat) {n : NodeId} {s : Span} {acc : ScanAcc}, g n = some s → s.level = 0 →
      ScanOk m b acc s.lo → ahead t g s.lo < fuel →
      ∃ out, scanFrom t b fuel n acc = some out ∧ RangeSpec m b out
  | 0, _, _, _, _, _, _, hf => by omega
  | fuel + 1, n, s, acc, hn, hl, ha, hf => by
    obtain ⟨bd, hb, hok⟩ := h.body n s hn
    cases hok with
    | internal hl' _ => omega
    | @leaf E next _ _ _ hnext =>
      have hstep := ha.leaf h hm hn hb
      rw [scanFrom, hb]
      simp only [Option.bind_eq_bind, Option.bind_some, scanNode_leaf]
      by_cases hpast : (scanEntries b E acc).2 = true
      · rw [if_pos hpast]
        refine ⟨_, rfl, hstep.finish fun k hk => ?_⟩
        obtain ⟨k', hk', hp⟩ := scanEntries_past hpast
        by_contra hlt
        have hle : k' ≤ k := fence_le_fence.mp
          (((h.leaf hn hb).2.1.inside k' hk').2.trans (not_le.mp hlt).le)
        rw [Bounds.contains_iff, Bounds.past_of_le hp hle] at hk
        exact absurd hk.2 (by simp)
      · rw [if_neg hpast]
        cases next with
        | none =>
          have htop : s.hi = ⊤ := hnext
          exact ⟨_, rfl, hstep.finish fun k _ => htop ▸ le_top⟩
        | some n' =>
          obtain ⟨hi', hn'⟩ := hnext
          have hless := ahead_next h hn' rfl (h.proper n s hn)
          exact scanFrom_spec h hm fuel (s := ⟨s.hi, hi', 0⟩) hn' rfl hstep (by
            simp only at hless ⊢
            omega)

/-- The descent of `range` ends at a leaf with nothing inside the bounds
before it. -/
theorem rangeFrom_spec (h : Inv t g) : ∀ (fuel : Nat) {n : NodeId} {s : Span}, g n = some s →
    (∀ k, b.Contains k → s.lo < fence k) → (∀ k ∈ b.start, s.Covers k) → s.level < fuel →
    ∃ n' s', rangeFrom t b fuel n = some n' ∧ g n' = some s' ∧ s'.level = 0 ∧
      ∀ k, b.Contains k → s'.lo < fence k
  | 0, _, _, _, _, _, hf => by omega
  | fuel + 1, n, s, hn, hlo, hcov, hf => by
    obtain ⟨bd, hb, hok⟩ := h.body n s hn
    cases hok with
    | leaf hl _ _ _ => exact ⟨n, s, by simp [rangeFrom, hb, rangeNode, leafBody, newLeafWith], hn,
        hl, hlo⟩
    | @internal keys children l hl hseg =>
      obtain ⟨c, sc, hnode, hgc, hlev, hlo', hcov'⟩ : ∃ c sc,
          rangeNode b (newInternal keys children) = some (.descend c) ∧ g c = some sc ∧
          sc.level = l ∧ (∀ k, b.Contains k → sc.lo < fence k) ∧ ∀ k ∈ b.start, sc.Covers k := by
        have hlen := hseg.length_eq
        rw [length_fencesOf] at hlen
        have hne : children ≠ [] := by
          rintro rfl
          simp at hlen
        cases hstart : b.start with
        | none =>
          obtain ⟨c, cs, rfl⟩ := List.exists_cons_of_ne_nil hne
          obtain ⟨f, F, hF⟩ := exists_fencesOf keys s.hi
          rw [hF] at hseg
          exact ⟨c, _, by simp [rangeNode, newInternal, hstart], hseg.1, rfl, hlo, by simp⟩
        | some k0 =>
          obtain ⟨c, sc, hget, hgc, hlev, hck⟩ := h.descend hn hb (hcov k0 hstart)
          have hlt := (List.getElem?_eq_some_iff.mp hget).1
          refine ⟨c, sc, ?_, hgc, by omega, fun k hk => ?_, ?_⟩
          · simp only [rangeNode, newInternal, hstart]
            rw [if_neg hne, min_eq_left (by omega), hget, Option.map_some]
          · have hle : k0 ≤ k := by
              rcases hk.1 k0 hstart with hlt' | ⟨-, rfl⟩
              · exact hlt'.le
              · exact le_rfl
            exact hck.1.trans_le (fence_le_fence.mpr hle)
          · rintro k ⟨⟩
            exact hck
      obtain ⟨n', s', h1, h2⟩ := rangeFrom_spec h fuel hgc hlo' hcov' (by omega)
      exact ⟨n', s', by simpa [rangeFrom, hb, hnode] using h1, h2⟩

end Walk

/-- `range` returns the entries of the map inside the bounds, in order. -/
theorem Stores.range (h : Stores t m) (b : Bounds) :
    ∃ out bound, RangeSpec m b out ∧ ∀ fuel, bound ≤ fuel → BTree.range fuel t b = some out := by
  obtain ⟨g, hinv, hm⟩ := h
  obtain ⟨l, hr, -⟩ := hinv.root
  have hrun : ∀ fuel, l + 1 + (t.nodes.length + 1) ≤ fuel →
      ∃ out, BTree.range fuel t b = some out ∧ RangeSpec m b out := by
    intro fuel hf
    obtain ⟨n, s, hfrom, hn, hl, hlo⟩ := rangeFrom_spec (b := b) hinv fuel hr
      (fun k _ => bot_lt_fence k) (fun k _ => ⟨bot_lt_fence k, (fence_lt_top k).le⟩)
      (by show l < fuel; omega)
    have hstart : ScanOk m b ⟨none, []⟩ s.lo := by
      refine ⟨List.Pairwise.nil, by simp, fun k v => ⟨by simp, fun hk => ?_⟩⟩
      exact absurd hk.2.2 (not_le.mpr (hlo k hk.2.1))
    have hfew : ahead t g s.lo ≤ t.nodes.length := by
      refine (Finset.card_filter_le _ _).trans ?_
      rw [Finset.card_range]
    obtain ⟨out, hscan, hspec⟩ := scanFrom_spec hinv hm fuel hn hl hstart (by omega)
    exact ⟨out, by simp [BTree.range, hfrom, hscan], hspec⟩
  obtain ⟨out, -, hspec⟩ := hrun _ le_rfl
  refine ⟨out, l + 1 + (t.nodes.length + 1), hspec, fun fuel hf => ?_⟩
  obtain ⟨out', hout', hspec'⟩ := hrun fuel hf
  rw [hout', hspec.unique hspec']

/-! ## Whole histories -/

/-- An operation on a map: what it returns and the map it leaves. -/
def Op.onMap (m : Contents) : Op → OpResult × Contents
  | .insert k v =>
    (.inserted (m k).isNone, if (m k).isNone then Function.update m k (some v) else m)
  | .upsert k v => (.previous (m k), Function.update m k (some v))
  | .updateInPlace k v =>
    (.previous (m k), if (m k).isSome then Function.update m k (some v) else m)
  | .remove k => (.previous (m k), Function.update m k none)

def mapAfter (ops : List Op) (m : Contents) : Contents :=
  ops.foldl (fun m op => (op.onMap m).2) m

def mapResults : List Op → Contents → List OpResult
  | [], _ => []
  | op :: ops, m => (op.onMap m).1 :: mapResults ops (op.onMap m).2

theorem mapAfter_concat (ops : List Op) (op : Op) (m : Contents) :
    mapAfter (ops ++ [op]) m = (op.onMap (mapAfter ops m)).2 := by
  simp [mapAfter]

theorem mapResults_concat : ∀ (ops : List Op) (op : Op) (m : Contents),
    mapResults (ops ++ [op]) m = mapResults ops m ++ [(op.onMap (mapAfter ops m)).1]
  | [], _, _ => rfl
  | op' :: ops, op, m => by
    simp only [List.cons_append, mapResults, mapResults_concat ops op]
    rfl

/-- One returned operation does to the tree what it does to the map. -/
theorem Stores.returns {t' : BTree} {op : Op} {r : OpResult} (h : Stores t m)
    (hop : Returns t op t' r) : r = (op.onMap m).1 ∧ Stores t' (op.onMap m).2 := by
  refine hop.elim (P := fun op r => r = (op.onMap m).1 ∧ Stores t' (op.onMap m).2)
    (fun hi => ?_) (fun hi => ?_) (fun hi => ?_) (fun hi => ?_)
  · obtain ⟨m', ⟨rfl, rfl⟩, hst⟩ := h.insert hi
    exact ⟨rfl, hst⟩
  · obtain ⟨m', ⟨rfl, rfl⟩, hst⟩ := h.upsert hi
    exact ⟨rfl, hst⟩
  · obtain ⟨m', ⟨rfl, rfl⟩, hst⟩ := h.updateInPlace hi
    exact ⟨rfl, hst⟩
  · obtain ⟨m', ⟨rfl, rfl⟩, hst⟩ := h.remove hi
    exact ⟨rfl, hst⟩

/-- A history leaves the tree of the map it leaves, with the same results. -/
theorem Run.stores {t' : BTree} {l : List (Op × OpResult)} (h : Run t l t') (hst : Stores t m) :
    l.map Prod.snd = mapResults (l.map Prod.fst) m ∧ Stores t' (mapAfter (l.map Prod.fst) m) := by
  induction h with
  | nil => exact ⟨rfl, hst⟩
  | snoc hrun hret ih =>
    obtain ⟨ih1, ih2⟩ := ih
    obtain ⟨hr, hst'⟩ := ih2.returns hret
    simp only [List.map_append, List.map_cons, List.map_nil, mapResults_concat, mapAfter_concat]
    exact ⟨by rw [ih1, hr], hst'⟩

/-- Every history of returned operations on a fresh tree agrees with the map:
in its results, in every later lookup and in every later range scan. -/
theorem run_refines_map {l : List (Op × OpResult)} {t : BTree} (h : Run new l t) :
    l.map Prod.snd = mapResults (l.map Prod.fst) (fun _ => none) ∧
      (∀ k, ∃ bound, ∀ fuel, bound ≤ fuel →
        t.get fuel k = some (mapAfter (l.map Prod.fst) (fun _ => none) k)) ∧
      ∀ b, ∃ out bound, RangeSpec (mapAfter (l.map Prod.fst) fun _ => none) b out ∧
        ∀ fuel, bound ≤ fuel → t.range fuel b = some out := by
  obtain ⟨hres, hst⟩ := h.stores stores_new
  exact ⟨hres, hst.get, hst.range⟩

/-- A history of two inserts of one key. -/
theorem run_refines_map_of_inserts :
    ∃ t, Run new [(.insert [1] [7], .inserted true), (.insert [1] [8], .inserted false)] t ∧
      ∃ bound, ∀ fuel, bound ≤ fuel → t.get fuel [1] = some (some [7]) := by
  let t : BTree := { new with nodes := [newLeafWith [[1]] [[7]] none], entries := 1 }
  have h1 : Returns new (.insert [1] [7]) t (.inserted true) := ⟨2, by decide⟩
  have h2 : Returns t (.insert [1] [8]) t (.inserted false) := ⟨2, by decide⟩
  have h : Run new [(.insert [1] [7], .inserted true), (.insert [1] [8], .inserted false)] t :=
    ((Run.nil new).snoc h1).snoc h2
  exact ⟨t, h, (run_refines_map h).2.1 [1]⟩

end HenchDB.BTree
