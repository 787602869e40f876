import HenchDB.BTree.Get

/-!
# Range scans beside a writer

`BTree::range` in single steps.  The descent is that of a lookup, towards the
start bound.  The walk then copies one leaf after another, and on a failed
validation copies the same leaf again.  A leaf that gives its first entry to
its left neighbour, or is folded into it, takes keys behind the cursor.
`Spared` is the condition that this does not happen to the node the scan
stands at.  Splits, borrows from the left and the growth of a node do no harm.
-/

namespace HenchDB.BTree

open Relation (ReflTransGen)

/-! ## The scan -/

inductive ScanPc where
  /-- About to clone the root pointer. -/
  | start
  /-- Descending: holds a node, has not read its version. -/
  | poised (n : NodeId)
  | versioned (n : NodeId) (version : Nat)
  | read (n : NodeId) (version : Nat) (o : Outcome Unit)
  /-- Walking the leaves: holds a leaf, has not read its version. -/
  | cursor (n : NodeId) (acc : ScanAcc)
  | copying (n : NodeId) (version : Nat) (acc : ScanAcc)
  | copied (n : NodeId) (version : Nat) (acc : ScanAcc) (body : NodeBody)
  | done (out : List (Bytes × Bytes))
  | panicked
deriving DecidableEq

/-- One step of a scan.  `none` while it waits for a latch, and at the end. -/
def scanStep (b : Bounds) (s : Memory) : ScanPc → Option ScanPc
  | .start => some (.poised s.tree.root)
  | .poised n => if s.word n % 2 = 0 then some (.versioned n (s.word n)) else none
  | .versioned n version =>
    match (s.tree.body n).bind (rangeNode b) with
    | some o => some (.read n version o)
    | none => some .panicked
  | .read n version o =>
    if s.word n = version then
      match o with
      | .done _ => some (.cursor n ⟨none, []⟩)
      | .descend c => some (.poised c)
      | .restart => none
    else some .start
  | .cursor n acc => if s.word n % 2 = 0 then some (.copying n (s.word n) acc) else none
  | .copying n version acc =>
    match s.tree.body n with
    | some (.leaf keys heads vals next) => some (.copied n version acc (.leaf keys heads vals next))
    | some (.internal ..) => some (.done acc.out)
    | none => none
  | .copied n version acc body =>
    if s.word n = version then
      match scanNode b acc body with
      | (acc', some next) => some (.cursor next acc')
      | (acc', none) => some (.done acc'.out)
    else some (.cursor n acc)
  | .done _ => none
  | .panicked => none

/-- The nodes a scan depends on without the protection of a version.  During
the walk this is the leaf of the cursor, until it has been copied. -/
def ScanPc.Exposed (s : Memory) (x : NodeId) : ScanPc → Prop
  | .poised n => ExposedAt s.tree s.retired n x
  | .versioned n _ => n ∈ s.retired ∧ ExposedAt s.tree s.retired n x ∧ x ≠ n
  | .read n _ (.descend c) => n ∈ s.retired ∧ ExposedAt s.tree s.retired c x
  | .cursor n _ | .copying n _ _ | .copied n _ _ _ => x = n
  | _ => False

/-- The next step of the writer spares the scan: no node the scan is exposed
at loses the lower part of its keys, and no internal node is emptied between
the scan's read of its version and of its body. -/
def ScanPc.Spared (s : Memory) (pc : ScanPc) : Prop :=
  (∀ x ∈ s.firing.lost, ¬ pc.Exposed s x) ∧
    ∀ n b version, s.publishing = some (n, b) → pc = .versioned n version → Readable b

inductive ScanStep (b : Bounds) : Memory × ScanPc → Memory × ScanPc → Prop where
  | writer {s s' : Memory} {pc : ScanPc} : WStep s s' → ScanStep b (s, pc) (s', pc)
  | reader {s : Memory} {pc pc' : ScanPc} :
      scanStep b s pc = some pc' → ScanStep b (s, pc) (s, pc')

inductive SparingScanStep (b : Bounds) : Memory × ScanPc → Memory × ScanPc → Prop where
  | writer {s s' : Memory} {pc : ScanPc} :
      WStep s s' → pc.Spared s → SparingScanStep b (s, pc) (s', pc)
  | reader {s : Memory} {pc pc' : ScanPc} :
      scanStep b s pc = some pc' → SparingScanStep b (s, pc) (s, pc')

/-! ## Reaching low enough -/

/-- The span starts before everything inside the bounds. -/
def Below (b : Bounds) (sn : Span) : Prop :=
  match b.start with
  | some k => sn.lo < fence k
  | none => sn.lo = ⊥

variable {b : Bounds} {sn : Span}

theorem Below.mono {sn' : Span} (h : Below b sn) (hlo : sn'.lo ≤ sn.lo) :
    Below b sn' := by
  unfold Below at h ⊢
  split at h
  · exact hlo.trans_lt h
  · exact le_bot_iff.mp (h ▸ hlo)

theorem Below.lt (h : Below b sn) {k : Bytes} (hk : b.Contains k) :
    sn.lo < fence k := by
  unfold Below at h
  split at h
  · next k0 hs =>
    rcases hk.1 k0 hs with hlt | ⟨-, rfl⟩
    · exact h.trans (fence_lt_fence.mpr hlt)
    · exact h
  · rw [h]
    exact bot_lt_fence k

theorem below_root {l : Nat} : Below b ⟨⊥, ⊤, l⟩ := by
  unfold Below
  split
  · exact bot_lt_fence _
  · rfl

theorem readable_rangeNode (b : Bounds) {body : NodeBody} (h : Readable body) :
    ∃ o, rangeNode b body = some o := by
  cases body with
  | leaf keys heads vals next => exact ⟨_, rfl⟩
  | internal keys heads children =>
    have hlt : ∀ i, min i (children.length - 1) < children.length := fun i => by
      have := List.length_pos_of_ne_nil h
      omega
    simp only [rangeNode]
    rw [if_neg h, List.getElem?_eq_getElem (hlt _)]
    exact ⟨_, rfl⟩

/-- The descent goes to a child that starts before everything inside the
bounds, whatever part of its keys the node has kept. -/
theorem rangeNode_internal {g : Spans} {keys : List Bytes} {children : List NodeId} {l : Nat}
    (hseg : Seg g l sn.lo (fencesOf keys sn.hi) children) (hbelow : Below b sn) :
    ∃ c sc, rangeNode b (newInternal keys children) = some (.descend c) ∧ c ∈ children ∧
      g c = some sc ∧ sc.level = l ∧ Below b sc := by
  have hlen := hseg.length_eq
  rw [length_fencesOf] at hlen
  have hne : children ≠ [] := by
    rintro rfl
    simp at hlen
  cases hs : b.start with
  | none =>
    obtain ⟨c, cs, rfl⟩ := List.exists_cons_of_ne_nil hne
    obtain ⟨f, F, hF⟩ := exists_fencesOf keys sn.hi
    rw [hF] at hseg
    refine ⟨c, _, by simp [rangeNode, newInternal, hs], List.mem_cons_self .., hseg.1, rfl, ?_⟩
    exact hbelow.mono le_rfl
  | some k0 =>
    obtain ⟨A, B, rfl, hidx, hA, -⟩ := lowerBound_cut (sorted_of_fences hseg.sorted) k0
    rw [List.length_append] at hlen
    obtain ⟨F1, f, F2, C1, c, C2, hF, rfl, hF1, hC1, -, hgc, -, -⟩ :=
      hseg.cut (i := A.length) (by omega)
    have hF1' : F1 = A.map fence := by
      rw [fencesOf_append] at hF
      exact (List.append_inj_left hF (by simp [hF1])).symm
    refine ⟨c, _, ?_, by simp, hgc, rfl, ?_⟩
    · simp only [rangeNode, newInternal, hs, hidx]
      rw [if_neg hne, min_eq_left (by simp; omega), List.getElem?_at hC1, Option.map_some]
    · -- the fence below the child is a separator below the start bound
      unfold Below at hbelow ⊢
      rw [hs] at hbelow ⊢
      show F1.getLastD sn.lo < fence k0
      rw [hF1']
      rcases List.eq_nil_or_concat A with rfl | ⟨A', a, rfl⟩
      · exact hbelow
      · simpa using hA a (by simp)

/-! ## The invariant of a scan -/

/-- Keys that are present, and keys that are absent, during a whole call. -/
structure Steady (present absent : Bytes → Prop) (m : Contents) : Prop where
  present : ∀ k, present k → (m k).isSome
  absent : ∀ k, absent k → m k = none

/-- What has been emitted: in order, and no absent key. -/
structure AccOk (absent : Bytes → Prop) (acc : ScanAcc) : Prop where
  sorted : (acc.out.map Prod.fst).Pairwise (· < ·)
  last : acc.lastKey = (acc.out.map Prod.fst).getLast?
  absent : ∀ k ∈ acc.out.map Prod.fst, ¬ absent k

/-- The scan stands at a leaf that is not past any present key it still owes. -/
def CursorOk (g : Spans) (b : Bounds) (present absent : Bytes → Prop) (n : NodeId)
    (acc : ScanAcc) : Prop :=
  AccOk absent acc ∧ ∃ sn, g n = some sn ∧ sn.level = 0 ∧
    ∀ k, present k → b.Contains k → k ∈ acc.out.map Prod.fst ∨
      (sn.lo < fence k ∧ ∀ l ∈ acc.lastKey, l < k)

structure ScanResult (b : Bounds) (present absent : Bytes → Prop) (out : List (Bytes × Bytes)) :
    Prop where
  sorted : (out.map Prod.fst).Pairwise (· < ·)
  present : ∀ k, present k → b.Contains k → k ∈ out.map Prod.fst
  absent : ∀ k, absent k → k ∉ out.map Prod.fst

def ScanPcOk (s : Memory) (g : Spans) (b : Bounds) (present absent : Bytes → Prop) :
    ScanPc → Prop
  | .start => True
  | .poised n => Leads s.tree s.retired g (Below b) n
  | .versioned n version => version % 2 = 0 ∧ version ≤ s.word n ∧
      (s.word n = version → Leads s.tree s.retired g (Below b) n) ∧ ∃ body, s.tree.body n = some body ∧
        Readable body
  | .read n version o => version % 2 = 0 ∧ version ≤ s.word n ∧ (s.word n = version →
      match o with
      | .done _ => ∃ sn, g n = some sn ∧ sn.level = 0 ∧ Below b sn
      | .descend c => Leads s.tree s.retired g (Below b) c ∧ (n ∈ s.retired ∨
          ∃ sn keys children, g n = some sn ∧
            s.tree.body n = some (newInternal keys children) ∧ c ∈ children)
      | .restart => False)
  | .cursor n acc => CursorOk g b present absent n acc
  | .copying n version acc => CursorOk g b present absent n acc ∧ version % 2 = 0 ∧
      version ≤ s.word n
  | .copied n version acc body => CursorOk g b present absent n acc ∧ version % 2 = 0 ∧
      version ≤ s.word n ∧ (s.word n = version → s.tree.body n = some body)
  | .done out => ScanResult b present absent out
  | .panicked => False

section Invariant

variable {s s' : Memory} {g g' : Spans} {b : Bounds} {present absent : Bytes → Prop}
  {pc pc' : ScanPc}

variable {n : NodeId}

theorem CursorOk.writer (hmv : Moves s g s' g') {acc : ScanAcc} (hlost : n ∉ s.firing.lost)
    (h : CursorOk g b present absent n acc) :
    CursorOk g' b present absent n acc := by
  obtain ⟨hacc, sn, hn, hl, howe⟩ := h
  rcases hmv.kept n sn hn hlost with ⟨sn', hn', hl', hlo⟩ | ⟨hpos, -⟩
  · refine ⟨hacc, sn', hn', hl'.trans hl, fun k hk hbk => ?_⟩
    rcases howe k hk hbk with hin | ⟨hlt, hlast⟩
    · exact Or.inl hin
    · exact Or.inr ⟨hlo.trans_lt hlt, hlast⟩
  · omega

/-- A step of the writer that spares the scan keeps its invariant. -/
theorem ScanPcOk.writer (h : MemOk s g) (hmv : Moves s g s' g') (hsp : pc.Spared s)
    (hok : ScanPcOk s g b present absent pc) : ScanPcOk s' g' b present absent pc := by
  have hmono : ∀ sp sp', Below b sp → sp'.lo ≤ sp.lo → Below b sp' :=
    fun _ _ hb hlo => hb.mono hlo
  have hkept : ∀ n, (∀ x, ExposedAt s.tree s.retired n x → x ∉ s.firing.lost) →
      Leads s.tree s.retired g (Below b) n →
      Leads s'.tree s'.retired g' (Below b) n :=
    fun n hexp hn => hn.step h hmv fun x sx hx hgx hPx =>
      hmv.leads_kept hmono hgx hPx (hexp x hx)
  -- an unlatched node does not lose anything
  have hfree : ∀ n sn version, g n = some sn → version % 2 = 0 → s.word n = version →
      n ∉ s.firing.lost := by
    intro n sn version hn heven hw hmem
    have hodd := (h.firing_ok (Restructure.lost_subset_moved hmem)).1 sn hn
    omega
  cases pc with
  | start => trivial
  | done out => exact hok
  | panicked => exact hok
  | poised n => exact hkept n (fun x hx hmem => hsp.1 x hmem hx) hok
  | versioned n version =>
    exact Versioned.step h hmv Restructure.lost_subset_moved
      (fun hgx hPx => hmv.leads_kept hmono hgx hPx) hsp.1
      (fun b hpub => hsp.2 n b version hpub rfl) hok
  | read n version o =>
    obtain ⟨heven, hle, hgood⟩ := hok
    refine ⟨heven, hle.trans (hmv.words n), fun heq => ?_⟩
    have hw : s.word n = version := le_antisymm (heq ▸ hmv.words n) hle
    have hgood := hgood hw
    cases o with
    | restart => exact hgood
    | done u =>
      obtain ⟨sn, hn, hl, hbelow⟩ := hgood
      rcases hmv.kept n sn hn (hfree n sn version hn heven hw) with
        ⟨sn', hn', hl', hlo⟩ | ⟨hpos, -⟩
      · exact ⟨sn', hn', hl'.trans hl, hbelow.mono hlo⟩
      · omega
    | descend c =>
      exact Descends.step h hmv Restructure.lost_subset_moved (by omega) (by omega) hkept hsp.1 hgood
  | cursor n acc => exact CursorOk.writer hmv (fun hmem => hsp.1 n hmem rfl) hok
  | copying n version acc =>
    obtain ⟨hcur, heven, hle⟩ := hok
    exact ⟨hcur.writer hmv fun hmem => hsp.1 n hmem rfl, heven, hle.trans (hmv.words n)⟩
  | copied n version acc body =>
    obtain ⟨hcur, heven, hle, hbody⟩ := hok
    refine ⟨hcur.writer hmv fun hmem => hsp.1 n hmem rfl, heven, hle.trans (hmv.words n),
      fun heq => ?_⟩
    have hw : s.word n = version := le_antisymm (heq ▸ hmv.words n) hle
    rcases hmv.bodies n _ (hbody hw) with hb' | ⟨b', -, -, hlt⟩
    · exact hb'
    · omega

theorem scanEntries_last : ∀ {E : List (Bytes × Bytes)} {acc : ScanAcc},
    acc.lastKey = (acc.out.map Prod.fst).getLast? →
      (scanEntries b E acc).1.lastKey = ((scanEntries b E acc).1.out.map Prod.fst).getLast?
  | [], _, h => h
  | (k, v) :: E, acc, h => by
    rw [scanEntries]
    split
    · exact scanEntries_last h
    split
    · exact scanEntries_last h
    split
    · exact h
    · exact scanEntries_last (by simp)

theorem AccOk.le_last {acc : ScanAcc} (h : AccOk absent acc) {k : Bytes}
    (hk : k ∈ acc.out.map Prod.fst) : ∃ l ∈ acc.lastKey, k ≤ l := by
  obtain ⟨K, a, hK⟩ := List.eq_nil_or_concat (acc.out.map Prod.fst) |>.resolve_left
    (List.ne_nil_of_mem hk)
  rw [List.concat_eq_append] at hK
  have hs := h.sorted
  refine ⟨a, by rw [h.last, hK]; simp, ?_⟩
  rw [hK] at hk hs
  rcases List.mem_append.mp hk with hmem | hmem
  · exact ((List.pairwise_append.mp hs).2.2 k hmem a (by simp)).le
  · exact (List.mem_singleton.mp hmem).le

/-- Emitting from a live leaf keeps the output in order and free of absent
keys. -/
theorem AccOk.scan (h : MemOk s g) (hst : Steady present absent s.map) {n : NodeId} {sn : Span}
    {E : List (Bytes × Bytes)} {next : Option NodeId} {acc : ScanAcc} (hn : g n = some sn)
    (hb : s.logical.body n = some (leafBody E next)) (hacc : AccOk absent acc) :
    AccOk absent (scanEntries b E acc).1 := by
  obtain ⟨-, hE, -⟩ := h.inv.leaf hn hb
  refine ⟨?_, scanEntries_last hacc.last, fun k hk habs => ?_⟩
  · rw [scanEntries_out hE.sorted, List.map_append, List.pairwise_append]
    refine ⟨hacc.sorted, List.Pairwise.sublist (List.filter_sublist.map _) hE.sorted,
      fun k hk k' hk' => ?_⟩
    obtain ⟨l, hl, hle⟩ := hacc.le_last hk
    obtain ⟨e, he, rfl⟩ := List.mem_map.mp hk'
    exact hle.trans_lt ((emits_iff.mp (List.mem_filter.mp he).2).1 l hl)
  · rw [scanEntries_out hE.sorted, List.map_append, List.mem_append] at hk
    rcases hk with hk | hk
    · exact hacc.absent k hk habs
    · obtain ⟨e, he, rfl⟩ := List.mem_map.mp hk
      have hmem := (List.mem_filter.mp he).1
      have hlookup := h.holds n sn E next hn hb e.1
        (hE.inside e.1 (List.mem_map_of_mem (f := Prod.fst) hmem))
      rw [hst.absent e.1 habs, (mem_iff_lookup hE.sorted).mp hmem] at hlookup
      cases hlookup

/-- A validated copy of a leaf emits the present keys of its span, and leaves
the others to the leaves behind it. -/
theorem CursorOk.scan (h : MemOk s g) (hst : Steady present absent s.map) {n : NodeId}
    {acc : ScanAcc} {body : NodeBody} (hcur : CursorOk g b present absent n acc)
    (hbody : s.logical.body n = some body) :
    match scanNode b acc body with
    | (acc', some next) => CursorOk g b present absent next acc'
    | (acc', none) => ScanResult b present absent acc'.out := by
  obtain ⟨hacc, sn, hn, hl, howe⟩ := hcur
  obtain ⟨body', hbody', hok⟩ := h.inv.body n sn hn
  rw [hbody, Option.some.injEq] at hbody'
  subst hbody'
  cases hok with
  | internal hl' _ => omega
  | @leaf E next _ _ _ hnext =>
    obtain ⟨-, hE, -⟩ := h.inv.leaf hn hbody
    have hacc' := hacc.scan (b := b) h hst hn hbody
    -- a present key is emitted by now or lies behind the leaf
    have hafter : ∀ k, present k → b.Contains k →
        k ∈ (scanEntries b E acc).1.out.map Prod.fst ∨
          (sn.hi < fence k ∧ ∀ l ∈ (scanEntries b E acc).1.lastKey, l < k) := by
      intro k hk hbk
      rw [scanEntries_out hE.sorted, List.map_append, List.mem_append]
      rcases howe k hk hbk with hin | ⟨hlo, hlast⟩
      · exact Or.inl (Or.inl hin)
      · by_cases hhi : fence k ≤ sn.hi
        · obtain ⟨v, hv⟩ := Option.isSome_iff_exists.mp (hst.present k hk)
          have hlookup := h.holds n sn E next hn hbody k ⟨hlo, hhi⟩
          rw [hv] at hlookup
          have hmem := (mem_iff_lookup hE.sorted).mpr hlookup
          exact Or.inl (Or.inr (List.mem_map.mpr
            ⟨(k, v), List.mem_filter.mpr ⟨hmem, emits_iff.mpr ⟨hlast, hbk⟩⟩, rfl⟩))
        · refine Or.inr ⟨not_le.mp hhi, fun l hl' => ?_⟩
          rcases scanEntries_lastKey hl' with hl' | hl'
          · exact hlast l hl'
          · exact fence_lt_fence.mp ((hE.inside l hl').2.trans_lt (not_le.mp hhi))
    rw [scanNode_leaf]
    have hresult : (∀ k, b.Contains k → fence k ≤ sn.hi) →
        ScanResult b present absent (scanEntries b E acc).1.out := fun hend =>
      ⟨hacc'.sorted, fun k hk hbk => (hafter k hk hbk).resolve_right fun hlt =>
        absurd hlt.1 (not_lt.mpr (hend k hbk)), fun k hk hmem => hacc'.absent k hmem hk⟩
    by_cases hpast : (scanEntries b E acc).2 = true
    · rw [if_pos hpast]
      refine hresult fun k hbk => ?_
      obtain ⟨k', hk', hp⟩ := scanEntries_past hpast
      by_contra hlt
      have hle : k' ≤ k := fence_le_fence.mp ((hE.inside k' hk').2.trans (not_le.mp hlt).le)
      rw [Bounds.contains_iff, Bounds.past_of_le hp hle] at hbk
      exact absurd hbk.2 (by simp)
    · rw [if_neg hpast]
      cases next with
      | none =>
        have htop : sn.hi = ⊤ := hnext
        exact hresult fun k _ => htop ▸ le_top
      | some n' =>
        obtain ⟨hi', hn'⟩ := hnext
        exact ⟨hacc', _, hn', rfl, hafter⟩

theorem ScanPcOk.reader (h : MemOk s g) (hst : Steady present absent s.map)
    (hok : ScanPcOk s g b present absent pc) (hstep : scanStep b s pc = some pc') :
    ScanPcOk s g b present absent pc' := by
  cases pc with
  | start =>
    cases hstep
    obtain ⟨l, hr, -⟩ := h.inv.root
    exact .live hr below_root
  | poised n =>
    simp only [scanStep] at hstep
    split at hstep
    · next hfree =>
      cases hstep
      exact ⟨hfree, le_rfl, fun _ => hok, Leads.readable h hfree hok⟩
    · cases hstep
  | versioned n version =>
    obtain ⟨heven, hle, hleads, body, hb, hread⟩ := hok
    obtain ⟨o, ho⟩ := readable_rangeNode b hread
    simp only [scanStep, hb, Option.bind_some, ho, Option.some.injEq] at hstep
    subst hstep
    refine ⟨heven, hle, fun hw => ?_⟩
    cases hleads hw with
    | @live _ sn hn hbelow =>
      have hlog : s.logical.body n = some body := (h.body_eq (by omega)).trans hb
      obtain ⟨b', hb', hbok⟩ := h.inv.body n _ hn
      rw [hlog, Option.some.injEq] at hb'
      subst hb'
      cases hbok with
      | leaf hl _ _ _ =>
        simp only [rangeNode, leafBody, newLeafWith, Option.some.injEq] at ho
        subst ho
        exact ⟨sn, hn, hl, hbelow⟩
      | @internal keys children l _ hseg =>
        obtain ⟨c, sc, hnode, hmem, hgc, -, hbc⟩ := rangeNode_internal hseg hbelow
        rw [hnode, Option.some.injEq] at ho
        subst ho
        exact ⟨.live hgc hbc, Or.inr ⟨sn, keys, children, hn, hb, hmem⟩⟩
    | @retired _ c hret hb' hc =>
      rw [hb, Option.some.injEq] at hb'
      subst hb'
      have hnode : rangeNode b (newInternal [] [c]) = some (.descend c) := by
        simp [rangeNode, newInternal]
      rw [hnode, Option.some.injEq] at ho
      subst ho
      exact ⟨hc, Or.inl hret⟩
  | read n version o =>
    obtain ⟨-, -, hgood⟩ := hok
    simp only [scanStep] at hstep
    split at hstep
    · next hw =>
      have hgood := hgood hw
      cases o with
      | done u =>
        cases hstep
        obtain ⟨sn, hn, hl, hbelow⟩ := hgood
        exact ⟨⟨List.Pairwise.nil, rfl, by simp⟩, sn, hn, hl,
          fun k _ hbk => Or.inr ⟨hbelow.lt hbk, by simp⟩⟩
      | descend c =>
        cases hstep
        exact hgood.1
      | restart => cases hstep
    · cases hstep
      trivial
  | cursor n acc =>
    simp only [scanStep] at hstep
    split at hstep
    · next hfree =>
      cases hstep
      exact ⟨hok, hfree, le_rfl⟩
    · cases hstep
  | copying n version acc =>
    obtain ⟨hcur, heven, hle⟩ := hok
    obtain ⟨-, sn, hn, hl, -⟩ := id hcur
    obtain ⟨keys, heads, vals, next, hb⟩ := h.leaf_body hn hl
    simp only [scanStep, hb, Option.some.injEq] at hstep
    subst hstep
    exact ⟨hcur, heven, hle, fun _ => hb⟩
  | copied n version acc body =>
    obtain ⟨hcur, heven, hle, hbody⟩ := hok
    simp only [scanStep] at hstep
    split at hstep
    · next hw =>
      have hlog : s.logical.body n = some body :=
        (h.body_eq (by omega)).trans (hbody hw)
      have hscan := hcur.scan h hst hlog
      split at hstep
      · next acc' next heq =>
        cases hstep
        rw [heq] at hscan
        exact hscan
      · next acc' heq =>
        cases hstep
        rw [heq] at hscan
        exact hscan
    · cases hstep
      exact hcur
  | done out => cases hstep
  | panicked => cases hstep

/-! ## A scan left alone -/

/-- The scan runs on while the writer stands still. -/
def ScanAlone (b : Bounds) (s : Memory) (pc pc' : ScanPc) : Prop :=
  ReflTransGen (fun a c => scanStep b s a = some c) pc pc'

theorem ScanAlone.head {mid : ScanPc} (hstep : scanStep b s pc = some mid)
    (h : ScanAlone b s mid pc') : ScanAlone b s pc pc' := ReflTransGen.head hstep h

/-- The walk from a leaf ends, because the leaves ahead get fewer. -/
theorem scanAlone_cursor (h : MemOk s g) (hfree : ∀ n, s.word n % 2 = 0) :
    ∀ (few : Nat) (acc : ScanAcc) {n : NodeId} {sn : Span}, g n = some sn → sn.level = 0 →
      ahead s.logical g sn.lo = few → ∃ out, ScanAlone b s (.cursor n acc) (.done out)
  | few, acc, n, sn, hn, hl, hfew => by
    obtain ⟨body, hb, hok⟩ := h.inv.body n sn hn
    have hb' : s.tree.body n = some body := (h.body_eq (hfree n)).symm.trans hb
    cases hok with
    | internal hl' _ => omega
    | @leaf E next _ _ _ hnext =>
      have hversion : scanStep b s (.cursor n acc) = some (.copying n (s.word n) acc) := by
        simp [scanStep, hfree]
      have hcopy : scanStep b s (.copying n (s.word n) acc) =
          some (.copied n (s.word n) acc (leafBody E next)) := by
        simp [scanStep, hb', leafBody, newLeafWith]
      suffices hrest : ∃ out,
          ScanAlone b s (.copied n (s.word n) acc (leafBody E next)) (.done out) by
        obtain ⟨out, hout⟩ := hrest
        exact ⟨out, (hout.head hcopy).head hversion⟩
      by_cases hend : (scanEntries b E acc).2 = true ∨ next = none
      · refine ⟨(scanEntries b E acc).1.out, .single ?_⟩
        rcases hend with hpast | rfl
        · simp [scanStep, scanNode_leaf, hpast]
        · simp [scanStep, scanNode_leaf]
      · obtain ⟨hpast, hsome⟩ := not_or.mp hend
        obtain ⟨n', rfl⟩ := Option.ne_none_iff_exists'.mp hsome
        obtain ⟨hi', hn'⟩ := hnext
        have hless := ahead_next h.inv hn' rfl (h.inv.proper n sn hn)
        obtain ⟨out, hout⟩ := scanAlone_cursor h hfree _ (scanEntries b E acc).1 hn' rfl rfl
        refine ⟨out, hout.head ?_⟩
        simp [scanStep, scanNode_leaf, hpast]
termination_by few => few
decreasing_by exact hfew ▸ hless

/-- One round of the descent at an unlatched node whose body is good. -/
theorem scanAlone_round {body : NodeBody} {o : Outcome Unit} {next : ScanPc}
    (hfree : s.word n % 2 = 0) (hb : s.tree.body n = some body) (ho : rangeNode b body = some o)
    (hnext : scanStep b s (.read n (s.word n) o) = some next) (h : ScanAlone b s next pc') :
    ScanAlone b s (.poised n) pc' := by
  have hversion : scanStep b s (.poised n) = some (.versioned n (s.word n)) := by
    simp [scanStep, hfree]
  have hread : scanStep b s (.versioned n (s.word n)) = some (.read n (s.word n) o) := by
    simp [scanStep, hb, ho]
  exact (h.head hnext).head hread |>.head hversion

theorem scanAlone_live (h : MemOk s g) (hfree : ∀ n, s.word n % 2 = 0) :
    ∀ (level : Nat) {n : NodeId} {sn : Span}, g n = some sn → sn.level = level → Below b sn →
      ∃ out, ScanAlone b s (.poised n) (.done out)
  | level, n, sn, hn, hl, hbelow => by
    obtain ⟨body, hb, hok⟩ := h.inv.body n sn hn
    have hb' : s.tree.body n = some body := (h.body_eq (hfree n)).symm.trans hb
    cases hok with
    | leaf hl0 _ _ _ =>
      obtain ⟨out, hout⟩ := scanAlone_cursor h hfree _ ⟨none, []⟩ hn hl0 rfl
      exact ⟨out, scanAlone_round (hfree n) hb' rfl (by simp [scanStep]) hout⟩
    | @internal keys children l hlev hseg =>
      obtain ⟨c, sc, hnode, -, hgc, hlc, hbc⟩ := rangeNode_internal hseg hbelow
      obtain ⟨out, hout⟩ := scanAlone_live h hfree sc.level hgc rfl hbc
      exact ⟨out, scanAlone_round (hfree n) hb' hnode (by simp [scanStep]) hout⟩
termination_by level => level
decreasing_by omega

theorem scanAlone_leads (h : MemOk s g) (hfree : ∀ n, s.word n % 2 = 0)
    (hn : Leads s.tree s.retired g (Below b) n) : ∃ out, ScanAlone b s (.poised n) (.done out) := by
  induction hn with
  | live hn hbelow => exact scanAlone_live h hfree _ hn rfl hbelow
  | @retired n c _ hb _ ih =>
    obtain ⟨out, hout⟩ := ih
    have hnode : rangeNode b (newInternal [] [c]) = some (.descend c) := by
      simp [rangeNode, newInternal]
    exact ⟨out, scanAlone_round (hfree n) hb hnode (by simp [scanStep]) hout⟩

/-- When no latch is held, a scan left alone returns. -/
theorem ScanPcOk.returns (h : MemOk s g) (hst : Steady present absent s.map)
    (hfree : ∀ n, s.word n % 2 = 0) (hok : ScanPcOk s g b present absent pc) :
    ∃ out, ScanAlone b s pc (.done out) := by
  have hgo : ∀ {pc mid : ScanPc}, scanStep b s pc = some mid →
      (∃ out, ScanAlone b s mid (.done out)) → ∃ out, ScanAlone b s pc (.done out) :=
    fun hstep ⟨out, hout⟩ => ⟨out, hout.head hstep⟩
  have hstart : ∃ out, ScanAlone b s .start (.done out) := by
    obtain ⟨l, hr, -⟩ := h.inv.root
    exact hgo rfl (scanAlone_leads h hfree (.live hr below_root))
  have hcursor : ∀ n acc, CursorOk g b present absent n acc →
      ∃ out, ScanAlone b s (.cursor n acc) (.done out) := by
    rintro n acc ⟨-, sn, hn, hl, -⟩
    exact scanAlone_cursor h hfree _ acc hn hl rfl
  have hread : ∀ n version o, ScanPcOk s g b present absent (.read n version o) →
      ∃ out, ScanAlone b s (.read n version o) (.done out) := by
    intro n version o hok
    by_cases hw : s.word n = version
    · have hgood := hok.2.2 hw
      cases o with
      | done u =>
        obtain ⟨sn, hn, hl, -⟩ := hgood
        exact hgo (by simp [scanStep, hw]) (scanAlone_cursor h hfree _ ⟨none, []⟩ hn hl rfl)
      | descend c => exact hgo (by simp [scanStep, hw]) (scanAlone_leads h hfree hgood.1)
      | restart => exact hgood.elim
    · exact hgo (by simp [scanStep, hw]) hstart
  have hcopied : ∀ n version acc body, ScanPcOk s g b present absent (.copied n version acc body) →
      ∃ out, ScanAlone b s (.copied n version acc body) (.done out) := by
    intro n version acc body hok
    by_cases hw : s.word n = version
    · cases hscan : scanNode b acc body with
      | mk acc' next =>
        cases next with
        | none => exact ⟨acc'.out, .single (by simp [scanStep, hw, hscan])⟩
        | some n' =>
          have hstep : scanStep b s (.copied n version acc body) = some (.cursor n' acc') := by
            simp [scanStep, hw, hscan]
          exact hgo hstep (hcursor n' acc' (hok.reader h hst hstep))
    · exact hgo (by simp [scanStep, hw]) (hcursor n acc hok.1)
  cases pc with
  | start => exact hstart
  | poised n => exact scanAlone_leads h hfree hok
  | versioned n version =>
    obtain ⟨-, -, -, body, hb, hr⟩ := id hok
    obtain ⟨o, ho⟩ := readable_rangeNode b hr
    have hstep : scanStep b s (.versioned n version) = some (.read n version o) := by
      simp [scanStep, hb, ho]
    exact hgo hstep (hread n version o (hok.reader h hst hstep))
  | read n version o => exact hread n version o hok
  | cursor n acc => exact hcursor n acc hok
  | copying n version acc =>
    obtain ⟨-, sn, hn, hl, -⟩ := hok.1
    obtain ⟨keys, heads, vals, next, hb⟩ := h.leaf_body hn hl
    have hstep : scanStep b s (.copying n version acc) =
        some (.copied n version acc (.leaf keys heads vals next)) := by
      simp [scanStep, hb]
    exact hgo hstep (hcopied _ _ _ _ (hok.reader h hst hstep))
  | copied n version acc body => exact hcopied n version acc body hok
  | done out => exact ⟨out, .refl⟩
  | panicked => exact hok.elim

end Invariant

/-! ## Whole calls -/

/-- A scan that every step of the writer spares does not panic.  What it
returns is in order, holds every key inside the bounds that is present during
the whole call, and none that is absent during the whole call.  It does return
when it is left alone with no latch held. -/
theorem scan_spared_complete {s0 s : Memory} {b : Bounds} {present absent : Bytes → Prop}
    {pc : ScanPc} (h0 : ReflTransGen WStep Memory.init s0)
    (hst : Steady present absent s0.map)
    (hrun : ReflTransGen
      (fun a c => SparingScanStep b a c ∧ Steady present absent c.1.map) (s0, .start) (s, pc)) :
    pc ≠ .panicked ∧ (∀ out, pc = .done out → ScanResult b present absent out) ∧
      ((∀ n, s.word n % 2 = 0) →
        ∃ out, ScanAlone b s pc (.done out) ∧ ScanResult b present absent out) := by
  have hinv : ∃ g, MemOk s g ∧ Steady present absent s.map ∧
      ScanPcOk s g b present absent pc := by
    refine Transition.invariant
      (P := fun a : Memory × ScanPc => ∃ g, MemOk a.1 g ∧ Steady present absent a.1.map ∧
        ScanPcOk a.1 g b present absent a.2) ?_ ?_ hrun
    · obtain ⟨g, hg⟩ := memOk_reachable h0
      exact ⟨g, hg, hst, trivial⟩
    · rintro ⟨a, pa⟩ ⟨c, pb⟩ ⟨g, hg, hsta, hok⟩ ⟨hstep, hstb⟩
      cases hstep with
      | writer hw hsp =>
        obtain ⟨g', hg', hmv⟩ := WStep.ok hg hw
        exact ⟨g', hg', hstb, hok.writer hg hmv hsp⟩
      | reader hr => exact ⟨g, hg, hsta, hok.reader hg hsta hr⟩
  obtain ⟨g, hg, hsts, hok⟩ := hinv
  refine ⟨?_, ?_, fun hfree => ?_⟩
  · rintro rfl
    exact hok
  · rintro out rfl
    exact hok
  · obtain ⟨out, hout⟩ := hok.returns hg hsts hfree
    exact ⟨out, hout, Transition.invariant (P := ScanPcOk s g b present absent) hok
      (fun _ _ ha hstep => ha.reader hg hsts hstep) hout⟩

/-- As long as no root has been swapped out, a scan that has read the version of an
internal node, or that walks the leaves, is spared by a step that takes nothing from
its node. -/
def ScanPc.calm (s : Memory) (pc : ScanPc) : Bool :=
  s.retired.isEmpty &&
    (match pc with
      | .poised _ => s.firing.lost.isEmpty
      | .cursor n _ | .copying n _ _ | .copied n _ _ _ => !s.firing.lost.contains n
      | _ => true) &&
    match s.publishing with
    | some (_, .internal _ _ []) => false
    | _ => true

theorem ScanPc.Spared.of_calm {s : Memory} {pc : ScanPc} (h : pc.calm s = true) : pc.Spared s := by
  simp only [ScanPc.calm, Bool.and_eq_true, List.isEmpty_iff] at h
  obtain ⟨⟨hretired, hfiring⟩, hpublish⟩ := h
  refine ⟨fun x hx hexp => ?_, fun n body version hp _ => ?_⟩
  · cases pc with
    | poised n =>
      rw [List.isEmpty_iff.mp hfiring] at hx
      cases hx
    | versioned n version => simp [ScanPc.Exposed, hretired] at hexp
    | read n version o => cases o <;> simp [ScanPc.Exposed, hretired] at hexp
    | cursor n acc | copying n version acc | copied n version acc body =>
      obtain rfl : x = n := hexp
      simp [hx] at hfiring
    | _ => exact hexp
  · rw [hp] at hpublish
    cases body with
    | leaf keys heads vals next => trivial
    | internal keys heads children =>
      rintro rfl
      cases hpublish

def scanTurn (b : Bounds) (a : Memory × ScanPc) : Option (Option Op) → Option (Memory × ScanPc)
  | some turn => (writerTurn a.1 turn).map fun s => (s, a.2)
  | none => (scanStep b a.1 a.2).map fun pc => (a.1, pc)

theorem scanStep_of_scanTurn {turn : Option (Option Op)} {a c : Memory × ScanPc}
    (h : scanTurn b a turn = some c) : ScanStep b a c := by
  cases turn with
  | none =>
    obtain ⟨pc, hpc, rfl⟩ := Option.map_eq_some_iff.mp h
    exact .reader hpc
  | some turn =>
    obtain ⟨s, hs, rfl⟩ := Option.map_eq_some_iff.mp h
    exact .writer (wstep_of_writerTurn hs)

/-- A turn of the writer must spare the scan. -/
def calmScanTurn (b : Bounds) (turn : Option (Option Op)) (a : Memory × ScanPc) :
    Option (Memory × ScanPc) :=
  if turn.isSome && !a.2.calm a.1 then none else scanTurn b a turn

theorem sparingScanStep_of_calmScanTurn (turn : Option (Option Op)) (a c : Memory × ScanPc)
    (h : calmScanTurn b turn a = some c) : SparingScanStep b a c := by
  unfold calmScanTurn at h
  split at h
  · cases h
  · next hcalm =>
    cases turn with
    | none =>
      obtain ⟨pc, hpc, rfl⟩ := Option.map_eq_some_iff.mp h
      exact .reader hpc
    | some turn =>
      obtain ⟨s, hs, rfl⟩ := Option.map_eq_some_iff.mp h
      exact .writer (wstep_of_writerTurn hs) (.of_calm (by simpa using hcalm))

def twoLeaves : Option Memory :=
  writerRun (fillTurns ((List.range 128).map keyAt) [1] ++ opTurns (.insert (keyAt 128) [1]) 12)
    Memory.init

/-- The scan has read the version of the left leaf when the writer removes from it,
and the leaf borrows the first entry of the right one: the validation fails, and the
scan copies the left leaf again. -/
def borrowBeside : List (Option (Option Op)) :=
  List.replicate 8 none ++ (opTurns (.remove (keyAt 0)) 19).map some ++ List.replicate 8 none

/-- The scan has emitted the left leaf and holds the pointer of the right one.
The writer removes from the left leaf, which then borrows the first entry of
the right one, and the scan goes on. -/
def borrowRace : List (Option (Option Op)) :=
  List.replicate 10 none ++ (opTurns (.remove (keyAt 0)) 19).map some ++ List.replicate 3 none

def ScanPc.keys : ScanPc → Option (List Bytes)
  | .done out => some (out.map Prod.fst)
  | _ => none

set_option maxRecDepth 100000 in
/-- Both scans return, the first one with key 64, which has changed its leaf. -/
theorem borrows_return :
    (twoLeaves.map fun s => ((s.map (keyAt 64)).isSome,
      (Transition.exec (calmScanTurn ⟨none, false, none, false⟩)
        (fun a => a.1.map (keyAt 64) == some [1]) borrowBeside (s, .start)).map fun a =>
          a.2.keys.map List.length,
      (Transition.exec (fun turn a => scanTurn ⟨none, false, none, false⟩ a turn)
        (fun a => a.1.map (keyAt 64) == some [1]) borrowRace (s, .start)).map fun a =>
          a.2.keys.map fun ks => ks.contains (keyAt 64))) =
      some (true, some (some 128), some (some false)) := by
  decide +kernel

/-- A scan of two leaves beside a removal that spares it, although an entry moves from
one leaf to the other. -/
theorem scan_spared_complete_beside_borrow :
    ∃ s0 s out, ReflTransGen WStep Memory.init s0 ∧
      ReflTransGen (fun a c => SparingScanStep ⟨none, false, none, false⟩ a c ∧
        Steady (· = keyAt 64) (fun _ => False) c.1.map) (s0, .start) (s, .done out) ∧
      out.length = 128 ∧
      ScanResult ⟨none, false, none, false⟩ (· = keyAt 64) (fun _ => False) out := by
  obtain ⟨s0, hfull, hends⟩ := Option.map_eq_some_iff.mp borrows_return
  obtain ⟨hv, hends⟩ := Prod.mk.inj hends
  obtain ⟨⟨s, pc⟩, hexec, hkeys⟩ := Option.map_eq_some_iff.mp (Prod.mk.inj hends).1
  obtain ⟨ks, hks, hlen⟩ := Option.map_eq_some_iff.mp hkeys
  have h0 := reaches_of_writerRun hfull
  have hst : Steady (· = keyAt 64) (fun _ => False) s0.map :=
    ⟨fun k hk => by rwa [hk], fun _ hk => hk.elim⟩
  have hrun : ReflTransGen (fun a c => SparingScanStep ⟨none, false, none, false⟩ a c ∧
      Steady (· = keyAt 64) (fun _ => False) c.1.map) (s0, .start) (s, pc) := by
    refine ReflTransGen.mono (fun _ c hab => ⟨hab.1, fun k hk => ?_, fun _ hk => hk.elim⟩) _ _
      (Transition.exec_reaches sparingScanStep_of_calmScanTurn hexec)
    rw [hk, beq_iff_eq.mp hab.2]
    rfl
  cases pc with
  | done out =>
    cases hks
    rw [List.length_map] at hlen
    exact ⟨s0, s, out, h0, hrun, hlen, (scan_spared_complete h0 hst hrun).2.1 out rfl⟩
  | _ => cases hks

/-- A scan loses a key that is mapped during the whole call, when the leaf it
is about to read gives its first entry to the leaf it has left. -/
theorem scan_misses_during_borrow :
    ∃ s0 s out, ReflTransGen WStep Memory.init s0 ∧
      ReflTransGen (fun a c => ScanStep ⟨none, false, none, false⟩ a c ∧
        c.1.map (keyAt 64) = some [1]) (s0, .start) (s, .done out) ∧
      keyAt 64 ∉ out.map Prod.fst := by
  obtain ⟨s0, hfull, hends⟩ := Option.map_eq_some_iff.mp borrows_return
  obtain ⟨⟨s, pc⟩, hexec, hkeys⟩ := Option.map_eq_some_iff.mp (Prod.mk.inj (Prod.mk.inj hends).2).2
  obtain ⟨ks, hks, hmiss⟩ := Option.map_eq_some_iff.mp hkeys
  cases pc with
  | done out =>
    cases hks
    refine ⟨s0, s, out, reaches_of_writerRun hfull, ?_, by simpa using hmiss⟩
    have hnext : ∀ turn a c, scanTurn ⟨none, false, none, false⟩ a turn = some c →
        ScanStep ⟨none, false, none, false⟩ a c := fun _ _ _ hab => scanStep_of_scanTurn hab
    refine ReflTransGen.mono (fun _ c hab => ⟨hab.1, ?_⟩) _ _
      (Transition.exec_reaches hnext hexec)
    simpa using hab.2
  | _ => cases hks

end HenchDB.BTree
