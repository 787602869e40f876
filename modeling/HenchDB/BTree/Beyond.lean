import HenchDB.BTree.Held

/-!
# Visits of a node that has lost the key

An `insert`, `upsert` or fix-up pass may visit a node that was split after its
pointer was read, with a key that now lies above the span of the node.  The
search then takes the last child, as it would for the upper end of the span,
so such a visit keeps the tree and leads to a node that starts below the key.
A leaf answers with a restart, unless it is empty.
-/

namespace HenchDB.BTree

def Op.withKey (key : Bytes) : Op → Op
  | .insert _ v => .insert key v
  | .upsert _ v => .upsert key v
  | .updateInPlace _ v => .updateInPlace key v
  | .remove _ => .remove key

/-- The operation restarts when a leaf ends below its key. -/
def Op.restarts : Op → Bool
  | .insert .. | .upsert .. => true
  | .updateInPlace .. | .remove _ => false

section Beyond

variable {R : Type} {t : BTree} {g : Spans} {m : Contents} {n : NodeId} {s : Span}
  {keys : List Bytes} {children : List NodeId} {key k : Bytes}

/-- The upper end of a span below a key is a key itself. -/
theorem Inv.hi_eq_fence (h : Inv t g) (hn : g n = some s) (hhi : s.hi < fence key) :
    ∃ k, s.hi = fence k ∧ s.Covers k ∧ k < key := by
  have hlo := h.proper n s hn
  obtain ⟨x, hx⟩ := WithBot.ne_bot_iff_exists.mp (bot_le.trans_lt hlo).ne'
  have hxt : x ≠ ⊤ := by
    rintro rfl
    rw [← hx] at hhi
    exact absurd (hhi.trans (fence_lt_top key)) (lt_irrefl _)
  obtain ⟨k, rfl⟩ := WithTop.ne_top_iff_exists.mp hxt
  have hk : s.hi = fence k := hx.symm
  exact ⟨k, hk, ⟨hk ▸ hlo, hk.ge⟩, fence_lt_fence.mp (hk ▸ hhi)⟩

/-- Two keys above all separators are searched alike. -/
theorem lowerBound_above (hsorted : keys.Pairwise (· < ·)) (hall : ∀ x ∈ keys, x < k)
    (hlt : k < key) :
    lowerBound keys (headsFor keys) key = lowerBound keys (headsFor keys) k := by
  have hend : ∀ z, (∀ x ∈ keys, x < z) → lowerBound keys (headsFor keys) z = keys.length := by
    intro z hz
    have happ : lowerBound (keys ++ []) (headsFor (keys ++ [])) z = keys.length :=
      lowerBound_append (by rwa [List.append_nil]) hz (by simp)
    rwa [List.append_nil] at happ
  rw [hend key fun x hx => (hall x hx).trans hlt, hend k hall]

/-- The separators of a node lie below the upper end of its span. -/
theorem Inv.keys_below (h : Inv t g) (hn : g n = some s)
    (hb : t.body n = some (newInternal keys children)) (hhi : s.hi = fence k) :
    keys.Pairwise (· < ·) ∧ ∀ x ∈ keys, x < k := by
  obtain ⟨l, -, hseg⟩ := h.seg hn hb
  refine ⟨sorted_of_fences hseg.sorted, fun x hx => ?_⟩
  have hs := (List.pairwise_cons.mp hseg.sorted).2
  rw [fencesOf, List.pairwise_append] at hs
  have hlt := hs.2.2 (fence x) (List.mem_map_of_mem hx) s.hi (List.mem_singleton_self _)
  rwa [hhi, fence_lt_fence] at hlt

theorem splitDescend_beyond (key : Bytes) (h : Inv t g) (hm : Holds t g m) (hn : g n = some s)
    (hb : t.body n = some (newInternal keys children)) (hhi : s.hi = fence k) (hlt : k < key)
    (hk : s.Covers k) :
    splitDescend (R := R) t n keys (headsFor keys) children key =
      splitDescend t n keys (headsFor keys) children k := by
  obtain ⟨hsorted, hall⟩ := h.keys_below hn hb hhi
  obtain ⟨l, hl, hseg⟩ := h.seg hn hb
  obtain ⟨A, B, f, F, C1, c, C2, hc⟩ := exists_childAt hseg hk.1 hk.2
  obtain ⟨cb, hcb, -⟩ := h.body c _ hc.child
  have hget : children[lowerBound keys (headsFor keys) key]? = some c := by
    rw [lowerBound_above hsorted hall hlt]
    exact hc.getElem?
  by_cases hfull : maxKeys ≤ cb.keyCount
  · obtain ⟨sep, left, rb, hsplit⟩ := splitBody_isSome h hc.child hcb hfull t.nodes.length
    obtain ⟨⟨hlow, hhigh⟩, hok⟩ := h.splitChild hm (hc.pairAt h hn hl hb) hcb hfull hsplit
    have hpos := hc.lowerBound_sep hseg.sorted hlow hhigh
    obtain ⟨hkeys, hheads, hchildren⟩ := hc.insert_sep sep t.nodes.length
    -- the separator of the split lies below the upper end as well
    have hf : f ≤ fence k := by
      have hspan := (List.pairwise_cons.mp hseg.sorted).2
      rw [hc.keys_eq, fencesOf_append, hc.fences_eq] at hspan
      cases B with
      | nil =>
        have hfe := hc.fences_eq
        simp only [fencesOf, List.map_nil, List.nil_append, List.cons.injEq] at hfe
        rw [← hfe.1, hhi]
      | cons b B =>
        have hfe := hc.fences_eq
        rw [fencesOf_cons, List.cons.injEq] at hfe
        rw [← hfe.1]
        exact (fence_lt_fence.mpr (hall b (by rw [hc.keys_eq]; simp))).le
    have hsep : sep < k := fence_lt_fence.mp (hhigh.trans_le hf)
    have hall' : ∀ x ∈ A ++ sep :: B, x < k := by
      intro x hx
      rw [List.mem_append, List.mem_cons] at hx
      rcases hx with hx | rfl | hx
      · exact hall x (by rw [hc.keys_eq]; exact List.mem_append_left _ hx)
      · exact hsep
      · exact hall x (by rw [hc.keys_eq]; exact List.mem_append_right _ hx)
    have hsorted' := hc.sorted_sep hseg.sorted hlow hhigh
    simp only [splitDescend, Option.bind_eq_bind, hget, hc.getElem?, Option.bind_some, hcb,
      if_pos hfull, hsplit, hpos, hkeys, hheads, hchildren,
      lowerBound_above hsorted' hall' hlt]
  · simp only [splitDescend, Option.bind_eq_bind, hget, hc.getElem?, Option.bind_some, hcb,
      if_neg hfull]

/-- The descending arm never finishes an operation. -/
theorem splitDescend_outcome {heads : List Nat} {v : Visit R}
    (hv : splitDescend t n keys heads children key = some v) : ∃ c, v.outcome = .descend c := by
  simp only [splitDescend, Option.bind_eq_bind] at hv
  obtain ⟨child, -, hv⟩ := Option.bind_eq_some_iff.mp hv
  obtain ⟨cb, -, hv⟩ := Option.bind_eq_some_iff.mp hv
  split at hv
  · obtain ⟨⟨sep, left, rb⟩, -, hv⟩ := Option.bind_eq_some_iff.mp hv
    obtain ⟨next, -, hv⟩ := Option.bind_eq_some_iff.mp hv
    cases hv
    exact ⟨next, rfl⟩
  · cases hv
    exact ⟨child, rfl⟩

/-- A nonempty leaf that ends below the key asks `insert` and `upsert` to start
over. -/
theorem restart_beyond (key val : Bytes) {E : List (Bytes × Bytes)} {next : Option NodeId}
    (h : Inv t g) (hn : g n = some s) (hb : t.body n = some (leafBody E next)) (hne : E ≠ [])
    (hhi : s.hi < fence key) :
    insertVisit key val t n = some (single n (leafBody E next) .restart) ∧
      upsertVisit key val t n = some (single n (leafBody E next) .restart) := by
  obtain ⟨-, hE, hnext⟩ := h.leaf hn hb
  have hall : ∀ x ∈ E.map Prod.fst, x < key := fun x hx =>
    fence_lt_fence.mp ((hE.inside x hx).2.trans_lt hhi)
  have hsome : next.isSome := by
    cases next with
    | some z => rfl
    | none =>
      have htop : s.hi = ⊤ := hnext
      rw [htop] at hhi
      exact absurd hhi not_top_lt
  have hkeys : E.map Prod.fst ≠ [] := fun h0 => hne (List.map_eq_nil_iff.mp h0)
  have hgap : next.isSome ∧ E.map Prod.fst ≠ [] ∧ (E.map Prod.fst).getLastD [] < key := by
    refine ⟨hsome, hkeys, hall _ ?_⟩
    rw [List.getLastD_eq_getLast?, List.getLast?_eq_some_getLast hkeys]
    exact List.getLast_mem hkeys
  have hmiss : (E.map Prod.fst)[lowerBound (E.map Prod.fst) (headsFor (E.map Prod.fst)) key]? ≠
      some key := fun hget => absurd (hall key (List.mem_of_getElem? hget)) (lt_irrefl _)
  constructor
  · simp only [insertVisit, hb, Option.bind_eq_bind, Option.bind_some, leafBody, newLeafWith,
      if_pos hgap, ite_self]
  · simp only [upsertVisit, hb, Option.bind_eq_bind, Option.bind_some, leafBody, newLeafWith,
      if_neg hmiss, if_pos hgap, ite_self]

/-- What a visit establishes that knows its node only to start below the key. -/
structure LowVisit (t : BTree) (g : Spans) (m : Contents) (task : Task) (v : Visit Answer)
    (g' : Spans) : Prop where
  ok : VisitOk t g v g'
  holds : Holds (t.perform v) g' (task.mapAfter m v.outcome)
  answers : ∀ a, v.outcome = .done a → task.Answers m a
  descends : ∀ c, v.outcome = .descend c → ∃ sc, g' c = some sc ∧ sc.lo < fence task.key

variable {task : Task} {v : Visit Answer}

theorem LowVisit.of_covers (h : Inv t g) (hm : Holds t g m) (hn : g n = some s)
    (hk : s.Covers task.key) (hv : task.visit t n = some v) :
    ∃ g', LowVisit t g m task v g' := by
  obtain ⟨g', hv'⟩ := Task.visit_spec h hm hn hk hv
  refine ⟨g', hv'.ok, hv'.holds, hv'.answers, fun c hc => ?_⟩
  obtain ⟨sc, hgc, -, hcov⟩ := hv'.descends c hc
  exact ⟨sc, hgc, hcov.1⟩

/-- A descent that goes by another key below this one. -/
theorem LowVisit.of_descent {task' : Task} {level : Nat} {g' : Spans}
    (hv : TaskVisit t g m task' level v g') (hkey : task'.key ≤ task.key)
    (hout : ∃ c, v.outcome = .descend c) : LowVisit t g m task v g' := by
  obtain ⟨c, hc⟩ := hout
  refine ⟨hv.ok, ?_, fun a ha => ?_, fun c' hc' => ?_⟩
  · have hholds := hv.holds
    rw [hc] at hholds ⊢
    cases task <;> cases task' <;> exact hholds
  · rw [hc] at ha
    cases ha
  · obtain ⟨sc, hgc, -, hcov⟩ := hv.descends c' hc'
    exact ⟨sc, hgc, hcov.1.trans_le (fence_le_fence.mpr hkey)⟩

/-- A leaf that is left alone. -/
theorem LowVisit.of_single {b : NodeBody} {o : Outcome Answer} (h : Inv t g) (hm : Holds t g m)
    (hn : g n = some s) (hb : t.body n = some b)
    (ho : o = .restart ∨ ∃ a, o = .done a ∧ task.Answers m a ∧ task.mapAfter m o = m) :
    LowVisit t g m task (single n b o) g := by
  refine ⟨VisitOk.single_same h hn hb, ?_, fun a ha => ?_, fun c hc => ?_⟩
  · rcases ho with rfl | ⟨a, rfl, -, heq⟩
    · have hsame : task.mapAfter m .restart = m := by cases task <;> rfl
      show Holds _ g (task.mapAfter m .restart)
      rw [hsame]
      exact hm.single_same hb
    · show Holds _ g (task.mapAfter m (.done a))
      rw [heq]
      exact hm.single_same hb
  · rcases ho with rfl | ⟨a', rfl, hans, -⟩
    · cases ha
    · cases ha
      exact hans
  · rcases ho with rfl | ⟨a', rfl, -⟩ <;> cases hc

/-- The visits of a fix-up pass need no more than a node that starts below the
key. -/
theorem fixVisit_low (h : Inv t g) (hm : Holds t g m) (hn : g n = some s) (hlo : s.lo < fence key)
    (hv : (Task.fix key).visit t n = some v) :
    ∃ g', LowVisit t g m (.fix key) v g' := by
  by_cases hhi : fence key ≤ s.hi
  · exact LowVisit.of_covers h hm hn ⟨hlo, hhi⟩ hv
  · obtain ⟨k, hk, hcov, hlt⟩ := h.hi_eq_fence hn (not_le.mp hhi)
    have hsame : (Task.fix key).visit t n = (Task.fix k).visit t n := by
      obtain ⟨b, hb, hok⟩ := h.body n s hn
      cases hok with
      | leaf _ _ _ _ => simp [Task.visit, fixVisit, hb, leafBody, newLeafWith]
      | internal _ _ =>
        obtain ⟨hsorted, hall⟩ := h.keys_below hn hb hk
        simp only [Task.visit, fixVisit, hb, Option.bind_eq_bind, Option.bind_some, newInternal,
          lowerBound_above hsorted hall hlt]
    rw [hsame] at hv
    have hcov' : s.Covers (Task.fix k).key := hcov
    obtain ⟨g', hv'⟩ := Task.visit_spec h hm hn hcov' hv
    refine ⟨g', hv'.ok, ?_, fun a ha => ?_, fun c hc => ?_⟩
    · exact hv'.holds
    · have hans := hv'.answers a ha
      cases a <;> exact hans
    · obtain ⟨sc, hgc, -, hcov'⟩ := hv'.descends c hc
      exact ⟨sc, hgc, hcov'.1.trans (fence_lt_fence.mpr hlt)⟩

/-- So do the visits of `insert` and `upsert`, except at an empty leaf. -/
theorem opVisit_low {op : Op} (h : Inv t g) (hm : Holds t g m) (hn : g n = some s)
    (hre : op.restarts = true) (hlo : s.lo < fence op.key)
    (hempty : ∀ z, t.body n = some (leafBody [] (some z)) → s.Covers op.key)
    (hv : (Task.op op).visit t n = some v) : ∃ g', LowVisit t g m (.op op) v g' := by
  by_cases hhi : fence op.key ≤ s.hi
  · exact LowVisit.of_covers h hm hn ⟨hlo, hhi⟩ hv
  obtain ⟨k, hk, hcov, hlt⟩ := h.hi_eq_fence hn (not_le.mp hhi)
  obtain ⟨b, hb, hok⟩ := h.body n s hn
  cases hok with
  | @leaf E next _ _ _ hnext =>
    have hne : E ≠ [] := by
      rintro rfl
      cases next with
      | none =>
        have htop : s.hi = ⊤ := hnext
        exact hhi (htop ▸ le_top)
      | some z => exact hhi (hempty z hb).2
    have hrestart : v = single n (leafBody E next) .restart := by
      cases op with
      | insert key val =>
        have hvisit := (restart_beyond key val h hn hb hne (not_le.mp hhi)).1
        rw [Task.visit, hvisit] at hv
        cases hv
        rfl
      | upsert key val =>
        have hvisit := (restart_beyond key val h hn hb hne (not_le.mp hhi)).2
        rw [Task.visit, hvisit] at hv
        cases hv
        rfl
      | updateInPlace key val => cases hre
      | remove key => cases hre
    subst hrestart
    exact ⟨g, .of_single h hm hn hb (Or.inl rfl)⟩
  | @internal keys children l _ _ =>
    have hsame : (Task.op op).visit t n = (Task.op (op.withKey k)).visit t n := by
      cases op with
      | insert key val =>
        simp only [Task.visit, Op.withKey, insertVisit, hb, Option.bind_eq_bind,
          Option.bind_some, newInternal]
        rw [splitDescend_beyond key h hm hn hb hk hlt hcov]
      | upsert key val =>
        simp only [Task.visit, Op.withKey, upsertVisit, hb, Option.bind_eq_bind,
          Option.bind_some, newInternal]
        rw [splitDescend_beyond key h hm hn hb hk hlt hcov]
      | updateInPlace key val => cases hre
      | remove key => cases hre
    have hkey : (Task.op (op.withKey k)).key = k := by cases op <;> rfl
    have hout : ∃ c, v.outcome = .descend c := by
      cases op with
      | insert key val =>
        simp only [Task.visit, insertVisit, hb, Option.bind_eq_bind, Option.bind_some,
          newInternal] at hv
        obtain ⟨w, hw, rfl⟩ := Option.map_eq_some_iff.mp hv
        exact (splitDescend_outcome hw).imp fun c hc => by simp [Visit.map, hc, Outcome.map]
      | upsert key val =>
        simp only [Task.visit, upsertVisit, hb, Option.bind_eq_bind, Option.bind_some,
          newInternal] at hv
        obtain ⟨w, hw, rfl⟩ := Option.map_eq_some_iff.mp hv
        exact (splitDescend_outcome hw).imp fun c hc => by simp [Visit.map, hc, Outcome.map]
      | updateInPlace key val => cases hre
      | remove key => cases hre
    rw [hsame] at hv
    obtain ⟨g', hv'⟩ := Task.visit_spec h hm hn (hkey.symm ▸ hcov) hv
    exact ⟨g', .of_descent hv' (hkey.trans_le hlt.le) hout⟩

end Beyond

end HenchDB.BTree
