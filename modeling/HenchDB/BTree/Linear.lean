import HenchDB.BTree.Calls

/-!
# Concurrent calls happen in some order

The order is that of the last visits of the descents: the visit that edits a
leaf, or that decides that there is nothing to edit.  Every step that spares
the other calls keeps the invariant that the tree stores the map of the
finished descents and that every call that is under way holds a node on its
track.
-/

namespace HenchDB.BTree

/-! ## The invariant -/

/-- The span serves a descent of the operation. -/
def Op.Aims (op : Op) (sn : Span) : Prop :=
  sn.lo < fence op.key ∧ (op.restarts = false → fence op.key ≤ sn.hi)

def CallOk (t : BTree) (retired : List NodeId) (g : Spans) (op : Op) : CallPc → Prop
  | .visiting n => Leads t retired g op.Aims n
  | .fixVisiting _ n => ∃ sn, g n = some sn ∧ sn.lo < fence op.key
  | _ => True

/-- The call is inside `fix_pass` or `collapse_root`. -/
def CallPc.fixes : CallPc → Bool
  | .fixRooting _ | .fixVisiting .. | .collapseRooting _ | .looking .. | .swapping .. => true
  | _ => false

/-- The invariant of concurrent calls that began on a tree that stores `m`. -/
structure CallsOk (m : Contents) (ops : List Op) (s : Calls) (g : Spans) : Prop where
  inv : Inv s.tree g
  holds : Holds s.tree g (mapAfter (s.order.map Prod.fst) m)
  order : s.order.map Prod.snd = mapResults (s.order.map Prod.fst) m
  ops : s.calls.map Prod.fst = ops
  results : s.order.Perm s.results
  retired : ∀ n ∈ s.retired, g n = none ∧ ∃ c, s.tree.body n = some (newInternal [] [c])
  mutex : ∀ (j : Nat) op pc, s.calls[j]? = some (op, pc) → pc.fixes = true → s.fixer = some j
  calls : ∀ (j : Nat) op pc, s.calls[j]? = some (op, pc) → CallOk s.tree s.retired g op pc

section Positions

variable {t t' : BTree} {retired : List NodeId} {g g' : Spans} {op : Op} {pc : CallPc}
  {n : NodeId} {v : Visit Answer}

theorem Op.aims_root (op : Op) (l : Nat) : op.Aims ⟨⊥, ⊤, l⟩ :=
  ⟨bot_lt_fence _, fun _ => le_top⟩

/-- Steps after which every live node is live as before. -/
theorem CallOk.of_live (hbody : ∀ n b, t.body n = some b → t'.body n = some b)
    (hlive : ∀ n sn, g n = some sn → g' n = some sn) (h : CallOk t retired g op pc) :
    CallOk t' retired g' op pc := by
  cases pc with
  | visiting n =>
    exact Leads.transfer h (fun z c hz hb => ⟨hz, hbody z _ hb⟩)
      fun x sx _ hgx hP => .live (hlive x sx hgx) hP
  | fixVisiting r n =>
    obtain ⟨sn, hn, hlo⟩ := h
    exact ⟨sn, hlive n sn hn, hlo⟩
  | _ => trivial

/-- A visit does not touch a node that is not live. -/
theorem VisitOk.dead {b : NodeBody} (hok : VisitOk t g v g') (hb : t.body n = some b)
    (hn : g n = none) : (t.perform v).body n = some b ∧ g' n = none := by
  have hlat : n ∉ v.latched := fun hmem => by
    obtain ⟨sn, hsn⟩ := hok.live n hmem
    rw [hn] at hsn
    cases hsn
  refine ⟨body_perform_other (fun p hp heq => hlat ?_) hb, ?_⟩
  · exact hok.released.mem_iff.mp (heq ▸ List.mem_map_of_mem hp)
  · refine (hok.frame.same n fun hmem => ?_).trans hn
    rcases hok.moved n hmem with hmem | rfl
    · exact hlat hmem
    · exact absurd (List.getElem?_eq_some_iff.mp hb).1 (lt_irrefl _)

theorem CallOk.of_visit (hok : VisitOk t g v g')
    (hret : ∀ z ∈ retired, g z = none)
    (hlost : ∀ n, pc = .visiting n → ∀ x, ExposedAt t retired n x → x ∉ v.change.lost)
    (hshrunk : ∀ n, pc = .visiting n → op.restarts = false →
      ∀ x, ExposedAt t retired n x → x ∉ v.change.shrunk)
    (hfix : pc.fixes = true → v.change.lost = []) (h : CallOk t retired g op pc) :
    CallOk (t.perform v) retired g' op pc := by
  cases pc with
  | visiting n =>
    refine Leads.transfer h (fun z c hz hb => ⟨hz, (hok.dead hb (hret z hz)).1⟩) ?_
    intro x sx hx hgx hP
    cases hre : op.restarts with
    | true =>
      obtain ⟨sx', hgx', -, hlo⟩ := hok.frame.kept x sx hgx (hlost n rfl x hx)
      exact .live hgx' ⟨hlo.trans_lt hP.1, by simp [hre]⟩
    | false =>
      obtain ⟨sx', hgx', -, hlo, hhi⟩ := hok.frame.grown x sx hgx (hshrunk n rfl hre x hx)
      exact .live hgx' ⟨hlo.trans_lt hP.1, fun _ => (hP.2 hre).trans hhi⟩
  | fixVisiting r n =>
    obtain ⟨sn, hn, hlo⟩ := h
    have hnl : n ∉ v.change.lost := by
      rw [hfix rfl]
      exact List.not_mem_nil
    obtain ⟨sn', hn', -, hlo'⟩ := hok.frame.kept n sn hn hnl
    exact ⟨sn', hn', hlo'.trans_lt hlo⟩
  | _ => trivial

/-- Only fix-up passes take the lower part of a node's keys away. -/
theorem splitDescend_lost {R : Type} {keys : List Bytes} {heads : List Nat}
    {children : List NodeId} {key : Bytes} {w : Visit R}
    (hv : splitDescend t n keys heads children key = some w) : w.change.lost = [] := by
  simp only [splitDescend, Option.bind_eq_bind] at hv
  obtain ⟨child, -, hv⟩ := Option.bind_eq_some_iff.mp hv
  obtain ⟨cb, -, hv⟩ := Option.bind_eq_some_iff.mp hv
  split at hv
  · obtain ⟨⟨sep, left, rb⟩, -, hv⟩ := Option.bind_eq_some_iff.mp hv
    obtain ⟨next, -, hv⟩ := Option.bind_eq_some_iff.mp hv
    cases hv
    rfl
  · cases hv
    rfl

theorem opVisit_lost (hv : (Task.op op).visit t n = some v) : v.change.lost = [] := by
  have hsingle : ∀ {R : Type} {b : NodeBody} {o : Outcome R} {w : Visit R},
      some (single n b o) = some w → w.change.lost = [] := by
    intro R b o w hw
    cases hw
    rfl
  cases op with
  | insert k x =>
    obtain ⟨w, hw, rfl⟩ := Option.map_eq_some_iff.mp hv
    show w.change.lost = []
    simp only [insertVisit, Option.bind_eq_bind] at hw
    obtain ⟨b, -, hw⟩ := Option.bind_eq_some_iff.mp hw
    cases b with
    | leaf keys heads vals next =>
      simp only at hw
      split at hw
      · exact hsingle hw
      split at hw
      · exact hsingle hw
      split at hw
      · exact hsingle hw
      · exact hsingle hw
    | internal keys heads children => exact splitDescend_lost hw
  | upsert k x =>
    obtain ⟨w, hw, rfl⟩ := Option.map_eq_some_iff.mp hv
    show w.change.lost = []
    simp only [upsertVisit, Option.bind_eq_bind] at hw
    obtain ⟨b, -, hw⟩ := Option.bind_eq_some_iff.mp hw
    cases b with
    | leaf keys heads vals next =>
      simp only at hw
      split at hw
      · obtain ⟨prev, -, hw⟩ := Option.bind_eq_some_iff.mp hw
        exact hsingle hw
      split at hw
      · exact hsingle hw
      split at hw
      · exact hsingle hw
      · exact hsingle hw
    | internal keys heads children => exact splitDescend_lost hw
  | updateInPlace k x =>
    obtain ⟨w, hw, rfl⟩ := Option.map_eq_some_iff.mp hv
    show w.change.lost = []
    simp only [updateVisit, Option.bind_eq_bind] at hw
    obtain ⟨b, -, hw⟩ := Option.bind_eq_some_iff.mp hw
    cases b with
    | leaf keys heads vals next =>
      simp only at hw
      split at hw
      · obtain ⟨prev, -, hw⟩ := Option.bind_eq_some_iff.mp hw
        exact hsingle hw
      · exact hsingle hw
    | internal keys heads children =>
      simp only at hw
      split at hw
      · exact hsingle hw
      · obtain ⟨child, -, hw⟩ := Option.bind_eq_some_iff.mp hw
        exact hsingle hw
  | remove k =>
    obtain ⟨w, hw, rfl⟩ := Option.map_eq_some_iff.mp hv
    show w.change.lost = []
    simp only [deleteVisit, Option.bind_eq_bind] at hw
    obtain ⟨b, -, hw⟩ := Option.bind_eq_some_iff.mp hw
    cases b with
    | leaf keys heads vals next =>
      simp only at hw
      split at hw
      · obtain ⟨prev, -, hw⟩ := Option.bind_eq_some_iff.mp hw
        exact hsingle hw
      · exact hsingle hw
    | internal keys heads children =>
      obtain ⟨child, -, hw⟩ := Option.bind_eq_some_iff.mp hw
      exact hsingle hw

/-- A visit of a swapped-out root that splits nothing leads to its child. -/
theorem retired_visit {c : NodeId} (hb : t.body n = some (newInternal [] [c]))
    (hv : (Task.op op).visit t n = some v) (hc : v.change = .none) :
    v = single n (newInternal [] [c]) (.descend c) := by
  have honly : ∀ {i : Nat} {child : NodeId}, [c][i]? = some child → child = c :=
    fun h => List.mem_singleton.mp (List.mem_of_getElem? h)
  have hplain : ∀ {R : Type} {key : Bytes} {w : Visit R},
      splitDescend t n [] [] [c] key = some w → w.change = .none →
        w = single n (newInternal [] [c]) (.descend c) := by
    intro R key w hw hnone
    simp only [splitDescend, Option.bind_eq_bind] at hw
    obtain ⟨child, hchild, hw⟩ := Option.bind_eq_some_iff.mp hw
    obtain ⟨cb, -, hw⟩ := Option.bind_eq_some_iff.mp hw
    split at hw
    · obtain ⟨⟨sep, left, rb⟩, -, hw⟩ := Option.bind_eq_some_iff.mp hw
      obtain ⟨next, -, hw⟩ := Option.bind_eq_some_iff.mp hw
      cases hw
      cases hnone
    · cases hw
      obtain rfl := honly hchild
      rfl
  cases op with
  | insert k x =>
    obtain ⟨w, hw, rfl⟩ := Option.map_eq_some_iff.mp hv
    simp only [insertVisit, hb, Option.bind_eq_bind, Option.bind_some, newInternal] at hw
    rw [hplain hw hc]
    rfl
  | upsert k x =>
    obtain ⟨w, hw, rfl⟩ := Option.map_eq_some_iff.mp hv
    simp only [upsertVisit, hb, Option.bind_eq_bind, Option.bind_some, newInternal] at hw
    rw [hplain hw hc]
    rfl
  | updateInPlace k x =>
    obtain ⟨w, hw, rfl⟩ := Option.map_eq_some_iff.mp hv
    simp only [updateVisit, hb, Option.bind_eq_bind, Option.bind_some, newInternal] at hw
    rw [if_neg (List.cons_ne_nil c [])] at hw
    obtain ⟨child, hchild, hw⟩ := Option.bind_eq_some_iff.mp hw
    cases hw
    obtain rfl := honly hchild
    rfl
  | remove k =>
    obtain ⟨w, hw, rfl⟩ := Option.map_eq_some_iff.mp hv
    simp only [deleteVisit, hb, Option.bind_eq_bind, Option.bind_some, newInternal] at hw
    obtain ⟨child, hchild, hw⟩ := Option.bind_eq_some_iff.mp hw
    cases hw
    obtain rfl := honly hchild
    rfl

end Positions

section Steps

variable {m : Contents} {ops : List Op} {s s' : Calls} {g g' : Spans} {i : Nat} {op : Op}
  {pc pc' : CallPc}

theorem onPath_covers {t : BTree} {key : Bytes} {n : NodeId} (h : Inv t g) (hp : OnPath t key n) :
    ∃ sn, g n = some sn ∧ sn.Covers key := by
  induction hp with
  | root =>
    obtain ⟨l, hr, -⟩ := h.root
    exact ⟨_, hr, bot_lt_fence key, (fence_lt_top key).le⟩
  | child _ hb hc ih =>
    obtain ⟨sn, hn, hk⟩ := ih
    obtain ⟨b, hb', hok⟩ := h.body _ sn hn
    rw [hb, Option.some.injEq] at hb'
    subst hb'
    generalize hgen : NodeBody.internal _ _ _ = b at hok hb
    cases hok with
    | leaf => cases hgen
    | internal _ _ =>
      obtain ⟨c, sc, hget, hgc, -, hcov⟩ := h.descend hn hb hk
      cases hgen
      rw [hc, Option.some.injEq] at hget
      exact ⟨sc, hget ▸ hgc, hcov⟩

/-- What happens to the calls when one of them moves. -/
theorem CallsOk.move (h : CallsOk m ops s g) (hi : s.calls[i]? = some (op, pc)) {t' : BTree}
    {fixer' : Option Nat} {retired' : List NodeId} {order' : List (Op × OpResult)}
    (hinv : Inv t' g') (hholds : Holds t' g' (mapAfter (order'.map Prod.fst) m))
    (horder : order'.map Prod.snd = mapResults (order'.map Prod.fst) m)
    (hresults : order'.Perm ((s.calls.set i (op, pc')).filterMap fun c =>
      c.2.result.map fun r => (c.1, r)))
    (hretired : ∀ n ∈ retired', g' n = none ∧ ∃ c, t'.body n = some (newInternal [] [c]))
    (hmutex : pc'.fixes = true → fixer' = some i)
    (hfixer : ∀ j, j ≠ i → s.fixer = some j → fixer' = some j)
    (hself : CallOk t' retired' g' op pc')
    (hothers : ∀ (j : Nat) op' pc'', j ≠ i → s.calls[j]? = some (op', pc'') →
      CallOk t' retired' g' op' pc'') :
    CallsOk m ops ⟨t', fixer', s.calls.set i (op, pc'), retired', order'⟩ g' := by
  have hlt := (List.getElem?_eq_some_iff.mp hi).1
  have hcall : ∀ (j : Nat) c, (s.calls.set i (op, pc'))[j]? = some c →
      (j = i ∧ c = (op, pc')) ∨ (j ≠ i ∧ s.calls[j]? = some c) := by
    intro j c hc
    by_cases hj : j = i
    · subst hj
      rw [List.getElem?_set_self hlt, Option.some.injEq] at hc
      exact Or.inl ⟨rfl, hc.symm⟩
    · rw [List.getElem?_set_ne (Ne.symm hj)] at hc
      exact Or.inr ⟨hj, hc⟩
  refine ⟨hinv, hholds, horder, ?_, hresults, hretired, fun j op' pc'' hj hfix => ?_,
    fun j op' pc'' hj => ?_⟩
  · show (s.calls.set i (op, pc')).map Prod.fst = ops
    rw [List.map_set, ← h.ops]
    exact List.set_same (by rw [List.getElem?_map, hi]; rfl)
  · rcases hcall j _ hj with ⟨rfl, heq⟩ | ⟨hne, hold⟩
    · cases heq
      exact hmutex hfix
    · exact hfixer j hne (h.mutex j op' pc'' hold hfix)
  · rcases hcall j _ hj with ⟨rfl, heq⟩ | ⟨hne, hold⟩
    · cases heq
      exact hself
    · exact hothers j op' pc'' hne hold

theorem CallsOk.results_same (h : CallsOk m ops s g) (hi : s.calls[i]? = some (op, pc))
    (hres : pc'.result = pc.result) :
    s.order.Perm ((s.calls.set i (op, pc')).filterMap fun c => c.2.result.map fun r => (c.1, r)) := by
  rw [List.filterMap_set_same hi (congrArg (Option.map fun r => (op, r)) hres)]
  exact h.results

/-- A call moves on without touching the tree. -/
theorem CallsOk.quiet (h : CallsOk m ops s g) (hi : s.calls[i]? = some (op, pc))
    {fixer' : Option Nat} (hres : pc'.result = pc.result)
    (hmutex : pc'.fixes = true → fixer' = some i)
    (hfixer : ∀ j, j ≠ i → s.fixer = some j → fixer' = some j)
    (hself : CallOk s.tree s.retired g op pc') :
    CallsOk m ops ({ s with fixer := fixer' }.goto i op pc') g :=
  h.move hi h.inv h.holds h.order (h.results_same hi hres) h.retired hmutex hfixer hself
    fun j op' pc'' _ hj => h.calls j op' pc'' hj

/-- Leaving the mutex to whoever held it. -/
theorem CallsOk.quiet_same (h : CallsOk m ops s g) (hi : s.calls[i]? = some (op, pc))
    (hres : pc'.result = pc.result) (hfix : pc'.fixes = true → pc.fixes = true)
    (hself : CallOk s.tree s.retired g op pc') : CallsOk m ops (s.goto i op pc') g :=
  h.quiet hi hres (fun hf => h.mutex i op pc hi (hfix hf)) (fun _ _ hj => hj) hself

theorem CallsOk.quiet_release (h : CallsOk m ops s g) (hi : s.calls[i]? = some (op, pc))
    (hres : pc'.result = pc.result) (hfix : pc.fixes = true) (hfix' : pc'.fixes = false)
    (hself : CallOk s.tree s.retired g op pc') :
    CallsOk m ops ({ s with fixer := none }.goto i op pc') g := by
  refine h.quiet hi hres (fun hf => ?_) (fun j hne hj => ?_) hself
  · rw [hfix'] at hf
    cases hf
  · rw [h.mutex i op pc hi hfix, Option.some.injEq] at hj
    exact absurd hj.symm hne

theorem CallsOk.retired_dead (h : CallsOk m ops s g) : ∀ n ∈ s.retired, g n = none :=
  fun n hn => (h.retired n hn).1

/-- The other calls after a visit of the call `i`. -/
theorem CallsOk.others (h : CallsOk m ops s g) (hsp : s.Spares i) {v : Visit Answer}
    (hok : VisitOk s.tree g v g') (hchange : s.change i = v.change)
    (hfix : ∀ j, j ≠ i → s.fixer = some j → v.change.lost = []) {j : Nat} {op' : Op}
    {pc'' : CallPc} (hne : j ≠ i) (hj : s.calls[j]? = some (op', pc'')) :
    CallOk (s.tree.perform v) s.retired g' op' pc'' := by
  refine (h.calls j op' pc'' hj).of_visit hok h.retired_dead ?_ ?_
    fun hf => hfix j hne (h.mutex j op' pc'' hj hf)
  · rintro n rfl
    exact hchange ▸ hsp.lost j op' n hne hj
  · rintro n rfl
    exact hchange ▸ hsp.shrunk j op' n hne hj

/-- Swapped-out roots after a visit. -/
theorem CallsOk.retired_visit (h : CallsOk m ops s g) {v : Visit Answer}
    (hok : VisitOk s.tree g v g') : ∀ n ∈ s.retired, g' n = none ∧
      ∃ c, (s.tree.perform v).body n = some (newInternal [] [c]) := by
  intro n hn
  obtain ⟨hg, c, hb⟩ := h.retired n hn
  obtain ⟨hb', hg'⟩ := hok.dead hb hg
  exact ⟨hg', c, hb'⟩

/-- A visit of the descent of an operation. -/
theorem CallsOk.step_visiting (h : CallsOk m ops s g) (hsp : s.Spares i) {n : NodeId}
    (hi : s.calls[i]? = some (op, .visiting n)) (hstep : callStep s i = some s') :
    ∃ g', CallsOk m ops s' g' := by
  simp only [callStep, hi, Option.bind_eq_bind, Option.bind_some] at hstep
  obtain ⟨v, hv, hstep⟩ := Option.bind_eq_some_iff.mp hstep
  have hchange : s.change i = v.change := by simp [Calls.change, hi, hv]
  have hlost : v.change.lost = [] := opVisit_lost hv
  -- what the visit does to the tree, and where it leads
  have hvisit : ∃ g', Inv (s.tree.perform v) g' ∧
      Holds (s.tree.perform v) g' ((Task.op op).mapAfter (mapAfter (s.order.map Prod.fst) m)
        v.outcome) ∧
      (∀ a, v.outcome = .done a → (Task.op op).Answers (mapAfter (s.order.map Prod.fst) m) a) ∧
      (∀ c, v.outcome = .descend c → Leads (s.tree.perform v) s.retired g' op.Aims c) ∧
      (∀ z ∈ s.retired, g' z = none ∧
        ∃ c, (s.tree.perform v).body z = some (newInternal [] [c])) ∧
      ∀ (j : Nat) op' pc'', j ≠ i → s.calls[j]? = some (op', pc'') →
        CallOk (s.tree.perform v) s.retired g' op' pc'' := by
    have hcall : Leads s.tree s.retired g op.Aims n := h.calls i op _ hi
    cases hcall with
    | @live _ sn hn haim =>
      have hlow : ∃ g', LowVisit s.tree g (mapAfter (s.order.map Prod.fst) m) (.op op) v g' ∧
          ∀ c, v.outcome = .descend c → ∃ sc, g' c = some sc ∧ op.Aims sc := by
        cases hre : op.restarts with
        | true =>
          obtain ⟨g', hlow⟩ := opVisit_low h.inv h.holds hn hre haim.1 (fun z hb => by
            obtain ⟨sn', hn', hcov⟩ := onPath_covers h.inv (hsp.onPath op n z hi hre hb)
            rw [hn, Option.some.injEq] at hn'
            exact hn' ▸ hcov) hv
          refine ⟨g', hlow, fun c hc => ?_⟩
          obtain ⟨sc, hgc, hlo⟩ := hlow.descends c hc
          exact ⟨sc, hgc, hlo, by simp [hre]⟩
        | false =>
          have hk : sn.Covers (Task.op op).key := ⟨haim.1, haim.2 hre⟩
          obtain ⟨g', hv'⟩ := Task.visit_spec h.inv h.holds hn hk hv
          refine ⟨g', ⟨hv'.ok, hv'.holds, hv'.answers, fun c hc => ?_⟩, fun c hc => ?_⟩
          · obtain ⟨sc, hgc, -, hcov⟩ := hv'.descends c hc
            exact ⟨sc, hgc, hcov.1⟩
          · obtain ⟨sc, hgc, -, hcov⟩ := hv'.descends c hc
            exact ⟨sc, hgc, hcov.1, fun _ => hcov.2⟩
      obtain ⟨g', hlow, hdesc⟩ := hlow
      refine ⟨g', hlow.ok.inv, hlow.holds, hlow.answers, fun c hc => ?_,
        h.retired_visit hlow.ok, fun j op' pc'' hne hj =>
          h.others hsp hlow.ok hchange (fun _ _ _ => hlost) hne hj⟩
      obtain ⟨sc, hgc, haim'⟩ := hdesc c hc
      exact .live hgc haim'
    | @retired _ c hret hb hlead =>
      obtain rfl := BTree.retired_visit hb hv (hchange ▸ hsp.attached op n hi hret)
      have hnodes : (s.tree.perform (single (R := Answer) n (newInternal [] [c])
          (.descend c))).nodes = s.tree.nodes := perform_nodes_same rfl (by simpa [single] using hb)
      have hbody : ∀ z b, s.tree.body z = some b → (s.tree.perform
          (single (R := Answer) n (newInternal [] [c]) (.descend c))).body z = some b := by
        intro z b hz
        rw [BTree.body, hnodes]
        exact hz
      refine ⟨g, h.inv.congr hnodes rfl, h.holds.congr hnodes, ?_, ?_, ?_, ?_⟩
      · simp [single]
      · intro c' hc'
        cases hc'
        exact hlead.transfer (fun z c hz hb => ⟨hz, hbody z _ hb⟩) fun x sx _ hgx hP => .live hgx hP
      · intro z hz
        obtain ⟨hg, c', hb'⟩ := h.retired z hz
        exact ⟨hg, c', hbody z _ hb'⟩
      · exact fun j op' pc'' _ hj => (h.calls j op' pc'' hj).of_live hbody fun _ _ hn => hn
  obtain ⟨g', hinv, hholds, hans, hdesc, hretired, hothers⟩ := hvisit
  cases ho : v.outcome with
  | descend c =>
    simp only [ho, Option.some.injEq] at hstep
    subst hstep
    rw [ho] at hholds
    exact ⟨g', h.move hi hinv hholds h.order (h.results_same hi rfl) hretired (by simp [CallPc.fixes])
      (fun _ _ hj => hj) (hdesc c ho) hothers⟩
  | restart =>
    simp only [ho, Option.some.injEq] at hstep
    subst hstep
    rw [ho] at hholds
    exact ⟨g', h.move hi hinv hholds h.order (h.results_same hi rfl) hretired (by simp [CallPc.fixes])
      (fun _ _ hj => hj) trivial hothers⟩
  | done a =>
    rw [ho] at hholds
    have hres := hans a ho
    cases a with
    | fixed b => exact hres.elim
    | returned r =>
      simp only [ho, Option.some.injEq] at hstep
      subst hstep
      have hafter : (CallPc.after op r).result = some r ∧ (CallPc.after op r).fixes = false := by
        unfold CallPc.after
        split <;> exact ⟨rfl, rfl⟩
      refine ⟨g', h.move hi hinv ?_ ?_ ?_ hretired ?_ (fun _ _ hj => hj) ?_ hothers⟩
      · rw [List.map_append, List.map_singleton, mapAfter_concat]
        exact hholds
      · rw [List.map_append, List.map_append, List.map_singleton, List.map_singleton,
          mapResults_concat, h.order, show r = _ from hres]
      · exact (h.results.append_right _).trans (List.perm_filterMap_set hi rfl
          (by simp [hafter.1]))
      · simp [hafter.2]
      · unfold CallPc.after
        split <;> trivial

theorem CallsOk.step_fixVisiting (h : CallsOk m ops s g) (hsp : s.Spares i) {r : OpResult}
    {n : NodeId} (hi : s.calls[i]? = some (op, .fixVisiting r n))
    (hstep : callStep s i = some s') : ∃ g', CallsOk m ops s' g' := by
  simp only [callStep, hi, Option.bind_eq_bind, Option.bind_some] at hstep
  obtain ⟨v, hv, hstep⟩ := Option.bind_eq_some_iff.mp hstep
  have hchange : s.change i = v.change := by simp [Calls.change, hi, hv]
  have hheld : s.fixer = some i := h.mutex i op _ hi rfl
  obtain ⟨sn, hn, hlo⟩ := h.calls i op _ hi
  obtain ⟨g', hlow⟩ := fixVisit_low h.inv h.holds hn hlo hv
  have hothers : ∀ (j : Nat) op' pc'', j ≠ i → s.calls[j]? = some (op', pc'') →
      CallOk (s.tree.perform v) s.retired g' op' pc'' := fun j op' pc'' hne hj =>
    h.others hsp hlow.ok hchange (fun j hne' hj' => by
      rw [hheld, Option.some.injEq] at hj'
      exact absurd hj'.symm hne') hne hj
  have hrelease : ∀ j, j ≠ i → s.fixer = some j → none = some j := fun j hne hj => by
    rw [hheld, Option.some.injEq] at hj
    exact absurd hj.symm hne
  have hholds : Holds (s.tree.perform v) g' (mapAfter (s.order.map Prod.fst) m) := hlow.holds
  cases ho : v.outcome with
  | descend c =>
    simp only [ho, Option.some.injEq] at hstep
    subst hstep
    exact ⟨g', h.move hi hlow.ok.inv hholds h.order (h.results_same hi rfl) (h.retired_visit hlow.ok)
      (fun _ => hheld) (fun _ _ hj => hj) (hlow.descends c ho) hothers⟩
  | restart =>
    simp only [ho] at hstep
    cases hstep
  | done a =>
    cases a with
    | returned r' =>
      simp only [ho] at hstep
      cases hstep
    | fixed merged =>
      cases merged with
      | true =>
        simp only [ho, Option.some.injEq] at hstep
        subst hstep
        exact ⟨g', h.move hi hlow.ok.inv hholds h.order (h.results_same hi rfl)
          (h.retired_visit hlow.ok) (by simp [CallPc.fixes]) hrelease trivial hothers⟩
      | false =>
        simp only [ho, Option.some.injEq] at hstep
        subst hstep
        exact ⟨g', h.move hi hlow.ok.inv hholds h.order (h.results_same hi rfl)
          (h.retired_visit hlow.ok) (by simp [CallPc.fixes]) hrelease trivial hothers⟩

theorem CallsOk.wrap (h : CallsOk m ops s g) (hi : s.calls[i]? = some (op, .wrapping)) :
    ∃ g', CallsOk m ops ({ s with tree := s.tree.wrapRoot }.goto i op .retry) g' := by
  obtain ⟨l, -, hinv⟩ := h.inv.wrapRoot
  have hbody : ∀ n b, s.tree.body n = some b → s.tree.wrapRoot.body n = some b := fun n b hb =>
    (List.getElem?_append_left (List.getElem?_eq_some_iff.mp hb).1).trans hb
  refine ⟨_, h.move hi hinv (h.holds.wrapRoot h.inv) h.order (h.results_same hi rfl)
    (fun n hn => ?_) (by simp [CallPc.fixes]) (fun _ _ hj => hj) trivial fun j op' pc'' _ hj =>
      (h.calls j op' pc'' hj).of_live hbody fun n sn hn => withRoot_of_live h.inv hn⟩
  obtain ⟨hg, c, hb⟩ := h.retired n hn
  have hne : n ≠ s.tree.nodes.length := fun he =>
    absurd (List.getElem?_eq_some_iff.mp hb).1 (by simp [he])
  exact ⟨by simp [withRoot, hne, hg], c, hbody n _ hb⟩

theorem CallsOk.swap (h : CallsOk m ops s g) {r : OpResult} {child : NodeId}
    (hi : s.calls[i]? = some (op, .swapping r s.tree.root (some child)))
    (hsingle : (s.tree.body s.tree.root).bind singleChild = some child) :
    ∃ g', CallsOk m ops ({ s with tree := s.tree.collapseTo child,
                                  retired := s.tree.root :: s.retired }.goto i op
      (.collapseRooting r)) g' := by
  obtain ⟨b, hb, hsc⟩ := Option.bind_eq_some_iff.mp hsingle
  obtain ⟨l, hr, rfl, hgc, -⟩ := h.inv.singleChild_span hb hsc
  have hheld : s.fixer = some i := h.mutex i op _ hi rfl
  have hne : child ≠ s.tree.root := by
    rintro rfl
    rw [hr, Option.some.injEq, Span.mk.injEq] at hgc
    omega
  have hchild : withoutRoot g s.tree.root child = some ⟨⊥, ⊤, l⟩ := by
    simp [withoutRoot, hne, hgc]
  refine ⟨_, h.move hi (h.inv.collapse hb hsc) h.holds.collapse h.order
    (h.results_same hi rfl) (fun n hn => ?_) (fun _ => hheld) (fun _ _ hj => hj) trivial
    fun j op' pc'' hne hj => ?_⟩
  · rcases List.mem_cons.mp hn with rfl | hn'
    · exact ⟨by simp [withoutRoot], child, hb⟩
    · obtain ⟨hg, c, hb'⟩ := h.retired n hn'
      refine ⟨?_, c, hb'⟩
      unfold withoutRoot
      split
      · rfl
      · exact hg
  · have hok := h.calls j op' pc'' hj
    cases pc'' with
    | visiting n =>
      refine Leads.transfer hok (fun z c hz hbz => ⟨List.mem_cons_of_mem _ hz, hbz⟩) ?_
      intro x sx _ hgx hP
      by_cases hx : x = s.tree.root
      · subst hx
        exact .retired (List.mem_cons_self ..) hb (.live hchild (op'.aims_root l))
      · exact .live (by simp [withoutRoot, hx, hgx]) hP
    | fixVisiting r' n =>
      -- nobody else is inside a fix-up pass
      have hother := h.mutex j op' _ hj rfl
      rw [hheld, Option.some.injEq] at hother
      exact absurd hother.symm hne
    | _ => trivial

theorem CallsOk.step (h : CallsOk m ops s g) (hsp : s.Spares i) (hstep : callStep s i = some s') :
    ∃ g', CallsOk m ops s' g' := by
  have hstep' := hstep
  unfold callStep at hstep
  rw [Option.bind_eq_bind] at hstep
  obtain ⟨⟨op, pc⟩, hi, hstep⟩ := Option.bind_eq_some_iff.mp hstep
  obtain ⟨l, hr, -⟩ := h.inv.root
  cases pc with
  | retry =>
    cases hstep
    exact ⟨g, h.quiet_same hi rfl (by simp [CallPc.fixes]) trivial⟩
  | counting n =>
    simp only at hstep
    split at hstep
    · cases hstep
      exact ⟨g, h.quiet_same hi rfl (by simp [CallPc.fixes]) trivial⟩
    · cases hstep
      exact ⟨g, h.quiet_same hi rfl (by simp [CallPc.fixes]) trivial⟩
  | wrapping =>
    simp only at hstep
    split at hstep
    · cases hstep
      exact h.wrap hi
    · cases hstep
      exact ⟨g, h.quiet_same hi rfl (by simp [CallPc.fixes]) trivial⟩
  | rooting =>
    cases hstep
    exact ⟨g, h.quiet_same hi rfl (by simp [CallPc.fixes]) (.live hr (op.aims_root l))⟩
  | visiting n => exact h.step_visiting hsp hi hstep'
  | fixing r =>
    simp only at hstep
    split at hstep
    · next hfree =>
      cases hstep
      refine ⟨g, h.quiet hi rfl (fun _ => rfl) (fun j _ hj => ?_) trivial⟩
      rw [hfree] at hj
      cases hj
    · cases hstep
  | fixRooting r =>
    cases hstep
    exact ⟨g, h.quiet_same hi rfl (fun _ => rfl) ⟨_, hr, bot_lt_fence _⟩⟩
  | fixVisiting r n => exact h.step_fixVisiting hsp hi hstep'
  | collapsing r =>
    simp only at hstep
    split at hstep
    · next hfree =>
      cases hstep
      refine ⟨g, h.quiet hi rfl (fun _ => rfl) (fun j _ hj => ?_) trivial⟩
      rw [hfree] at hj
      cases hj
    · cases hstep
  | collapseRooting r =>
    cases hstep
    exact ⟨g, h.quiet_same hi rfl (fun _ => rfl) trivial⟩
  | looking r cur =>
    cases hstep
    exact ⟨g, h.quiet_same hi rfl (fun _ => rfl) trivial⟩
  | swapping r cur single =>
    cases single with
    | none =>
      cases hstep
      exact ⟨g, h.quiet_release hi rfl rfl rfl trivial⟩
    | some child =>
      simp only at hstep
      split at hstep
      · next hroot =>
        cases hstep
        subst hroot
        exact h.swap hi (hsp.single op r child hi)
      · cases hstep
        exact ⟨g, h.quiet_release hi rfl rfl rfl trivial⟩
  | returned r => cases hstep

theorem callsOk_start {t : BTree} (hinv : Inv t g) (hm : Holds t g m) (ops : List Op) :
    CallsOk m ops (Calls.start t ops) g := by
  have hcall : ∀ (j : Nat) op pc, (Calls.start t ops).calls[j]? = some (op, pc) →
      pc = .start op := by
    intro j op pc hj
    obtain ⟨op', -, heq⟩ := Option.map_eq_some_iff.mp ((List.getElem?_map ..).symm.trans hj)
    cases heq
    rfl
  refine ⟨hinv, hm, rfl, ?_, ?_, by simp [Calls.start], fun j op pc hj hf => ?_,
    fun j op pc hj => ?_⟩
  · simp [Calls.start, Function.comp_def]
  · have hnone : ∀ op, (CallPc.start op).result = none := fun op => by cases op <;> rfl
    simp [Calls.start, Calls.results, List.filterMap_map, hnone]
  · rw [hcall j op pc hj] at hf
    cases op <;> cases hf
  · rw [hcall j op pc hj]
    cases op <;> trivial

end Steps

/-! ## Whole runs -/

def Calls.returned (s : Calls) : List (Op × OpResult) :=
  s.calls.filterMap fun c =>
    match c.2 with
    | .returned r => some (c.1, r)
    | _ => none

theorem results_of_allReturned {s : Calls} (h : s.AllReturned) : s.results = s.returned := by
  refine List.filterMap_congr fun c hc => ?_
  obtain ⟨r, hr⟩ := h c hc
  simp [hr, CallPc.result]

theorem ops_of_allReturned {s : Calls} (h : s.AllReturned) :
    s.returned.map Prod.fst = s.calls.map Prod.fst := by
  unfold Calls.returned
  rw [List.map_filterMap]
  rw [← List.filterMap_eq_map]
  refine List.filterMap_congr fun c hc => ?_
  obtain ⟨r, hr⟩ := h c hc
  simp [hr]

/-- When every step spares the other calls and all calls have returned, the
stored map and the returned values are those of the calls in some order, one
after another. -/
theorem spared_calls_in_order {l : List (Op × OpResult)} {t : BTree} {ops : List Op} {s : Calls}
    (ht : Run new l t) (hrun : Relation.ReflTransGen SparingCallStep (Calls.start t ops) s)
    (hret : s.AllReturned) :
    s.returned.map Prod.fst = ops ∧
      ∃ order : List (Op × OpResult), order.Perm s.returned ∧
        order.map Prod.snd = mapResults (order.map Prod.fst)
          (mapAfter (l.map Prod.fst) fun _ => none) ∧
        ∀ k, ∃ bound, ∀ fuel, bound ≤ fuel → s.tree.get fuel k =
          some (mapAfter (order.map Prod.fst) (mapAfter (l.map Prod.fst) fun _ => none) k) := by
  obtain ⟨-, g, hinv, hm⟩ := ht.stores stores_new
  have hok : ∃ g, CallsOk (mapAfter (l.map Prod.fst) fun _ => none) ops s g := by
    refine Transition.invariant
      (P := fun s => ∃ g, CallsOk (mapAfter (l.map Prod.fst) fun _ => none) ops s g)
      ⟨g, callsOk_start hinv hm ops⟩ ?_ hrun
    rintro a b ⟨g, hg⟩ ⟨i, hsp, hstep⟩
    exact hg.step hsp hstep
  obtain ⟨g', hok⟩ := hok
  refine ⟨(ops_of_allReturned hret).trans hok.ops, s.order, ?_, hok.order, ?_⟩
  · exact results_of_allReturned hret ▸ hok.results
  · exact Stores.get ⟨g', hok.inv, hok.holds⟩

/-- A step that restructures nothing, visits no empty leaf with a successor and
swaps no root. -/
def Calls.calm (s : Calls) (i : Nat) : Bool :=
  s.change i == .none &&
    match s.calls[i]? with
    | some (_, .visiting n) =>
      match s.tree.body n with
      | some (.leaf [] _ _ (some _)) => false
      | _ => true
    | some (_, .swapping _ _ (some _)) => false
    | _ => true

/-- Such a step spares everyone. -/
theorem Calls.Spares.of_calm {s : Calls} {i : Nat} (h : s.calm i = true) : s.Spares i := by
  rw [Calls.calm, Bool.and_eq_true, beq_iff_eq] at h
  obtain ⟨hchange, hrest⟩ := h
  refine ⟨fun _ _ _ _ _ x _ => ?_, fun _ _ _ _ _ _ x _ => ?_, fun _ _ _ _ => hchange,
    fun op n z hi _ hb => ?_, fun op r child hi => ?_⟩
  · rw [hchange]
    exact List.not_mem_nil
  · rw [hchange]
    exact List.not_mem_nil
  · simp [hi, hb, leafBody, newLeafWith] at hrest
  · simp [hi] at hrest

/-- An insert and a removal of one key, interleaved. -/
def calmSchedule : List Nat := 1 :: List.replicate 4 0 ++ List.replicate 8 1

theorem calmSchedule_returns :
    (Transition.exec (fun i s => if s.calm i then callStep s i else none) (fun _ => true)
      calmSchedule (Calls.start new [.insert [1] [7], .remove [1]])).map Calls.calls =
        some [(.insert [1] [7], .returned (.inserted true)),
          (.remove [1], .returned (.previous (some [7])))] := by
  decide +kernel

/-- An insert and a removal that run beside each other have an order. -/
theorem spared_calls_in_order_of_two :
    ∃ order : List (Op × OpResult),
      order.Perm [(.insert [1] [7], .inserted true), (.remove [1], .previous (some [7]))] ∧
        order.map Prod.snd = mapResults (order.map Prod.fst) fun _ => none := by
  obtain ⟨s, hexec, hcalls⟩ := Option.map_eq_some_iff.mp calmSchedule_returns
  have hnext : ∀ i a b, (if a.calm i then callStep a i else none) = some b →
      SparingCallStep a b := by
    intro i a b hab
    split at hab
    · next hcalm => exact ⟨i, .of_calm hcalm, hab⟩
    · cases hab
  have hrun := Relation.ReflTransGen.mono (fun _ _ hab => hab.1) _ _
    (Transition.exec_reaches hnext hexec)
  have hret : s.AllReturned := by
    unfold Calls.AllReturned
    rw [hcalls]
    simp
  obtain ⟨-, order, hperm, hres, -⟩ := spared_calls_in_order (Run.nil new) hrun hret
  refine ⟨order, ?_, hres⟩
  simpa [Calls.returned, hcalls] using hperm

/-- The removal clones the root pointer, the insert wraps and splits the root,
and the removal goes on in the left half. -/
def removeRace : List Nat := 0 :: List.replicate 8 1 ++ [0]

set_option maxRecDepth 100000 in
theorem removeRace_misses :
    ((runOps 8 new ((List.range 128).map fun i => .insert (keyAt i) [1])).bind fun x =>
      (Transition.exec (fun i s => callStep s i) (fun _ => true) removeRace
        (Calls.start x.1 [.remove (keyAt 100), .insert (keyAt 128) [1]])).map fun s =>
          (s.calls, mapAfter (x.2.map Prod.fst) (fun _ => none) (keyAt 100))) =
      some ([(.remove (keyAt 100), .returned (.previous none)),
        (.insert (keyAt 128) [1], .returned (.inserted true))], some [1]) := by
  decide +kernel

/-- A removal reports a stored key as absent, which it does in no order, when
the leaf is split between its clone of the root pointer and its visit. -/
theorem remove_misses_during_split :
    ∃ l t s, Run new l t ∧
      Relation.ReflTransGen CallStep
        (Calls.start t [.remove (keyAt 100), .insert (keyAt 128) [1]]) s ∧
      s.AllReturned ∧
      ∀ order : List (Op × OpResult), order.Perm s.returned → order.map Prod.snd ≠
        mapResults (order.map Prod.fst) (mapAfter (l.map Prod.fst) fun _ => none) := by
  obtain ⟨⟨t, l⟩, hops, hrace⟩ := Option.bind_eq_some_iff.mp removeRace_misses
  obtain ⟨s, hexec, heq⟩ := Option.map_eq_some_iff.mp hrace
  rw [Prod.mk.injEq] at heq
  obtain ⟨hcalls, hstored⟩ := heq
  have hnext : ∀ i a b, callStep a i = some b → CallStep a b := fun i _ _ hab => ⟨i, hab⟩
  refine ⟨l, t, s, run_of_runOps hops, Relation.ReflTransGen.mono (fun _ _ hab => hab.1) _ _
    (Transition.exec_reaches hnext hexec), ?_, fun order hperm hres => ?_⟩
  · unfold Calls.AllReturned
    rw [hcalls]
    simp
  · have hperm' : order.Perm [(Op.remove (keyAt 100), OpResult.previous none),
        (Op.insert (keyAt 128) [1], OpResult.inserted true)] := by
      simpa [Calls.returned, hcalls] using hperm
    have hne : keyAt 100 ≠ keyAt 128 := by decide
    simp only at hstored
    rcases List.eq_or_eq_of_perm_pair hperm' with rfl | rfl
    · simp [mapResults, Op.onMap, hstored] at hres
    · have hkeep : ((Op.insert (keyAt 128) [1]).onMap (mapAfter (l.map Prod.fst) fun _ => none)).2
          (keyAt 100) = some [1] := by
        simp only [Op.onMap]
        split
        · rw [Function.update_of_ne hne]
          exact hstored
        · exact hstored
      simp only [List.map_cons, List.map_nil, mapResults, List.cons.injEq] at hres
      have hprev : OpResult.previous none = .previous (some [1]) := hres.2.1.trans (congrArg _ hkeep)
      cases hprev

end HenchDB.BTree
