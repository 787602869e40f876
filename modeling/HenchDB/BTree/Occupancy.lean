import HenchDB.BTree.Sized
import HenchDB.BTree.Refinement

/-!
# Sizes of nodes over whole runs

Every operation that returns leaves the sizes of all nodes right.  An insertion
wraps a full root and splits it at once.  A removal leaves at most one short
node, the fix-up passes move the shortage up to the root, and collapsing the
root removes it.
-/

namespace HenchDB.BTree

def Tidy (t : BTree) : Prop := ∃ g m, Inv t g ∧ Holds t g m ∧ Sized t g none

def ShortOnPath (t : BTree) (key : Bytes) : Prop :=
  ∃ g m d, Inv t g ∧ Holds t g m ∧ Sized t g d ∧ Covering g key d

def ShortAtRoot (t : BTree) : Prop := ∃ g m, Inv t g ∧ Holds t g m ∧ Sized t g (some t.root)

theorem Sized.congr {t t' : BTree} {g : Spans} {d : Option NodeId} (h : Sized t g d)
    (hnodes : t'.nodes = t.nodes) (hroot : t'.root = t.root) : Sized t' g d := by
  intro n s b hn hb
  rw [BTree.body, hnodes] at hb
  rw [hroot]
  exact h n s b hn hb

/-- The counters do not matter. -/
theorem Tidy.congr {t t' : BTree} (h : Tidy t) (hnodes : t'.nodes = t.nodes)
    (hroot : t'.root = t.root) : Tidy t' := by
  obtain ⟨g, m, hinv, hm, hsized⟩ := h
  exact ⟨g, m, hinv.congr hnodes hroot, hm.congr hnodes, hsized.congr hnodes hroot⟩

theorem tidy_new : Tidy new := by
  refine ⟨freshSpans, _, inv_new, holds_new, fun n s b hn hb => ?_⟩
  unfold freshSpans at hn
  split at hn
  · next h0 =>
    subst h0
    cases hb
    exact ⟨by simp [least, new, newLeafWith, NodeBody.isLeaf], by simp [NodeBody.fanout, newLeafWith]⟩
  · cases hn

/-! ## Descents -/

section Descents

variable {R : Type} {visit : BTree → NodeId → Option (Visit R)} {key : Bytes}
  {post : Contents → R → Contents → Prop} {pre : BTree → Spans → NodeId → Prop}
  {shrinks : R → Bool}

theorem descendFrom_sized (hspec : VisitSpec visit key post)
    (hsize : SizeSpec visit key pre shrinks) (hpre : ∀ {t g n}, Sized t g none → pre t g n) :
    ∀ {fuel : Nat} {t : BTree} {g : Spans} {m : Contents} {n : NodeId} {s : Span} {t' : BTree}
      {o : Option R}, Inv t g → Holds t g m → pre t g n → g n = some s → s.Covers key →
      descendFrom visit fuel t n = some (t', o) →
      Tidy t' ∨ ∃ r, o = some r ∧ shrinks r = true ∧ ShortOnPath t' key
  | 0, _, _, _, _, _, _, _, _, _, _, _, _, h => by simp [descendFrom] at h
  | fuel + 1, t, g, m, n, s, t', o, hinv, hm, hp, hn, hk, h => by
    rw [descendFrom, Option.bind_eq_bind] at h
    obtain ⟨v, hv, h⟩ := Option.bind_eq_some_iff.mp h
    obtain ⟨g', hok, hout⟩ := hspec hinv hm hn hk hv
    have hsized := hsize hinv hp hn hk hv hok
    cases ho : v.outcome with
    | done r =>
      rw [ho] at h hout hsized
      cases h
      obtain ⟨m', -, hholds⟩ := hout
      rcases hsized with hsized | ⟨r', d, hr, hshrinks, hsized, hpath⟩
      · exact Or.inl ⟨g', m', hok.inv, hholds, hsized⟩
      · cases hr
        exact Or.inr ⟨r, rfl, hshrinks, g', m', d, hok.inv, hholds, hsized, hpath⟩
    | restart =>
      rw [ho] at h hout hsized
      cases h
      rcases hsized with hsized | ⟨r', d, hr, -⟩
      · exact Or.inl ⟨g', m, hok.inv, hout, hsized⟩
      · cases hr
    | descend c =>
      rw [ho] at h hout hsized
      obtain ⟨hholds, sc, hgc, -, hcov⟩ := hout
      rcases hsized with hsized | ⟨r', d, hr, -⟩
      · exact descendFrom_sized hspec hsize hpre hok.inv hholds (hpre hsized) hgc hcov h
      · cases hr

theorem descendRoot_sized (hspec : VisitSpec visit key post)
    (hsize : SizeSpec visit key pre shrinks) (hpre : ∀ {t g n}, Sized t g none → pre t g n)
    {fuel : Nat} {t t' : BTree} {g : Spans} {m : Contents} {o : Option R} (hinv : Inv t g)
    (hm : Holds t g m) (hp : pre t g t.root) (h : descendFrom visit fuel t t.root = some (t', o)) :
    Tidy t' ∨ ∃ r, o = some r ∧ shrinks r = true ∧ ShortOnPath t' key := by
  obtain ⟨l, hr, -⟩ := hinv.root
  exact descendFrom_sized hspec hsize hpre hinv hm hp hr
    ⟨bot_lt_fence key, (fence_lt_top key).le⟩ h

end Descents

/-! ## Insertions -/

section Insertions

variable {R : Type} {visit : BTree → NodeId → Option (Visit R)} {key : Bytes}
  {post : Contents → R → Contents → Prop} {t : BTree} {g : Spans}

/-- Wrapping a full root leaves a root that is short of one child. -/
theorem Sized.wrapRoot {l : Nat} (h : Sized t g none) (hinv : Inv t g)
    (hfull : maxKeys ≤ t.keyCount t.root) :
    Wrapped t.wrapRoot (withRoot g t.nodes.length l) := by
  obtain ⟨lr, hr, -⟩ := hinv.root
  obtain ⟨rb, hrb, hrok⟩ := hinv.body t.root _ hr
  have hcount : maxKeys ≤ rb.keyCount := by simpa [keyCount, hrb] using hfull
  have hnew : t.wrapRoot.body t.nodes.length = some (newInternal [] [t.root]) :=
    List.getElem?_concat_length
  refine ⟨fun n s b hn hb => ?_, t.root, rb, hnew, (body_wrapRoot_of_live hinv hr).trans hrb, hcount⟩
  rcases withRoot_cases hn with ⟨rfl, -⟩ | ⟨hne, hn'⟩
  · rw [hnew, Option.some.injEq] at hb
    subst hb
    refine ⟨?_, fun hleaf => absurd hleaf Bool.false_ne_true⟩
    show least t.nodes.length t.nodes.length _ ≤ _ + short (some t.nodes.length) _
    simp [least, newInternal, NodeBody.isLeaf, NodeBody.fanout]
  · rw [body_wrapRoot_of_live hinv hn'] at hb
    have hold := h n s b hn' hb
    by_cases hroot : n = t.root
    · subst hroot
      rw [hrb, Option.some.injEq] at hb
      subst hb
      have hle := hrok.keyCount_le
      have hmin : minKeys ≤ maxKeys := by decide
      exact Bounded.sizeOk ⟨hmin.trans (hcount.trans hle), hold.high⟩ ..
    · exact (hold.bounded hroot (by simp)).sizeOk ..

theorem retryLoop_sized (hspec : VisitSpec visit key post)
    (hsize : SizeSpec visit key Ready fun _ => false) {count : R → BTree → BTree}
    (hcount : ∀ r t, (count r t).nodes = t.nodes ∧ (count r t).root = t.root) :
    ∀ {fuel : Nat} {t t' : BTree} {g : Spans} {m : Contents} {r : R}, Inv t g → Holds t g m →
      Ready t g t.root →
      BTree.retryLoop (fun fuel t n => descendFrom visit fuel t n) count fuel t = some (t', r) →
      Tidy t'
  | 0, _, _, _, _, _, _, _, _, h => by simp [BTree.retryLoop] at h
  | fuel + 1, t, t', g, m, r, hinv, hm, hready, h => by
    rw [BTree.retryLoop] at h
    split at h
    · next hfull =>
      have hsized : Sized t g none := by
        rcases hready with hsized | ⟨-, hwrapped⟩
        · exact hsized
        · -- a wrapped root has no keys
          obtain ⟨c, cb, hb, -⟩ := hwrapped.full
          simp [keyCount, hb, newInternal, NodeBody.keyCount, maxKeys] at hfull
      obtain ⟨l, -, hinv'⟩ := hinv.wrapRoot
      exact retryLoop_sized hspec hsize hcount hinv' (hm.wrapRoot hinv)
        (Or.inr ⟨rfl, hsized.wrapRoot hinv hfull⟩) h
    · rw [Option.bind_eq_bind] at h
      obtain ⟨⟨t1, o⟩, hd, h⟩ := Option.bind_eq_some_iff.mp h
      have htidy : Tidy t1 := by
        rcases descendRoot_sized hspec hsize Or.inl hinv hm hready hd with h | ⟨r, -, hr, -⟩
        · exact h
        · cases hr
      cases o with
      | some r' =>
        cases h
        exact htidy.congr (hcount r t1).1 (hcount r t1).2
      | none =>
        obtain ⟨g1, m1, hinv1, hm1, hsized1⟩ := htidy
        exact retryLoop_sized hspec hsize hcount hinv1 hm1 (Or.inl hsized1) h

end Insertions

/-! ## Removals -/

section Removals

variable {key : Bytes}

theorem Covering.below {t : BTree} {g : Spans} {d : Option NodeId} {l : Nat} (h : Covering g key d)
    (hinv : Inv t g) (hr : g t.root = some ⟨⊥, ⊤, l⟩) : ShortBelow t g key l d := by
  intro z hz
  obtain ⟨s, hs, hk⟩ := h z hz
  obtain ⟨l', hr', htop⟩ := hinv.root
  rw [hr, Option.some.injEq, Span.mk.injEq] at hr'
  have hle := htop z s hs
  rcases Nat.lt_or_eq_of_le hle with hlt | heq
  · exact Or.inr ⟨s, hs, hk, hr'.2.2 ▸ hlt⟩
  · left
    refine hinv.covers_unique hs hr (heq.trans hr'.2.2.symm) hk ?_
    exact ⟨bot_lt_fence key, (fence_lt_top key).le⟩

/-- A pass either merges and leaves the shortage on the path, or leaves it at
the root at most. -/
theorem fixFrom_sized : ∀ {fuel : Nat} {t : BTree} {g : Spans} {m : Contents} {n : NodeId}
    {s : Span} {d : Option NodeId} {t' : BTree} {o : Option Bool}, Inv t g → Holds t g m →
    g n = some s → s.Covers key → Sized t g d → ShortBelow t g key s.level d →
    descendFrom (fixVisit key) fuel t n = some (t', o) →
    (o = some true ∧ ShortOnPath t' key) ∨ (o = some false ∧ ShortAtRoot t')
  | 0, _, _, _, _, _, _, _, _, _, _, _, _, _, _, h => by simp [descendFrom] at h
  | fuel + 1, t, g, m, n, s, d, t', o, hinv, hm, hn, hk, hsized, hpath, h => by
    rw [descendFrom, Option.bind_eq_bind] at h
    obtain ⟨v, hv, h⟩ := Option.bind_eq_some_iff.mp h
    obtain ⟨g', ⟨hok, hout⟩, hev⟩ := fixVisit_evicts hinv hm hn hk hv
    cases fixVisit_sized hinv hn hk hsized hpath hv hok hev with
    | merged ho hsame hsized' =>
      rw [ho] at h hout
      cases h
      obtain ⟨m', -, hholds⟩ := hout
      refine Or.inl ⟨rfl, g', m', some n, hok.inv, hholds, hsized', ?_⟩
      rintro z ⟨⟩
      exact ⟨s, hsame.trans hn, hk⟩
    | ended ho hsized' =>
      rw [ho] at h hout
      cases h
      obtain ⟨m', -, hholds⟩ := hout
      exact Or.inr ⟨rfl, g', m', hok.inv, hholds, hsized'⟩
    | below c sc d' ho hgc hcov hsized' hpath' =>
      rw [ho] at h hout
      exact fixFrom_sized hok.inv hout.1 hgc hcov hsized' hpath' h

theorem fixLoop_sized : ∀ {fuel : Nat} {t t' : BTree}, ShortOnPath t key →
    BTree.fixLoop key fuel t = some t' → ShortAtRoot t'
  | 0, _, _, _, h => by simp [BTree.fixLoop] at h
  | fuel + 1, t, t', ⟨g, m, d, hinv, hm, hsized, hpath⟩, h => by
    rw [BTree.fixLoop, Option.bind_eq_bind] at h
    obtain ⟨⟨t1, o⟩, hd, h⟩ := Option.bind_eq_some_iff.mp h
    obtain ⟨l, hr, -⟩ := hinv.root
    rcases fixFrom_sized hinv hm hr ⟨bot_lt_fence key, (fence_lt_top key).le⟩ hsized
      (hpath.below hinv hr) hd with ⟨rfl, hshort⟩ | ⟨rfl, hroot⟩
    · exact fixLoop_sized hshort h
    · cases h
      exact hroot

theorem collapseRoot_sized : ∀ {fuel : Nat} {t t' : BTree}, ShortAtRoot t →
    BTree.collapseRoot fuel t = some t' → Tidy t'
  | 0, _, _, _, h => by simp [BTree.collapseRoot] at h
  | fuel + 1, t, t', ⟨g, m, hinv, hm, hsized⟩, h => by
    rw [BTree.collapseRoot] at h
    split at h
    · next c hc =>
      obtain ⟨b, hb, hsc⟩ := Option.bind_eq_some_iff.mp hc
      refine collapseRoot_sized ⟨_, m, hinv.collapse hb hsc, hm.collapse, fun n s b' hn hb' => ?_⟩ h
      -- below the root every node has its full size
      obtain ⟨hne, hn'⟩ := withoutRoot_cases hn
      exact ((hsized n s b' hn' hb').bounded hne fun he => hne (Option.some.inj he).symm).sizeOk ..
    · next hmany =>
      cases h
      refine ⟨g, m, hinv, hm, hsized.settle fun z s b hz hgz hbz => ?_⟩
      cases hz
      refine ⟨?_, (hsized _ s b hgz hbz).high⟩
      obtain ⟨b', hb', hok⟩ := hinv.body _ s hgz
      rw [hbz, Option.some.injEq] at hb'
      subst hb'
      cases hok with
      | leaf _ _ _ _ => simp [least, leafBody, newLeafWith, NodeBody.isLeaf]
      | @internal keys children l hl hseg =>
        have hlen := (BodyOk.internal hl hseg).length_children
        rw [hbz] at hmany
        have hone : ∀ c, children ≠ [c] := by
          rintro c rfl
          simp [newInternal, singleChild] at hmany
        have htwo : 2 ≤ children.length := by
          rcases children with _ | ⟨c, _ | ⟨c', rest⟩⟩
          · simp at hlen
          · exact absurd rfl (hone c)
          · simp
        simpa [least, newInternal, NodeBody.isLeaf, NodeBody.fanout] using htwo

end Removals

/-! ## Runs -/

section Runs

variable {t t' : BTree} {key val : Bytes} {fuel : Nat}

theorem Tidy.insert {r : Bool} (h : Tidy t)
    (hop : BTree.insert fuel t key val = some (t', r)) : Tidy t' := by
  obtain ⟨g, m, hinv, hm, hsized⟩ := h
  refine retryLoop_sized insertVisit_spec insertVisit_sized (fun r t => ?_) hinv hm (Or.inl hsized) hop
  cases r <;> exact ⟨rfl, rfl⟩

theorem Tidy.upsert {r : Option Bytes} (h : Tidy t)
    (hop : BTree.upsert fuel t key val = some (t', r)) : Tidy t' := by
  obtain ⟨g, m, hinv, hm, hsized⟩ := h
  refine retryLoop_sized upsertVisit_spec upsertVisit_sized (fun r t => ?_) hinv hm (Or.inl hsized) hop
  cases r <;> exact ⟨rfl, rfl⟩

theorem Tidy.updateInPlace {r : Option Bytes} (h : Tidy t)
    (hop : BTree.updateInPlace fuel t key val = some (t', r)) : Tidy t' := by
  obtain ⟨g, m, hinv, hm, hsized⟩ := h
  rw [BTree.updateInPlace, Option.bind_eq_bind] at hop
  obtain ⟨⟨t1, o⟩, hd, hop⟩ := Option.bind_eq_some_iff.mp hop
  have htidy : Tidy t1 := by
    rcases descendRoot_sized updateVisit_spec updateVisit_sized id hinv hm hsized hd with h | ⟨r, -, hr, -⟩
    · exact h
    · cases hr
  obtain ⟨prev, -, hop⟩ := Option.bind_eq_some_iff.mp hop
  cases hop
  split
  · exact htidy.congr rfl rfl
  · exact htidy

theorem Tidy.remove {r : Option Bytes} (h : Tidy t)
    (hop : BTree.remove fuel t key = some (t', r)) : Tidy t' := by
  obtain ⟨g, m, hinv, hm, hsized⟩ := h
  rcases BTree.remove_cases hop with ⟨hd, rfl⟩ | ⟨v, t1, t2, hd, rfl, hfix, hcol⟩
  · rcases descendRoot_sized deleteVisit_spec deleteVisit_sized id hinv hm hsized hd with
      h | ⟨r, hr, hshrinks, -⟩
    · exact h
    · cases hr
      cases hshrinks
  · have hshort : ShortOnPath t1 key := by
      rcases descendRoot_sized deleteVisit_spec deleteVisit_sized id hinv hm hsized hd with
        ⟨g1, m1, hinv1, hm1, hsized1⟩ | ⟨r, -, -, hshort⟩
      · exact ⟨g1, m1, none, hinv1, hm1, hsized1, by simp [Covering]⟩
      · exact hshort
    obtain ⟨g1, m1, d, hinv1, hm1, hsized1, hpath⟩ := hshort
    refine collapseRoot_sized (fixLoop_sized ⟨g1, m1, d, ?_⟩ hfix) hcol
    exact ⟨hinv1.congr rfl rfl, hm1.congr rfl, hsized1.congr rfl rfl, hpath⟩

theorem Tidy.returns {op : Op} {r : OpResult} (h : Tidy t) (hret : Returns t op t' r) : Tidy t' :=
  hret.elim (P := fun _ _ => Tidy t') h.insert h.upsert h.updateInPlace h.remove

/-- After every run the sizes of all nodes are right. -/
theorem Run.tidy {l : List (Op × OpResult)} (h : Run t l t') (ht : Tidy t) : Tidy t' := by
  induction h with
  | nil => exact ht
  | snoc _ hret ih => exact ih.returns hret

end Runs

end HenchDB.BTree
