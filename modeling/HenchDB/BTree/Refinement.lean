import HenchDB.BTree.Root

/-!
# The tree refines a map

Every sequential operation that returns takes a tree that stores a map to one
that stores the updated map, and returns what the map operation returns.
Lookups return for every key.
-/

namespace HenchDB.BTree

/-! ## Descents -/

section Descents

variable {R : Type} {visit : BTree → NodeId → Option (Visit R)} {key : Bytes}
  {post : Contents → R → Contents → Prop}

/-- The map after a descent: as `post` says, or unchanged after a restart. -/
def DescentPost (post : Contents → R → Contents → Prop) (m : Contents) (o : Option R)
    (m' : Contents) : Prop :=
  match o with
  | some r => post m r m'
  | none => m' = m

theorem descendFrom_spec (hspec : VisitSpec visit key post) :
    ∀ {fuel : Nat} {t : BTree} {g : Spans} {m : Contents} {n : NodeId} {s : Span} {t' : BTree}
      {o : Option R}, Inv t g → Holds t g m → g n = some s → s.Covers key →
      descendFrom visit fuel t n = some (t', o) →
      ∃ m', DescentPost post m o m' ∧ Stores t' m'
  | 0, _, _, _, _, _, _, _, _, _, _, _, h => by simp [descendFrom] at h
  | fuel + 1, t, g, m, n, s, t', o, hinv, hm, hn, hk, h => by
    rw [descendFrom, Option.bind_eq_bind] at h
    obtain ⟨v, hv, h⟩ := Option.bind_eq_some_iff.mp h
    obtain ⟨g', hok, hout⟩ := hspec hinv hm hn hk hv
    cases ho : v.outcome with
    | done r =>
      rw [ho] at h hout
      cases h
      obtain ⟨m', hpost, hholds⟩ := hout
      exact ⟨m', hpost, g', hok.inv, hholds⟩
    | restart =>
      rw [ho] at h hout
      cases h
      exact ⟨m, rfl, g', hok.inv, hout⟩
    | descend c =>
      rw [ho] at h hout
      obtain ⟨hholds, sc, hgc, -, hcov⟩ := hout
      exact descendFrom_spec hspec hok.inv hholds hgc hcov h

theorem Stores.descend (hspec : VisitSpec visit key post) {fuel : Nat} {t t' : BTree}
    {m : Contents} {o : Option R} (h : Stores t m)
    (hd : descendFrom visit fuel t t.root = some (t', o)) :
    ∃ m', DescentPost post m o m' ∧ Stores t' m' := by
  obtain ⟨g, hinv, hm⟩ := h
  obtain ⟨l, hr, -⟩ := hinv.root
  exact descendFrom_spec hspec hinv hm hr ⟨bot_lt_fence key, (fence_lt_top key).le⟩ hd

/-- The retry loop ends with the first descent that is done. -/
theorem Stores.retryLoop (hspec : VisitSpec visit key post) {count : R → BTree → BTree}
    (hcount : ∀ r t m, Stores t m → Stores (count r t) m) :
    ∀ {fuel : Nat} {t t' : BTree} {m : Contents} {r : R}, Stores t m →
      BTree.retryLoop (fun fuel t n => descendFrom visit fuel t n) count fuel t = some (t', r) →
      ∃ m', post m r m' ∧ Stores t' m'
  | 0, _, _, _, _, _, h => by simp [BTree.retryLoop] at h
  | fuel + 1, t, t', m, r, hst, h => by
    rw [BTree.retryLoop] at h
    split at h
    · exact Stores.retryLoop hspec hcount hst.wrapRoot h
    · rw [Option.bind_eq_bind] at h
      obtain ⟨⟨t1, o⟩, hd, h⟩ := Option.bind_eq_some_iff.mp h
      obtain ⟨m', hpost, hst'⟩ := hst.descend hspec hd
      cases o with
      | some r' =>
        cases h
        exact ⟨m', hpost, hcount r _ _ hst'⟩
      | none =>
        obtain rfl : m' = m := hpost
        exact Stores.retryLoop hspec hcount hst' h

end Descents

/-! ## Operations -/

section Operations

variable {t t' : BTree} {m : Contents} {key val : Bytes} {fuel : Nat}

theorem Stores.insert {r : Bool} (h : Stores t m)
    (hop : BTree.insert fuel t key val = some (t', r)) :
    ∃ m', insertPost key val m r m' ∧ Stores t' m' :=
  h.retryLoop insertVisit_spec (fun r t m hst => by
    cases r
    · exact hst
    · exact hst.congr rfl rfl) hop

variable {r : Option Bytes}

theorem Stores.upsert (h : Stores t m) (hop : BTree.upsert fuel t key val = some (t', r)) :
    ∃ m', upsertPost key val m r m' ∧ Stores t' m' :=
  h.retryLoop upsertVisit_spec (fun r t m hst => by
    cases r
    · exact hst.congr rfl rfl
    · exact hst) hop

theorem Stores.updateInPlace (h : Stores t m)
    (hop : BTree.updateInPlace fuel t key val = some (t', r)) :
    ∃ m', updatePost key val m r m' ∧ Stores t' m' := by
  rw [BTree.updateInPlace, Option.bind_eq_bind] at hop
  obtain ⟨⟨t1, o⟩, hd, hop⟩ := Option.bind_eq_some_iff.mp hop
  obtain ⟨m', hpost, hst⟩ := h.descend updateVisit_spec hd
  cases o with
  | none => simp at hop
  | some prev =>
    simp only [Option.bind_eq_bind, Option.bind_some, Option.some.injEq, Prod.mk.injEq] at hop
    obtain ⟨rfl, rfl⟩ := hop
    refine ⟨m', hpost, ?_⟩
    split
    · exact hst.congr rfl rfl
    · exact hst

theorem Stores.fixLoop : ∀ {fuel : Nat} {t t' : BTree}, Stores t m →
    BTree.fixLoop key fuel t = some t' → Stores t' m
  | 0, _, _, _, h => by simp [BTree.fixLoop] at h
  | fuel + 1, t, t', hst, h => by
    rw [BTree.fixLoop, Option.bind_eq_bind] at h
    obtain ⟨⟨t1, o⟩, hd, h⟩ := Option.bind_eq_some_iff.mp h
    obtain ⟨m', hpost, hst'⟩ := hst.descend fixVisit_spec hd
    have hsame : m' = m := by
      cases o with
      | some r => exact hpost
      | none => exact hpost
    rw [hsame] at hst'
    simp only at h
    split at h
    · exact Stores.fixLoop hst' h
    · cases h
      exact hst'

theorem Stores.collapseRoot : ∀ {fuel : Nat} {t t' : BTree}, Stores t m →
    BTree.collapseRoot fuel t = some t' → Stores t' m
  | 0, _, _, _, h => by simp [BTree.collapseRoot] at h
  | fuel + 1, t, t', hst, h => by
    rw [BTree.collapseRoot] at h
    split at h
    · next c hc =>
      obtain ⟨b, hb, hsc⟩ := Option.bind_eq_some_iff.mp hc
      obtain ⟨g, hinv, hm⟩ := hst
      exact Stores.collapseRoot ⟨_, hinv.collapse hb hsc, hm.collapse⟩ h
    · cases h
      exact hst

theorem Stores.remove (h : Stores t m) (hop : BTree.remove fuel t key = some (t', r)) :
    ∃ m', removePost key m r m' ∧ Stores t' m' := by
  rcases BTree.remove_cases hop with ⟨hd, rfl⟩ | ⟨v, t1, t2, hd, rfl, hfix, hcol⟩
  · exact h.descend deleteVisit_spec hd
  · obtain ⟨m', hpost, hst⟩ := h.descend deleteVisit_spec hd
    have hst1 : Stores { t1 with entries := t1.entries - 1 } m' := hst.congr rfl rfl
    exact ⟨m', hpost, (hst1.fixLoop hfix).collapseRoot hcol⟩

end Operations

/-! ## Lookups -/

variable {t : BTree} {g : Spans} {m : Contents} {key : Bytes}

/-- What `get` does at a live leaf that covers the key. -/
theorem getNode_leaf {n : NodeId} {s : Span} {E : List (Bytes × Bytes)} {next : Option NodeId}
    (h : Inv t g) (hm : Holds t g m) (hn : g n = some s) (hb : t.body n = some (leafBody E next))
    (hk : s.Covers key) : getNode key (leafBody E next) = some (.done (m key)) := by
  rcases h.find hm hn hb hk with ⟨A, x, B, rfl, hidx, hmk, -, -⟩ | ⟨A, B, rfl, hidx, hmk, hB, -⟩
  · have hlt : A.length < min ((A ++ (key, x) :: B).map Prod.fst).length
        ((A ++ (key, x) :: B).map Prod.snd).length := by simp
    simp only [getNode, leafBody, newLeafWith, hidx]
    rw [if_pos ⟨hlt, getElem?_keys_found⟩, getElem?_vals_found, hmk]
  · simp only [getNode, leafBody, newLeafWith, hidx]
    rw [if_neg fun hc => getElem?_keys_absent hB hc.2, hmk]

/-- What `get` does at a live internal node that covers the key. -/
theorem getNode_internal {n : NodeId} {s : Span} {keys : List Bytes} {children : List NodeId}
    (h : Inv t g) (hn : g n = some s) (hb : t.body n = some (newInternal keys children))
    (hk : s.Covers key) :
    ∃ c sc, getNode key (newInternal keys children) = some (.descend c) ∧ g c = some sc ∧
      sc.level + 1 = s.level ∧ sc.Covers key := by
  obtain ⟨c, sc, hget, hgc, hlev, hcov⟩ := h.descend hn hb hk
  have hlt := (List.getElem?_eq_some_iff.mp hget).1
  have hne : children ≠ [] := by
    rintro rfl
    simp at hlt
  refine ⟨c, sc, ?_, hgc, hlev, hcov⟩
  simp only [getNode, newInternal]
  rw [if_neg hne, min_eq_left (by omega), hget, Option.map_some]

/-- A descent of `get` ends after as many nodes as there are levels. -/
theorem getFrom_spec (h : Inv t g) (hm : Holds t g m) :
    ∀ (fuel : Nat) {n : NodeId} {s : Span}, g n = some s → s.Covers key →
      s.level < fuel → getFrom t key fuel n = some (m key)
  | 0, _, _, _, _, hf => by omega
  | fuel + 1, n, s, hn, hk, hf => by
    obtain ⟨b, hb, hok⟩ := h.body n s hn
    cases hok with
    | leaf _ _ _ _ => simp [getFrom, hb, getNode_leaf h hm hn hb hk]
    | internal _ _ =>
      obtain ⟨c, sc, hget, hgc, hlev, hcov⟩ := getNode_internal h hn hb hk
      have ih := getFrom_spec h hm fuel hgc hcov (by omega)
      simp [getFrom, hb, hget, ih]

/-- `get` returns, and returns what the map holds. -/
theorem Stores.get (h : Stores t m) (key : Bytes) :
    ∃ bound, ∀ fuel, bound ≤ fuel → BTree.get fuel t key = some (m key) := by
  obtain ⟨g, hinv, hm⟩ := h
  obtain ⟨l, hr, -⟩ := hinv.root
  exact ⟨l + 1, fun fuel hf =>
    getFrom_spec hinv hm fuel hr ⟨bot_lt_fence key, (fence_lt_top key).le⟩ (by show l < fuel; omega)⟩

theorem Stores.unique {m' : Contents} (h : Stores t m) (h' : Stores t m') :
    m = m' := by
  funext k
  obtain ⟨b, hb⟩ := h.get k
  obtain ⟨b', hb'⟩ := h'.get k
  have h1 := hb (max b b') (le_max_left ..)
  rw [hb' (max b b') (le_max_right ..)] at h1
  exact (Option.some.inj h1).symm

end HenchDB.BTree
