import HenchDB.BTree.Rebalance

/-!
# What a visit keeps, and the visits of leaves

`VisitOk` collects what every visit of a live node guarantees: the invariant
holds for new spans, the spans change only where the visit restructures, and
only live nodes are latched and published.  A visit of a leaf edits the
entries of one key (`EntryEdit`) or nothing.
-/

namespace HenchDB.BTree

def NodeBody.isLeaf : NodeBody → Bool
  | .leaf .. => true
  | .internal .. => false

/-- What a visit does to a well-formed tree, the map aside. -/
structure VisitOk {R : Type} (t : BTree) (g : Spans) (v : Visit R) (g' : Spans) : Prop where
  inv : Inv (t.perform v) g'
  frame : Frame v.change g g'
  live : ∀ n ∈ v.latched, ∃ s, g n = some s
  /-- Every latch is taken once and released once. -/
  nodup : v.latched.Nodup
  released : (v.published.map Prod.fst).Perm v.latched
  moved : ∀ n ∈ v.change.moved, n ∈ v.latched ∨ n = t.nodes.length
  parents : ∀ n ∈ v.change.moved, ∀ p sp keys children, g p = some sp →
    t.body p = some (newInternal keys children) → n ∈ children → p ∈ v.latched
  /-- Leaves stay leaves. -/
  kinds : ∀ p ∈ v.published, ∀ b, t.body p.1 = some b → p.2.isLeaf = b.isLeaf

/-! ## The invariant reads only bodies and the root -/

variable {t : BTree} {g : Spans} {m : Contents} {R : Type} {n : NodeId}

theorem Inv.congr {t' : BTree} (h : Inv t g) (hnodes : t'.nodes = t.nodes)
    (hroot : t'.root = t.root) : Inv t' g := by
  have hbody : ∀ n, t'.body n = t.body n := fun n => by
    rw [BTree.body, BTree.body, hnodes]
  obtain ⟨h1, h2, h3, h4⟩ := h
  refine ⟨hroot ▸ h1, fun n s hn => ?_, h3, h4⟩
  rw [hbody]
  exact h2 n s hn

theorem Holds.congr {t' : BTree} (h : Holds t g m) (hnodes : t'.nodes = t.nodes) :
    Holds t' g m := by
  intro n s E next hn hb
  rw [BTree.body, hnodes] at hb
  exact h n s E next hn hb

/-- Publishing what is already there changes nothing. -/
theorem publishAll_same : ∀ {l : List (NodeId × NodeBody)} {nodes : List NodeBody},
    (∀ p ∈ l, nodes[p.1]? = some p.2) → publishAll nodes l = nodes
  | [], _, _ => rfl
  | p :: l, nodes, h => by
    have hset : nodes.set p.1 p.2 = nodes := List.set_same (h p (List.mem_cons_self ..))
    rw [show publishAll nodes (p :: l) = publishAll (nodes.set p.1 p.2) l from rfl, hset]
    exact publishAll_same fun q hq => h q (List.mem_cons_of_mem _ hq)

variable {v : Visit R}

theorem perform_nodes_same (hf : v.fresh = []) (h : ∀ p ∈ v.published, t.body p.1 = some p.2) :
    (t.perform v).nodes = t.nodes := by
  have happ : t.nodes ++ v.fresh = t.nodes := by rw [hf, List.append_nil]
  calc (t.perform v).nodes = publishAll (t.nodes ++ v.fresh) v.published := rfl
    _ = publishAll t.nodes v.published := by rw [happ]
    _ = t.nodes := publishAll_same h

/-- A visit that republishes what it found keeps everything. -/
theorem VisitOk.unchanged (h : Inv t g) (hf : v.fresh = []) (hc : v.change = .none)
    (hp : ∀ p ∈ v.published, t.body p.1 = some p.2) (hlive : ∀ n ∈ v.latched, ∃ s, g n = some s)
    (hnd : v.latched.Nodup) (hrel : (v.published.map Prod.fst).Perm v.latched) :
    VisitOk t g v g where
  inv := h.congr (perform_nodes_same hf hp) rfl
  frame := hc ▸ Frame.refl g
  live := hlive
  nodup := hnd
  released := hrel
  moved := by simp [hc, Restructure.moved]
  parents := by simp [hc, Restructure.moved]
  kinds p hmem b hb := by
    rw [hp p hmem, Option.some.injEq] at hb
    rw [hb]

theorem Holds.unchanged (hm : Holds t g m) (hf : v.fresh = [])
    (hp : ∀ p ∈ v.published, t.body p.1 = some p.2) :
    Holds (t.perform v) g m :=
  hm.congr (perform_nodes_same hf hp)

theorem VisitOk.single_same {s : Span} {b : NodeBody} {o : Outcome R} (h : Inv t g)
    (hn : g n = some s) (hb : t.body n = some b) :
    VisitOk t g (single n b o) g := by
  refine VisitOk.unchanged h rfl rfl ?_ ?_ (List.nodup_singleton n) (List.Perm.refl _)
  · rintro p hp
    rw [List.mem_singleton.mp hp]
    exact hb
  · rintro m hm
    rw [List.mem_singleton.mp hm]
    exact ⟨s, hn⟩

theorem Holds.single_same {b : NodeBody} {o : Outcome R} (hm : Holds t g m) (hb : t.body n = some b) :
    Holds (t.perform (single n b o)) g m := by
  refine hm.unchanged rfl ?_
  rintro p hp
  rw [List.mem_singleton.mp hp]
  exact hb

/-! ## Editing the entries of one key -/

/-- `E'` is `E` with the entry of `key` replaced by `x`. -/
structure EntryEdit (s : Span) (E E' : List (Bytes × Bytes)) (key : Bytes) (x : Option Bytes) :
    Prop where
  entries : EntriesIn s.lo s.hi E'
  lookup : ∀ k, E'.lookup k = if k = key then x else E.lookup k

/-- Two live nodes of one level that cover a common key are the same. -/
theorem Inv.covers_unique (h : Inv t g) {n' : NodeId} {s s' : Span} {k : Bytes} (hn : g n = some s)
    (hn' : g n' = some s') (hl : s.level = s'.level) (hk : s.Covers k) (hk' : s'.Covers k) :
    n = n' :=
  h.apart n n' s s' hn hn' hl (hk.1.trans_le hk'.2) (hk'.1.trans_le hk.2)

section Edit

variable {R : Type} {t : BTree} {g : Spans} {n : NodeId} {s : Span} {E E' : List (Bytes × Bytes)}
  {next : Option NodeId} {key : Bytes} {x : Option Bytes} {o : Outcome R} {m : Contents}

theorem body_perform_single {b : NodeBody} (hn : n < t.nodes.length) :
    (t.perform (single n b o)).body n = some b :=
  body_perform_published (v := single n b o) (List.nodup_singleton n) (List.mem_singleton_self _) hn

theorem body_perform_single_other {b b' : NodeBody} {n' : NodeId} (hne : n' ≠ n)
    (hb : t.body n' = some b') : (t.perform (single n b o)).body n' = some b' := by
  refine body_perform_other (v := single n b o) ?_ hb
  rintro p hp
  rw [List.mem_singleton.mp hp]
  exact hne.symm

theorem VisitOk.edit (h : Inv t g) (hn : g n = some s) (hb : t.body n = some (leafBody E next))
    (he : EntriesIn s.lo s.hi E') : VisitOk t g (single n (leafBody E' next) o) g := by
  obtain ⟨h0, -, hnext⟩ := h.leaf hn hb
  have hlt := h.lt_length hn
  refine ⟨⟨h.root, fun n' s' hn' => ?_, h.proper, h.apart⟩, Frame.refl g, ?_,
    List.nodup_singleton n, List.Perm.refl _, by simp [single, Restructure.moved],
    by simp [single, Restructure.moved], ?_⟩
  · by_cases hnn : n' = n
    · subst hnn
      rw [hn, Option.some.injEq] at hn'
      subst hn'
      exact ⟨_, body_perform_single hlt, .leaf h0 he.sorted he.inside hnext⟩
    · obtain ⟨b, hb', hok⟩ := h.body n' s' hn'
      exact ⟨b, body_perform_single_other hnn hb', hok⟩
  · rintro m hm
    rw [List.mem_singleton.mp hm]
    exact ⟨s, hn⟩
  · rintro p hp b hb'
    rw [List.mem_singleton.mp hp, hb, Option.some.injEq] at hb'
    rw [List.mem_singleton.mp hp, ← hb']
    rfl

theorem Holds.edit (h : Inv t g) (hm : Holds t g m) (hn : g n = some s)
    (hb : t.body n = some (leafBody E next)) (hk : s.Covers key)
    (he : EntryEdit s E E' key x) :
    Holds (t.perform (single n (leafBody E' next) o)) g (Function.update m key x) := by
  have hlt := h.lt_length hn
  intro n' s' E'' next' hn' hb' k hk'
  by_cases hnn : n' = n
  · subst hnn
    rw [body_perform_single hlt, Option.some.injEq] at hb'
    rw [hn, Option.some.injEq] at hn'
    subst hn'
    rw [← (leafBody_inj hb').1, he.lookup, Function.update_apply, hm n' s E next hn hb k hk']
  · obtain ⟨b, hbn, hok⟩ := h.body n' s' hn'
    rw [body_perform_single_other hnn hbn, Option.some.injEq] at hb'
    subst hb'
    -- another leaf does not cover the edited key
    have hne : k ≠ key := by
      rintro rfl
      obtain ⟨h0, -⟩ := h.leaf hn hb
      obtain ⟨h0', -⟩ := h.leaf hn' hbn
      exact hnn (h.covers_unique hn' hn (h0'.trans h0.symm) hk' hk)
    rw [Function.update_apply, if_neg hne]
    exact hm n' s' E'' next' hn' hbn k hk'

end Edit

/-! ## Finding the key in a leaf -/

inductive Find (E : List (Bytes × Bytes)) (key : Bytes) : Prop where
  | found (A : List (Bytes × Bytes)) (v : Bytes) (B : List (Bytes × Bytes)) :
      E = A ++ (key, v) :: B →
      lowerBound (E.map Prod.fst) (headsFor (E.map Prod.fst)) key = A.length →
      (∀ k ∈ A.map Prod.fst, k < key) → (∀ k ∈ B.map Prod.fst, key < k) → Find E key
  | absent (A B : List (Bytes × Bytes)) :
      E = A ++ B →
      lowerBound (E.map Prod.fst) (headsFor (E.map Prod.fst)) key = A.length →
      (∀ k ∈ A.map Prod.fst, k < key) → (∀ k ∈ B.map Prod.fst, key < k) → Find E key

theorem EntriesIn.find {a f : Fence} {E : List (Bytes × Bytes)} (h : EntriesIn a f E)
    (key : Bytes) : Find E key := by
  obtain ⟨KA, KB, hK, hidx, hA, hB⟩ := lowerBound_cut h.sorted key
  obtain ⟨A, B, rfl, rfl, rfl⟩ := List.map_eq_append_iff.mp hK
  rw [List.length_map] at hidx
  have hs := (List.pairwise_append.mp (List.map_append ▸ h.sorted)).2.1
  cases B with
  | nil => exact .absent A [] rfl hidx hA (by simp)
  | cons e B =>
    obtain ⟨k, v⟩ := e
    rw [List.map_cons, List.pairwise_cons] at hs
    rcases (hB k (by simp)).lt_or_eq with hlt | rfl
    · refine .absent A ((k, v) :: B) rfl hidx hA fun k' hk' => ?_
      rw [List.map_cons, List.mem_cons] at hk'
      rcases hk' with rfl | hk'
      · exact hlt
      · exact hlt.trans (hs.1 k' hk')
    · exact .found A v B rfl hidx hA hs.1

section FindLemmas

variable {A B : List (Bytes × Bytes)} {key k v x : Bytes}

theorem lookup_self_of_lt (hA : ∀ k ∈ A.map Prod.fst, k < key) :
    (A ++ (key, v) :: B).lookup key = some v := by
  rw [List.lookup_append, lookup_eq_none_of_forall_ne fun k hk => (hA k hk).ne',
    Option.none_or, List.lookup_cons_self]

theorem lookup_absent (hA : ∀ k ∈ A.map Prod.fst, k < key) (hB : ∀ k ∈ B.map Prod.fst, key < k) :
    (A ++ B).lookup key = none := by
  rw [List.lookup_append, lookup_eq_none_of_forall_ne fun k hk => (hA k hk).ne',
    lookup_eq_none_of_forall_ne fun k hk => (hB k hk).ne, Option.none_or]

theorem lookup_cons_other (hk : k ≠ key) :
    (A ++ (key, v) :: B).lookup k = (A ++ B).lookup k := by
  have hbeq : (k == key) = false := by simpa using hk
  rw [List.lookup_append, List.lookup_append, List.lookup_cons, hbeq]

theorem entryEdit_write {s : Span} {o : Option Bytes}
    (h : EntriesIn s.lo s.hi (A ++ (o.map (key, ·)).toList ++ B)) (hk : s.Covers key)
    (hA : ∀ k ∈ A.map Prod.fst, k < key) (hB : ∀ k ∈ B.map Prod.fst, key < k) :
    EntryEdit s (A ++ (o.map (key, ·)).toList ++ B) (A ++ (key, x) :: B) key (some x) := by
  have hsorted := h.sorted
  have hinside := h.inside
  simp only [List.map_append, List.pairwise_append, List.mem_append] at hsorted hinside
  refine ⟨⟨?_, fun k' hk' => ?_⟩, fun k' => ?_⟩
  · rw [List.map_append, List.map_cons, List.pairwise_append, List.pairwise_cons]
    refine ⟨hsorted.1.1, ⟨hB, hsorted.2.1⟩, fun k1 h1 k2 h2 => ?_⟩
    rcases List.mem_cons.mp h2 with rfl | h2
    · exact hA k1 h1
    · exact (hA k1 h1).trans (hB k2 h2)
  · rw [List.map_append, List.map_cons, List.mem_append, List.mem_cons] at hk'
    rcases hk' with hk' | rfl | hk'
    · exact hinside k' (Or.inl (Or.inl hk'))
    · exact hk
    · exact hinside k' (Or.inr hk')
  · by_cases hkk : k' = key
    · subst hkk
      rw [if_pos rfl, lookup_self_of_lt hA]
    · rw [if_neg hkk, lookup_cons_other hkk]
      cases o with
      | none => simp
      | some v =>
        simp only [Option.map_some, Option.toList_some, List.append_assoc, List.singleton_append]
        rw [lookup_cons_other hkk]

theorem entryEdit_erase {s : Span} (h : EntriesIn s.lo s.hi (A ++ (key, v) :: B))
    (hA : ∀ k ∈ A.map Prod.fst, k < key) (hB : ∀ k ∈ B.map Prod.fst, key < k) :
    EntryEdit s (A ++ (key, v) :: B) (A ++ B) key none := by
  have hsorted := h.sorted
  have hinside := h.inside
  simp only [List.map_append, List.map_cons, List.pairwise_append, List.pairwise_cons,
    List.mem_append, List.mem_cons] at hsorted hinside
  refine ⟨⟨?_, fun k' hk' => ?_⟩, fun k' => ?_⟩
  · rw [List.map_append, List.pairwise_append]
    exact ⟨hsorted.1, hsorted.2.1.2, fun k1 h1 k2 h2 => hsorted.2.2 k1 h1 k2 (Or.inr h2)⟩
  · rw [List.map_append, List.mem_append] at hk'
    exact hinside k' (hk'.imp_right Or.inr)
  · by_cases hkk : k' = key
    · subst hkk
      rw [if_pos rfl, lookup_absent hA hB]
    · rw [if_neg hkk, lookup_cons_other hkk]

end FindLemmas

/-! ## Specifications of visits -/

/-- What a visit on the path of `key` at level `level` establishes.  `post`
relates the map before, the result and the map after. -/
def OutcomeOk {R : Type} (t : BTree) (g : Spans) (m : Contents) (key : Bytes) (level : Nat)
    (post : Contents → R → Contents → Prop) : Outcome R → Prop
  | .done r => ∃ m', post m r m' ∧ Holds t g m'
  | .restart => Holds t g m
  | .descend c => Holds t g m ∧ ∃ sc, g c = some sc ∧ sc.level < level ∧ sc.Covers key

/-- A visit function meets `post` on the path of `key`. -/
def VisitSpec {R : Type} (visit : BTree → NodeId → Option (Visit R)) (key : Bytes)
    (post : Contents → R → Contents → Prop) : Prop :=
  ∀ {t : BTree} {g : Spans} {m : Contents} {n : NodeId} {s : Span} {v : Visit R},
    Inv t g → Holds t g m → g n = some s → s.Covers key → visit t n = some v →
      ∃ g', VisitOk t g v g' ∧ OutcomeOk (t.perform v) g' m key s.level post v.outcome

/-- The result and effect of `insert` on a map. -/
def insertPost (key val : Bytes) (m : Contents) (inserted : Bool) (m' : Contents) : Prop :=
  inserted = (m key).isNone ∧
    m' = if (m key).isNone then Function.update m key (some val) else m

/-- The result and effect of `upsert` on a map. -/
def upsertPost (key val : Bytes) (m : Contents) (prev : Option Bytes) (m' : Contents) : Prop :=
  prev = m key ∧ m' = Function.update m key (some val)

/-- The result and effect of `update_in_place` on a map. -/
def updatePost (key val : Bytes) (m : Contents) (prev : Option Bytes) (m' : Contents) : Prop :=
  prev = m key ∧ m' = if (m key).isSome then Function.update m key (some val) else m

/-- The result and effect of `remove` on a map. -/
def removePost (key : Bytes) (m : Contents) (prev : Option Bytes) (m' : Contents) : Prop :=
  prev = m key ∧ m' = Function.update m key none

section LeafArms

variable {R : Type} {t : BTree} {g : Spans} {m : Contents} {n : NodeId} {s : Span}
  {E A B : List (Bytes × Bytes)} {next : Option NodeId} {key val x : Bytes}

theorem getElem?_keys_found : ((A ++ (key, x) :: B).map Prod.fst)[A.length]? = some key := by
  simp

theorem getElem?_keys_absent (hB : ∀ k ∈ B.map Prod.fst, key < k) :
    ((A ++ B).map Prod.fst)[A.length]? ≠ some key := by
  cases B with
  | nil => simp
  | cons e B =>
    have he := hB e.1 (by simp)
    simpa using he.ne'

theorem getElem?_vals_found : ((A ++ (key, x) :: B).map Prod.snd)[A.length]? = some x := by
  simp

theorem leafBody_insertIdx :
    NodeBody.leaf (((A ++ B).map Prod.fst).insertIdx A.length key)
      ((headsFor ((A ++ B).map Prod.fst)).insertIdx A.length (keyHead key))
      (((A ++ B).map Prod.snd).insertIdx A.length val) next = leafBody (A ++ (key, val) :: B) next := by
  simp only [leafBody, newLeafWith, headsFor, List.map_append, List.map_cons]
  rw [List.insertIdx_at (by simp), List.insertIdx_at (by simp), List.insertIdx_at (by simp)]

theorem leafBody_set :
    NodeBody.leaf ((A ++ (key, x) :: B).map Prod.fst)
      (headsFor ((A ++ (key, x) :: B).map Prod.fst))
      (((A ++ (key, x) :: B).map Prod.snd).set A.length val) next =
        leafBody (A ++ (key, val) :: B) next := by
  simp only [leafBody, newLeafWith, headsFor, List.map_append, List.map_cons]
  rw [List.set_at (by simp)]

theorem leafBody_eraseIdx :
    NodeBody.leaf (((A ++ (key, x) :: B).map Prod.fst).eraseIdx A.length)
      ((headsFor ((A ++ (key, x) :: B).map Prod.fst)).eraseIdx A.length)
      (((A ++ (key, x) :: B).map Prod.snd).eraseIdx A.length) next = leafBody (A ++ B) next := by
  simp only [leafBody, newLeafWith, headsFor, List.map_append, List.map_cons]
  rw [List.eraseIdx_at (by simp), List.eraseIdx_at (by simp), List.eraseIdx_at (by simp)]

variable {post : Contents → R → Contents → Prop}

theorem leafArm_same {o : Outcome R} {level : Nat} (h : Inv t g) (hm : Holds t g m)
    (hn : g n = some s) (hb : t.body n = some (leafBody E next))
    (ho : o = .restart ∨ ∃ r, o = .done r ∧ post m r m) :
    ∃ g', VisitOk t g (single n (leafBody E next) o) g' ∧
      OutcomeOk (t.perform (single n (leafBody E next) o)) g' m key level post o := by
  refine ⟨g, VisitOk.single_same h hn hb, ?_⟩
  rcases ho with rfl | ⟨r, rfl, hpost⟩
  · exact hm.single_same hb
  · exact ⟨m, hpost, hm.single_same hb⟩

theorem leafArm_edit {E' : List (Bytes × Bytes)} {y : Option Bytes} {r : R} {level : Nat}
    (h : Inv t g) (hm : Holds t g m) (hn : g n = some s) (hb : t.body n = some (leafBody E next))
    (hk : s.Covers key) (he : EntryEdit s E E' key y) (hpost : post m r (Function.update m key y)) :
    ∃ g', VisitOk t g (single n (leafBody E' next) (.done r)) g' ∧
      OutcomeOk (t.perform (single n (leafBody E' next) (.done r))) g' m key level post (.done r) :=
  ⟨g, VisitOk.edit h hn hb he.entries, _, hpost, hm.edit h hn hb hk he⟩

/-- The two ways the search in a live leaf can end, with what the map holds. -/
theorem Inv.find (h : Inv t g) (hm : Holds t g m) (hn : g n = some s)
    (hb : t.body n = some (leafBody E next)) (hk : s.Covers key) :
    (∃ A v B, E = A ++ (key, v) :: B ∧
      lowerBound (E.map Prod.fst) (headsFor (E.map Prod.fst)) key = A.length ∧ m key = some v ∧
      (∀ x, EntryEdit s E (A ++ (key, x) :: B) key (some x)) ∧
      EntryEdit s E (A ++ B) key none) ∨
    (∃ A B, E = A ++ B ∧ lowerBound (E.map Prod.fst) (headsFor (E.map Prod.fst)) key = A.length ∧
      m key = none ∧ (∀ k ∈ B.map Prod.fst, key < k) ∧
      ∀ x, EntryEdit s E (A ++ (key, x) :: B) key (some x)) := by
  obtain ⟨-, hE, -⟩ := h.leaf hn hb
  have hlookup := hm n s E next hn hb key hk
  rcases hE.find key with ⟨A, v, B, rfl, hidx, hA, hB⟩ | ⟨A, B, rfl, hidx, hA, hB⟩
  · refine Or.inl ⟨A, v, B, rfl, hidx, ?_, fun x => ?_, entryEdit_erase hE hA hB⟩
    · rw [← hlookup, lookup_self_of_lt hA]
    · have hw := entryEdit_write (s := s) (o := some v) (A := A) (B := B) (x := x)
        (by simpa using hE) hk hA hB
      simpa using hw
  · refine Or.inr ⟨A, B, rfl, hidx, ?_, hB, fun x => ?_⟩
    · rw [← hlookup, lookup_absent hA hB]
    · have hw := entryEdit_write (s := s) (o := none) (A := A) (B := B) (x := x)
        (by simpa using hE) hk hA hB
      simpa using hw

end LeafArms

end HenchDB.BTree
