import HenchDB.BTree.Occupancy

/-!
# The shape of the tree

`Shape` says what the tree looks like in the heap: the depth of its leaves, the
order of its keys, the sizes of its nodes, the chain of its leaves and the entry
counter.  It speaks of the nodes that links lead to from the root, and not of
spans.  The leaves of a tree with spans tile the whole key order, which gives
their order, their chain and the number of keys.
-/

namespace HenchDB.BTree

/-! ## What a tree looks like -/

def NodeBody.keys : NodeBody → List Bytes
  | .leaf keys _ _ _ => keys
  | .internal keys _ _ => keys

def NodeBody.heads : NodeBody → List Nat
  | .leaf _ heads _ _ => heads
  | .internal _ heads _ => heads

/-- A leaf has a value for each key, an internal node one more child than keys. -/
def NodeBody.Aligned : NodeBody → Prop
  | .leaf keys _ vals _ => vals.length = keys.length
  | .internal keys _ children => children.length = keys.length + 1

def keysAt (t : BTree) (n : NodeId) : List Bytes := (t.body n).elim [] NodeBody.keys

/-- The `next` pointer of a leaf. -/
def nextAt (t : BTree) (n : NodeId) : Option NodeId :=
  match t.body n with
  | some (.leaf _ _ _ next) => next
  | _ => none

/-- `z` lies `d` links below `n`. -/
inductive Under (t : BTree) : NodeId → Nat → NodeId → Prop where
  | self (n : NodeId) : Under t n 0 n
  | child {n c z : NodeId} {d : Nat} {keys : List Bytes} {heads : List Nat}
      {children : List NodeId} : t.body n = some (.internal keys heads children) → c ∈ children →
      Under t c d z → Under t n (d + 1) z

/-- `n` is a leaf `d` links below the root. -/
def LeafAt (t : BTree) (d : Nat) (n : NodeId) : Prop :=
  Under t t.root d n ∧ ∃ b, t.body n = some b ∧ b.isLeaf = true

/-- The key stands in a node under `c`. -/
def KeyUnder (t : BTree) (c : NodeId) (k : Bytes) : Prop :=
  ∃ d z, Under t c d z ∧ k ∈ t.keysAt z

/-- Following `next` from the first leaf visits exactly these leaves. -/
def Chained (t : BTree) : List NodeId → Prop
  | [] => False
  | [n] => t.nextAt n = none
  | n :: m :: rest => t.nextAt n = some m ∧ Chained t (m :: rest)

/-- The shape of a tree with the given leaves in key order. -/
structure Shape (t : BTree) (leaves : List NodeId) : Prop where
  node : ∀ d n, Under t t.root d n → ∃ b, t.body n = some b ∧ b.keys.Pairwise (· < ·) ∧
    b.heads = b.keys.map keyHead ∧ b.Aligned
  between : ∀ d n keys heads children i c k, Under t t.root d n →
    t.body n = some (.internal keys heads children) → children[i]? = some c → KeyUnder t c k →
    (∀ sep, keys[i]? = some sep → k ≤ sep) ∧ ∀ j sep, i = j + 1 → keys[j]? = some sep → sep < k
  depth : ∃ h, ∀ d n, LeafAt t d n → d = h
  leafSize : ∀ d n keys heads vals next, Under t t.root d n →
    t.body n = some (.leaf keys heads vals next) → n ≠ t.root →
    minKeys ≤ keys.length ∧ keys.length ≤ maxKeys
  internalSize : ∀ d n keys heads children, Under t t.root d n →
    t.body n = some (.internal keys heads children) →
    (if n = t.root then 2 else minKeys) ≤ children.length
  /-- The list holds every leaf once, and the chain follows it in key order. -/
  mem : ∀ n, n ∈ leaves ↔ ∃ d, LeafAt t d n
  nodup : leaves.Nodup
  chained : Chained t leaves
  ordered : (leaves.flatMap t.keysAt).Pairwise (· < ·)
  /-- The counter is the number of stored keys. -/
  entries : t.entries = (leaves.flatMap t.keysAt).length

/-! ## Nodes under live nodes -/

section Live

variable {t : BTree} {g : Spans} {n z : NodeId} {s : Span} {d : Nat}

/-- The body of a live internal node as the invariant describes it. -/
theorem Inv.internal_body (hinv : Inv t g) (hn : g n = some s) {keys : List Bytes}
    {heads : List Nat} {children : List NodeId}
    (hb : t.body n = some (.internal keys heads children)) :
    heads = headsFor keys ∧ ∃ l, s.level = l + 1 ∧ Seg g l s.lo (fencesOf keys s.hi) children := by
  obtain ⟨b, hb', hok⟩ := hinv.body n s hn
  rw [hb, Option.some.injEq] at hb'
  generalize hbody : NodeBody.internal keys heads children = b at hb' hok
  subst hb'
  cases hok with
  | leaf _ _ _ _ => simp [leafBody, newLeafWith] at hbody
  | @internal keys' children' l hl hseg =>
    simp only [newInternal, NodeBody.internal.injEq] at hbody
    obtain ⟨rfl, rfl, rfl⟩ := hbody
    exact ⟨rfl, l, hl, hseg⟩

/-- The leaves are the live nodes of level zero. -/
theorem Inv.isLeaf_iff (hinv : Inv t g) (hn : g n = some s) :
    (∃ b, t.body n = some b ∧ b.isLeaf = true) ↔ s.level = 0 := by
  obtain ⟨b, hb, hok⟩ := hinv.body n s hn
  cases hok with
  | leaf h0 _ _ _ => exact ⟨fun _ => h0, fun _ => ⟨_, hb, rfl⟩⟩
  | internal hl _ =>
    refine ⟨fun ⟨b', hb', hleaf⟩ => ?_, fun h0 => ?_⟩
    · rw [hb, Option.some.injEq] at hb'
      subst hb'
      cases hleaf
    · rw [hl] at h0
      cases h0

/-- A link leads into the span, one level down. -/
theorem Under.live (h : Under t n d z) (hinv : Inv t g) : ∀ {s : Span}, g n = some s →
    ∃ sz, g z = some sz ∧ sz.level + d = s.level ∧ s.lo ≤ sz.lo ∧ sz.hi ≤ s.hi := by
  induction h with
  | self n => exact fun {s} hn => ⟨s, hn, rfl, le_rfl, le_rfl⟩
  | @child n c z d keys heads children hb hc _ ih =>
    intro s hn
    obtain ⟨-, l, hl, hseg⟩ := hinv.internal_body hn hb
    obtain ⟨sc, hsc, hlc, hlo, -, hhi⟩ := hseg.mem c hc
    rw [getLastD_fencesOf] at hhi
    obtain ⟨sz, hsz, hlz, hlo', hhi'⟩ := ih hsc
    exact ⟨sz, hsz, by omega, hlo.trans hlo', hhi'.trans hhi⟩

/-- The keys of a live node lie in its span. -/
theorem Inv.keysAt (hinv : Inv t g) (hn : g n = some s) :
    ∀ k ∈ t.keysAt n, s.lo < fence k ∧ fence k ≤ s.hi := by
  intro k hk
  obtain ⟨b, hb, hok⟩ := hinv.body n s hn
  rw [BTree.keysAt, hb] at hk
  cases hok with
  | leaf _ _ hcovers _ => exact hcovers k hk
  | @internal keys children l _ hseg =>
    have hk' : k ∈ keys := hk
    have hsorted := hseg.sorted
    rw [List.pairwise_cons, fencesOf] at hsorted
    have hmem : fence k ∈ keys.map fence := List.mem_map_of_mem hk'
    refine ⟨hsorted.1 _ (List.mem_append_left _ hmem), ?_⟩
    exact ((List.pairwise_append.mp hsorted.2).2.2 _ hmem _ (List.mem_singleton_self _)).le

/-- The keys under a live node lie in its span. -/
theorem KeyUnder.covers {k : Bytes} (h : KeyUnder t n k) (hinv : Inv t g) (hn : g n = some s) :
    s.lo < fence k ∧ fence k ≤ s.hi := by
  obtain ⟨d, z, hz, hk⟩ := h
  obtain ⟨sz, hsz, -, hlo, hhi⟩ := hz.live hinv hn
  obtain ⟨h1, h2⟩ := hinv.keysAt hsz k hk
  exact ⟨hlo.trans_lt h1, h2.trans hhi⟩

end Live

/-! ## The leaves of a tree -/

inductive Tiles (g : Spans) : Fence → Fence → List NodeId → Prop where
  | nil (lo : Fence) : Tiles g lo lo []
  | cons {lo f hi : Fence} {n : NodeId} {L : List NodeId} : g n = some ⟨lo, f, 0⟩ → lo < f →
      Tiles g f hi L → Tiles g lo hi (n :: L)

section Tiles

variable {t : BTree} {g : Spans} {lo mid hi : Fence} {L L' : List NodeId}

theorem Tiles.append (h : Tiles g lo mid L) (h' : Tiles g mid hi L') : Tiles g lo hi (L ++ L') := by
  induction h with
  | nil => exact h'
  | cons hn hlt _ ih => exact .cons hn hlt (ih h')

theorem Tiles.live (h : Tiles g lo hi L) : ∀ n ∈ L, ∃ s, g n = some s ∧ s.level = 0 ∧ lo ≤ s.lo := by
  induction h with
  | nil => simp
  | @cons lo f hi n L hn hlt _ ih =>
    intro z hz
    rcases List.mem_cons.mp hz with rfl | hz
    · exact ⟨_, hn, rfl, le_rfl⟩
    · obtain ⟨s, hs, hl, hle⟩ := ih z hz
      exact ⟨s, hs, hl, hlt.le.trans hle⟩

/-- Every leaf inside the fences is a tile. -/
theorem Tiles.complete (h : Tiles g lo hi L) (hinv : Inv t g) {z : NodeId} {s : Span}
    (hz : g z = some s) (hl : s.level = 0) (hlo : lo ≤ s.lo) (hhi : s.hi ≤ hi) : z ∈ L := by
  have hproper := hinv.proper z s hz
  induction h with
  | nil => exact absurd (hproper.trans_le hhi) (not_lt.mpr hlo)
  | @cons lo f hi n L hn _ _ ih =>
    rcases lt_or_ge s.lo f with hlt | hge
    · -- the leaf overlaps the first tile
      rw [hinv.apart z n s _ hz hn hl hlt (hlo.trans_lt hproper)]
      exact List.mem_cons_self
    · exact List.mem_cons_of_mem _ (ih hge hhi)

theorem Tiles.nodup (h : Tiles g lo hi L) : L.Nodup := by
  induction h with
  | nil => exact List.nodup_nil
  | @cons lo f hi n L hn hlt hrest ih =>
    refine List.nodup_cons.mpr ⟨fun hmem => ?_, ih⟩
    obtain ⟨s, hs, -, hle⟩ := hrest.live n hmem
    rw [hn, Option.some.injEq] at hs
    subst hs
    exact absurd hlt (not_lt.mpr hle)

/-- The keys of the tiles are sorted and lie above the first fence. -/
theorem Tiles.ordered (h : Tiles g lo hi L) (hinv : Inv t g) :
    (L.flatMap t.keysAt).Pairwise (· < ·) ∧ ∀ k ∈ L.flatMap t.keysAt, lo < fence k := by
  induction h with
  | nil => exact ⟨List.Pairwise.nil, by simp⟩
  | @cons lo f hi n L hn hlt _ ih =>
    obtain ⟨hsorted, habove⟩ := ih
    obtain ⟨b, hb, hok⟩ := hinv.body n _ hn
    have hkeys := hinv.keysAt hn
    rw [List.flatMap_cons]
    refine ⟨List.pairwise_append.mpr ⟨?_, hsorted, fun a ha k hk => ?_⟩, fun k hk => ?_⟩
    · rw [BTree.keysAt, hb]
      cases hok with
      | leaf _ hs _ _ => exact hs
      | internal _ hseg => exact sorted_of_fences hseg.sorted
    · exact fence_lt_fence.mp ((hkeys a ha).2.trans_lt (habove k hk))
    · rcases List.mem_append.mp hk with hk | hk
      · exact (hkeys k hk).1
      · exact hlt.trans (habove k hk)

/-- The `next` pointers of the tiles lead from one to the next. -/
theorem Tiles.chained (h : Tiles g lo ⊤ L) (hinv : Inv t g) (hne : L ≠ []) : Chained t L := by
  generalize hhi : (⊤ : Fence) = hi at h
  induction h with
  | nil => exact absurd rfl hne
  | @cons lo f hi n L hn hlt hrest ih =>
    subst hhi
    obtain ⟨b, hb, hok⟩ := hinv.body n _ hn
    cases hok with
    | internal hl _ => cases hl
    | @leaf E next _ _ _ hnext =>
      have hnextAt : t.nextAt n = next := by rw [nextAt, hb]; rfl
      cases hrest with
      | nil =>
        cases next with
        | none => exact hnextAt
        | some z =>
          obtain ⟨h', hz⟩ := hnext
          exact absurd (hinv.proper z _ hz) not_top_lt
      | @cons _ f' _ n' L' hn' hlt' hrest' =>
        refine ⟨?_, ih (by simp) rfl⟩
        cases next with
        | none => exact absurd hlt' ((show f = ⊤ from hnext) ▸ not_top_lt)
        | some z =>
          obtain ⟨h', hz⟩ := hnext
          -- the leaf behind starts where the next tile does
          rw [hnextAt, hinv.apart z n' _ _ hz hn' rfl hlt' (hinv.proper z _ hz)]

theorem Inv.leavesUnder (hinv : Inv t g) : ∀ (l : Nat) {n : NodeId} {s : Span}, g n = some s →
    s.level = l → ∃ L, Tiles g s.lo s.hi L ∧ ∀ z ∈ L, Under t n l z
  | 0, n, s, hn, hl => by
    have hspan : s = ⟨s.lo, s.hi, 0⟩ := by rw [← hl]
    refine ⟨[n], .cons (hspan ▸ hn) (hinv.proper n s hn) (.nil s.hi), ?_⟩
    simpa using Under.self n
  | l + 1, n, s, hn, hl => by
    obtain ⟨b, hb, hok⟩ := hinv.body n s hn
    cases hok with
    | leaf h0 _ _ _ => omega
    | @internal keys children l' hl' hseg =>
      obtain rfl : l' = l := by omega
      -- the leaves of a run of children, one child after another
      have hrun : ∀ (cs : List NodeId) (fs : List Fence) (lo : Fence), Seg g l' lo fs cs →
          (∀ c ∈ cs, c ∈ children) →
          ∃ L, Tiles g lo (fs.getLastD lo) L ∧ ∀ z ∈ L, Under t n (l' + 1) z := by
        intro cs
        induction cs with
        | nil =>
          intro fs lo hs _
          obtain rfl : fs = [] := List.length_eq_zero_iff.mp hs.length_eq
          exact ⟨[], .nil lo, by simp⟩
        | cons c cs ih =>
          intro fs lo hs hmem
          cases fs with
          | nil => exact hs.elim
          | cons f fs =>
            obtain ⟨hc, -, hrest⟩ := hs
            obtain ⟨L1, htiles, hu1⟩ := Inv.leavesUnder hinv l' hc rfl
            obtain ⟨L2, htiles', hu2⟩ :=
              ih fs f hrest fun c' hc' => hmem c' (List.mem_cons_of_mem _ hc')
            rw [List.getLastD_cons]
            refine ⟨L1 ++ L2, htiles.append htiles', fun z hz => ?_⟩
            rcases List.mem_append.mp hz with hz | hz
            · exact .child hb (hmem c List.mem_cons_self) (hu1 z hz)
            · exact hu2 z hz
      obtain ⟨L, htiles, hu⟩ := hrun children _ _ hseg fun c hc => hc
      rw [getLastD_fencesOf] at htiles
      exact ⟨L, htiles, hu⟩

end Tiles

/-! ## The entry counter -/

/-- The map has `c` keys. -/
def Counts (m : Contents) (c : Nat) : Prop :=
  ∃ S : Finset Bytes, (∀ k, k ∈ S ↔ (m k).isSome) ∧ S.card = c

section Counts

variable {m : Contents} {c : Nat} {key val : Bytes}

theorem counts_empty : Counts (fun _ => none) 0 := ⟨∅, by simp, rfl⟩

theorem Counts.insert (h : Counts m c) (hnone : m key = none) :
    Counts (Function.update m key (some val)) (c + 1) := by
  obtain ⟨S, hS, rfl⟩ := h
  refine ⟨Insert.insert key S, fun k => ?_, Finset.card_insert_of_notMem ?_⟩
  · rw [Finset.mem_insert, hS, Function.update_apply]
    split
    · simp [*]
    · simp [*]
  · rw [hS, hnone]
    simp

theorem Counts.overwrite (h : Counts m c) (hsome : (m key).isSome) :
    Counts (Function.update m key (some val)) c := by
  obtain ⟨S, hS, rfl⟩ := h
  refine ⟨S, fun k => ?_, rfl⟩
  rw [hS, Function.update_apply]
  split
  · next heq => simp [heq, hsome]
  · exact Iff.rfl

theorem Counts.erase (h : Counts m c) (hsome : (m key).isSome) :
    Counts (Function.update m key none) (c - 1) := by
  obtain ⟨S, hS, rfl⟩ := h
  refine ⟨S.erase key, fun k => ?_, Finset.card_erase_of_mem ((hS key).mpr hsome)⟩
  rw [Finset.mem_erase, hS, Function.update_apply]
  split
  · simp [*]
  · simp [*]

end Counts

/-- The tree stores as many keys as its counter says. -/
def Counted (t : BTree) : Prop := ∃ m, Stores t m ∧ Counts m t.entries

theorem counted_new : Counted new := ⟨_, stores_new, counts_empty⟩

section Entries

variable {R : Type} {visit : BTree → NodeId → Option (Visit R)} {t t' : BTree} {key val : Bytes}
  {fuel : Nat}

/-- Descents leave the counter alone. -/
theorem descendFrom_entries : ∀ {fuel : Nat} {t t' : BTree} {n : NodeId} {o : Option R},
    descendFrom visit fuel t n = some (t', o) → t'.entries = t.entries
  | 0, _, _, _, _, h => by simp [descendFrom] at h
  | fuel + 1, t, t', n, o, h => by
    rw [descendFrom, Option.bind_eq_bind] at h
    obtain ⟨v, -, h⟩ := Option.bind_eq_some_iff.mp h
    split at h
    · cases h
      rfl
    · cases h
      rfl
    · have hsame : t'.entries = (t.perform v).entries := descendFrom_entries h
      exact hsame

theorem retryLoop_entries {count : R → BTree → BTree} : ∀ {fuel : Nat} {t t' : BTree} {r : R},
    BTree.retryLoop (fun fuel t n => descendFrom visit fuel t n) count fuel t = some (t', r) →
    ∃ t1, t' = count r t1 ∧ t1.entries = t.entries
  | 0, _, _, _, h => by simp [BTree.retryLoop] at h
  | fuel + 1, t, t', r, h => by
    rw [BTree.retryLoop] at h
    split at h
    · obtain ⟨t1, heq, hentries⟩ := retryLoop_entries h
      exact ⟨t1, heq, hentries⟩
    · rw [Option.bind_eq_bind] at h
      obtain ⟨⟨t1, o⟩, hd, h⟩ := Option.bind_eq_some_iff.mp h
      have hsame := descendFrom_entries hd
      cases o with
      | some r' =>
        cases h
        exact ⟨t1, rfl, hsame⟩
      | none =>
        obtain ⟨t2, heq, hentries⟩ := retryLoop_entries h
        exact ⟨t2, heq, hentries.trans hsame⟩

theorem fixLoop_entries : ∀ {fuel : Nat} {t t' : BTree}, BTree.fixLoop key fuel t = some t' →
    t'.entries = t.entries
  | 0, _, _, h => by simp [BTree.fixLoop] at h
  | fuel + 1, t, t', h => by
    rw [BTree.fixLoop, Option.bind_eq_bind] at h
    obtain ⟨⟨t1, o⟩, hd, h⟩ := Option.bind_eq_some_iff.mp h
    have hsame := descendFrom_entries hd
    simp only at h
    split at h
    · exact (fixLoop_entries h).trans hsame
    · cases h
      exact hsame

theorem collapseRoot_entries : ∀ {fuel : Nat} {t t' : BTree},
    BTree.collapseRoot fuel t = some t' → t'.entries = t.entries
  | 0, _, _, h => by simp [BTree.collapseRoot] at h
  | fuel + 1, t, t', h => by
    rw [BTree.collapseRoot] at h
    split at h
    · next c _ =>
      have hsame := collapseRoot_entries h
      exact hsame
    · cases h
      rfl

theorem Counted.insert {r : Bool} (h : Counted t)
    (hop : BTree.insert fuel t key val = some (t', r)) : Counted t' := by
  obtain ⟨m, hst, hcount⟩ := h
  obtain ⟨m', ⟨rfl, rfl⟩, hst'⟩ := hst.insert hop
  obtain ⟨t1, rfl, hentries⟩ := retryLoop_entries hop
  refine ⟨_, hst', ?_⟩
  rcases hm : m key with _ | v
  · have hnew : Counts (Function.update m key (some val)) (t.entries + 1) := hcount.insert hm
    simpa [hentries] using hnew
  · simpa [hentries] using hcount

theorem Counted.upsert {r : Option Bytes} (h : Counted t)
    (hop : BTree.upsert fuel t key val = some (t', r)) : Counted t' := by
  obtain ⟨m, hst, hcount⟩ := h
  obtain ⟨m', ⟨rfl, rfl⟩, hst'⟩ := hst.upsert hop
  obtain ⟨t1, rfl, hentries⟩ := retryLoop_entries hop
  refine ⟨_, hst', ?_⟩
  rcases hm : m key with _ | v
  · have hnew : Counts (Function.update m key (some val)) (t.entries + 1) := hcount.insert hm
    simpa [hentries] using hnew
  · have hsame : Counts (Function.update m key (some val)) t.entries :=
      hcount.overwrite (by simp [hm])
    simpa [hentries] using hsame

theorem Counted.updateInPlace {r : Option Bytes} (h : Counted t)
    (hop : BTree.updateInPlace fuel t key val = some (t', r)) : Counted t' := by
  obtain ⟨m, hst, hcount⟩ := h
  obtain ⟨m', ⟨-, rfl⟩, hst'⟩ := hst.updateInPlace hop
  refine ⟨_, hst', ?_⟩
  have hentries : t'.entries = t.entries := by
    rw [BTree.updateInPlace, Option.bind_eq_bind] at hop
    obtain ⟨⟨t1, o⟩, hd, hop⟩ := Option.bind_eq_some_iff.mp hop
    obtain ⟨prev, -, hop⟩ := Option.bind_eq_some_iff.mp hop
    have hsame := descendFrom_entries hd
    cases hop
    split
    · exact hsame
    · exact hsame
  rw [hentries]
  split
  · next hsome => exact hcount.overwrite hsome
  · exact hcount

theorem Counted.remove {r : Option Bytes} (h : Counted t)
    (hop : BTree.remove fuel t key = some (t', r)) : Counted t' := by
  obtain ⟨m, hst, hcount⟩ := h
  obtain ⟨m', ⟨hr, rfl⟩, hst'⟩ := hst.remove hop
  refine ⟨_, hst', ?_⟩
  rcases BTree.remove_cases hop with ⟨hd, rfl⟩ | ⟨v, t1, t2, hd, rfl, hfix, hcol⟩
  · have hupdate : Function.update m key none = m := by
      rw [show (none : Option Bytes) = m key from hr, Function.update_eq_self]
    rw [hupdate, descendFrom_entries hd]
    exact hcount
  · have hentries : t'.entries = t.entries - 1 := by
      rw [collapseRoot_entries hcol, fixLoop_entries hfix, ← descendFrom_entries hd]
    rw [hentries]
    exact hcount.erase (by rw [← hr]; rfl)

theorem Counted.returns {op : Op} {r : OpResult} (h : Counted t) (hret : Returns t op t' r) :
    Counted t' :=
  hret.elim (P := fun _ _ => Counted t') h.insert h.upsert h.updateInPlace h.remove

theorem Run.counted {l : List (Op × OpResult)} (h : Run t l t') (ht : Counted t) : Counted t' := by
  induction h with
  | nil => exact ht
  | snoc _ hret ih => exact ih.returns hret

end Entries

/-! ## The shape of every reachable tree -/

section Reachable

variable {t : BTree} {g : Spans} {m : Contents}

theorem Tiles.covers {lo hi : Fence} {L : List NodeId} (h : Tiles g lo hi L) {k : Bytes}
    (hlo : lo < fence k) (hhi : fence k ≤ hi) :
    ∃ n ∈ L, ∃ s, g n = some s ∧ s.level = 0 ∧ s.Covers k := by
  induction h with
  | nil => exact absurd hlo (not_lt.mpr hhi)
  | @cons lo f hi n L hn _ _ ih =>
    rcases le_or_gt (fence k) f with hle | hgt
    · exact ⟨n, List.mem_cons_self, _, hn, rfl, hlo, hle⟩
    · obtain ⟨z, hz, hcovers⟩ := ih hgt hhi
      exact ⟨z, List.mem_cons_of_mem _ hz, hcovers⟩

theorem Holds.mem_keysAt (hm : Holds t g m) (hinv : Inv t g) {n : NodeId} {s : Span}
    (hn : g n = some s) (h0 : s.level = 0) {k : Bytes} (hk : s.Covers k) :
    k ∈ t.keysAt n ↔ (m k).isSome := by
  obtain ⟨b, hb, hok⟩ := hinv.body n s hn
  cases hok with
  | internal hl _ =>
    rw [hl] at h0
    cases h0
  | @leaf E next _ _ _ _ =>
    have hkeys : t.keysAt n = E.map Prod.fst := by rw [BTree.keysAt, hb]; rfl
    rw [hkeys, ← hm n s E next hn hb k hk, List.lookup_isSome_iff, List.mem_map]
    exact exists_congr fun p => and_congr_right fun _ => by rw [beq_iff_eq, eq_comm]

theorem Tiles.mem_keys {L : List NodeId} (h : Tiles g ⊥ ⊤ L) (hinv : Inv t g) (hm : Holds t g m)
    (k : Bytes) : k ∈ L.flatMap t.keysAt ↔ (m k).isSome := by
  rw [List.mem_flatMap]
  constructor
  · rintro ⟨n, hn, hk⟩
    obtain ⟨s, hs, h0, -⟩ := h.live n hn
    exact (hm.mem_keysAt hinv hs h0 (hinv.keysAt hs k hk)).mp hk
  · intro hsome
    obtain ⟨n, hn, s, hs, h0, hk⟩ := h.covers (bot_lt_fence k) le_top
    exact ⟨n, hn, (hm.mem_keysAt hinv hs h0 hk).mpr hsome⟩

/-- The fences around the child in position `i`. -/
theorem Seg.child_span {l : Nat} {lo hi : Fence} {keys : List Bytes} {children : List NodeId}
    (h : Seg g l lo (fencesOf keys hi) children) {i : Nat} {c : NodeId}
    (hc : children[i]? = some c) : ∃ s, g c = some s ∧
      (∀ sep, keys[i]? = some sep → s.hi = fence sep) ∧
      ∀ j sep, i = j + 1 → keys[j]? = some sep → s.lo = fence sep := by
  obtain ⟨hi', -⟩ := List.getElem?_eq_some_iff.mp hc
  obtain ⟨F1, f, F2, C1, c', C2, hfs, rfl, hF1, hC1, -, hg, -⟩ := h.cut hi'
  obtain rfl : c' = c := by rwa [List.getElem?_at hC1, Option.some.injEq] at hc
  have hfence : ∀ (j : Nat) (sep : Bytes), keys[j]? = some sep → (F1 ++ f :: F2)[j]? = some (fence sep) := by
    intro j sep hsep
    have hlt : j < (keys.map fence).length := by
      rw [List.length_map]
      exact (List.getElem?_eq_some_iff.mp hsep).1
    rw [← hfs, fencesOf, List.getElem?_append_left hlt, List.getElem?_map, hsep, Option.map_some]
  refine ⟨_, hg, fun sep hsep => ?_, fun j sep hij hsep => ?_⟩
  · have hf := hfence i sep hsep
    rw [List.getElem?_at hF1] at hf
    exact Option.some.inj hf
  · have hf := hfence j sep hsep
    rw [List.getElem?_append_left (by omega)] at hf
    have hlast : F1.getLast? = some (fence sep) := by
      rw [List.getLast?_eq_getElem?, ← hf]
      congr 1
      omega
    show F1.getLastD lo = fence sep
    rw [List.getLastD_eq_getLast?, hlast, Option.getD_some]

theorem Tidy.exists_shape (htidy : Tidy t) (hcounted : Counted t) : ∃ leaves, Shape t leaves := by
  obtain ⟨g, m, hinv, hm, hsized⟩ := htidy
  obtain ⟨m', hst, S, hS, hcard⟩ := hcounted
  obtain rfl := hst.unique ⟨g, hinv, hm⟩
  obtain ⟨l, hr, htop⟩ := hinv.root
  obtain ⟨L, htiles, hunder⟩ := hinv.leavesUnder l hr rfl
  have hlive : ∀ {d n}, Under t t.root d n → ∃ s, g n = some s ∧ s.level + d = l := by
    intro d n h
    obtain ⟨s, hs, hlevel, -⟩ := h.live hinv hr
    exact ⟨s, hs, hlevel⟩
  have hordered := (htiles.ordered hinv).1
  refine ⟨L, ?_⟩
  refine { node := ?_, between := ?_, depth := ⟨l, ?_⟩, leafSize := ?_, internalSize := ?_, mem := ?_,
           nodup := htiles.nodup, chained := htiles.chained hinv ?_, ordered := hordered,
           entries := ?_ }
  · intro d n h
    obtain ⟨s, hs, -⟩ := hlive h
    obtain ⟨b, hb, hok⟩ := hinv.body n s hs
    refine ⟨b, hb, ?_⟩
    cases hok with
    | leaf _ hsorted _ _ => exact ⟨hsorted, rfl, by simp [NodeBody.Aligned, leafBody, newLeafWith]⟩
    | internal hl hseg =>
      exact ⟨sorted_of_fences hseg.sorted, rfl, (BodyOk.internal hl hseg).length_children⟩
  · intro d n keys heads children i c k h hb hc hk
    obtain ⟨s, hs, -⟩ := hlive h
    obtain ⟨-, l', -, hseg⟩ := hinv.internal_body hs hb
    obtain ⟨sc, hsc, hhi, hlo⟩ := hseg.child_span hc
    obtain ⟨h1, h2⟩ := hk.covers hinv hsc
    refine ⟨fun sep hsep => ?_, fun j sep hij hsep => ?_⟩
    · rwa [hhi sep hsep, fence_le_fence] at h2
    · rwa [hlo j sep hij hsep, fence_lt_fence] at h1
  · rintro d n ⟨h, hleaf⟩
    obtain ⟨s, hs, hlevel⟩ := hlive h
    rw [(hinv.isLeaf_iff hs).mp hleaf] at hlevel
    omega
  · intro d n keys heads vals next h hb hroot
    obtain ⟨s, hs, -⟩ := hlive h
    have hbounded := (hsized n s _ hs hb).bounded hroot (by simp)
    exact ⟨hbounded.1, hbounded.2 rfl⟩
  · intro d n keys heads children h hb
    obtain ⟨s, hs, -⟩ := hlive h
    exact (hsized n s _ hs hb).low
  · intro n
    constructor
    · intro hn
      obtain ⟨s, hs, h0, -⟩ := htiles.live n hn
      exact ⟨l, hunder n hn, (hinv.isLeaf_iff hs).mpr h0⟩
    · rintro ⟨d, h, hleaf⟩
      obtain ⟨s, hs, -⟩ := hlive h
      exact htiles.complete hinv hs ((hinv.isLeaf_iff hs).mp hleaf) bot_le le_top
  · rintro rfl
    cases htiles
  · have hset : S = (L.flatMap t.keysAt).toFinset := by
      ext k
      rw [hS, List.mem_toFinset, htiles.mem_keys hinv hm]
    rw [← hcard, hset, List.toFinset_card_of_nodup (hordered.imp ne_of_lt)]

/-- After every run of operations that return, the tree has its shape. -/
theorem Run.shape {l : List (Op × OpResult)} (h : Run new l t) : ∃ leaves, Shape t leaves :=
  (h.tidy tidy_new).exists_shape (h.counted counted_new)

/-- Insertions that split the root, and removals that merge its children again. -/
def splitMergeOps : List Op :=
  ((List.range 129).map fun i => .insert (keyAt i) []) ++
    (List.range 2).map fun i => .remove (keyAt i)

set_option maxRecDepth 10000 in
theorem runOps_splitMergeOps :
    ((runOps 8 new splitMergeOps).map fun x => (x.1.splits, x.1.merges, x.1.entries)) =
      some (4, 1, 127) := by
  decide +kernel

theorem Run.shape_splitMergeOps :
    ∃ t l, Run new l t ∧ t.merges = 1 ∧ t.entries = 127 ∧ ∃ leaves, Shape t leaves := by
  obtain ⟨⟨t, l⟩, hrun, htest⟩ := Option.map_eq_some_iff.mp runOps_splitMergeOps
  have hhist := run_of_runOps hrun
  simp only [Prod.mk.injEq] at htest
  exact ⟨t, l, hhist, htest.2.1, htest.2.2, hhist.shape⟩

end Reachable

end HenchDB.BTree
