import HenchDB.BTree.Held
import HenchDB.BTree.Writer

/-!
# What a reader can rely on

The version of a node protects an optimistic reader from the moment it is
read: a restructuring latches the nodes it moves and their parent.  Before
that moment nothing protects the reader, and a step of the writer may take
away the keys it is looking for.  The lemmas here say when a reader that holds
a node stays on the right track.
-/

namespace HenchDB.BTree

/-! ## Latched nodes -/

section Latched

variable {s s' : Memory} {g g' : Spans} {n : NodeId}

/-- What an unlatched node publishes is what the logical tree holds. -/
theorem MemOk.body_eq (h : MemOk s g) (hfree : s.word n % 2 = 0) :
    s.logical.body n = s.tree.body n := by
  refine publishAll_getElem?_of_not_mem fun p hp heq => ?_
  have hheld : n ∈ s.writer.held := by
    cases hw : s.writer with
    | releasing task v todo =>
      rw [hw] at hp
      exact List.mem_map.mpr ⟨p, hp, heq⟩
    | _ =>
      rw [hw] at hp
      simp [Writer.pending] at hp
  have hodd := (h.latched n).mpr hheld
  omega

theorem MemOk.pending_nodup (h : MemOk s g) : (s.writer.pending.map Prod.fst).Nodup := by
  have hpc := h.pc
  cases hw : s.writer with
  | releasing task v todo =>
    simp only [PcOk, hw] at hpc
    exact hpc.1
  | _ => exact List.nodup_nil

/-- Even while it is latched, a live node of level zero publishes a leaf. -/
theorem MemOk.leaf_body (h : MemOk s g) {sn : Span} (hn : g n = some sn) (hl : sn.level = 0) :
    ∃ keys heads vals next, s.tree.body n = some (.leaf keys heads vals next) := by
  obtain ⟨b, hb, hbok⟩ := h.inv.body n sn hn
  have hleaf : b.isLeaf = true := by
    cases hbok with
    | leaf _ _ _ _ => rfl
    | internal hlev _ => omega
  have hphys : ∃ b', s.tree.body n = some b' ∧ b'.isLeaf = true := by
    by_cases hmem : ∃ p ∈ s.writer.pending, p.1 = n
    · obtain ⟨p, hp, rfl⟩ := hmem
      have hlt : p.1 < s.tree.nodes.length := by
        have hlt := (List.getElem?_eq_some_iff.mp hb).1
        rwa [Memory.logical, length_publishAll] at hlt
      have hnew := publishAll_getElem?_of_mem h.pending_nodup hp hlt
      obtain rfl : p.2 = b := Option.some.inj (hnew.symm.trans hb)
      have hold : s.tree.body p.1 = some s.tree.nodes[p.1] := List.getElem?_eq_getElem hlt
      exact ⟨_, hold, (h.kinds p hp _ hold).symm.trans hleaf⟩
    · exact ⟨b, (publishAll_getElem?_of_not_mem fun p hp heq => hmem ⟨p, hp, heq⟩).symm.trans hb,
        hleaf⟩
  obtain ⟨b', hb', hleaf'⟩ := hphys
  cases b' with
  | leaf keys heads vals next => exact ⟨keys, heads, vals, next, hb'⟩
  | internal => simp [NodeBody.isLeaf] at hleaf'

variable {x : NodeId} {P : Span → Prop}

/-- The facts about the visit whose first release is next. -/
theorem MemOk.firing_ok (h : MemOk s g) (hx : x ∈ s.firing.moved) :
    (∀ sx, g x = some sx → s.word x % 2 = 1) ∧
      ∀ p sp keys children, g p = some sp → s.tree.body p = some (newInternal keys children) →
        x ∈ children → s.word p % 2 = 1 := by
  unfold Memory.firing at hx
  split at hx
  · next task v held hw =>
    obtain ⟨rfl, hinv, sm, g', hok, -⟩ := h.acquired hw
    have hheld : ∀ z, z ∈ v.latched → s.word z % 2 = 1 := fun z hz =>
      (h.latched z).mpr (by rw [hw]; exact hz)
    refine ⟨fun sx hsx => ?_, fun p sp keys children hp hb hmem =>
      hheld p (hok.parents x hx p sp keys children hp hb hmem)⟩
    rcases hok.moved x hx with hlat | rfl
    · exact hheld x hlat
    · exact absurd (hinv.lt_length hsx) (lt_irrefl _)
  · simp [Restructure.moved] at hx

/-- Swapped-out roots are not published any more. -/
theorem MemOk.publishing_ne (h : MemOk s g) (hn : n ∈ s.retired) (b : NodeBody) :
    s.publishing ≠ some (n, b) := by
  intro hpub
  unfold Memory.publishing at hpub
  split at hpub
  · next task v held hw =>
    obtain ⟨rfl, -, sm, g', hok, -⟩ := h.acquired hw
    have hmem : n ∈ v.latched := hok.released.mem_iff.mp
      (List.mem_map.mpr ⟨_, List.mem_of_mem_head? hpub, rfl⟩)
    obtain ⟨sn, hsn⟩ := hok.live n hmem
    rw [(h.retired n hn).1] at hsn
    cases hsn
  · next task v todo hw =>
    have hpc := h.pc
    simp only [PcOk, hw] at hpc
    exact hpc.2.1 _ (List.mem_of_mem_head? hpub) hn
  · cases hpub

/-- A node that loses nothing serves as before. -/
theorem Moves.leads_grown {sx : Span} (hmv : Moves s g s' g')
    (hP : ∀ sp sp', P sp → sp'.lo ≤ sp.lo → sp.hi ≤ sp'.hi → P sp') (hgx : g x = some sx)
    (hPx : P sx) (hshrunk : x ∉ s.firing.shrunk) : Leads s'.tree s'.retired g' P x := by
  rcases hmv.grown x sx hgx hshrunk with ⟨sx', hgx', hlo, hhi⟩ | ⟨hret, c, l, hb, hgc⟩
  · exact .live hgx' (hP sx sx' hPx hlo hhi)
  · exact .retired hret hb (.live hgc (hP sx ⟨sx.lo, sx.hi, l⟩ hPx le_rfl le_rfl))

/-- A node that does not lose its lower part serves a purpose that only needs
it to reach low enough. -/
theorem Moves.leads_kept {sx : Span} (hmv : Moves s g s' g')
    (hP : ∀ sp sp', P sp → sp'.lo ≤ sp.lo → P sp') (hgx : g x = some sx) (hPx : P sx)
    (hlost : x ∉ s.firing.lost) : Leads s'.tree s'.retired g' P x := by
  rcases hmv.kept x sx hgx hlost with ⟨sx', hgx', -, hlo⟩ | ⟨-, hret, c, l, hb, hgc⟩
  · exact .live hgx' (hP sx sx' hPx hlo)
  · exact .retired hret hb (.live hgc (hP sx ⟨sx.lo, sx.hi, l⟩ hPx le_rfl))

/-- Being led on survives a step of the writer that the exposed nodes survive. -/
theorem Leads.step (h : MemOk s g) (hmv : Moves s g s' g') (hn : Leads s.tree s.retired g P n)
    (hlive : ∀ x sx, ExposedAt s.tree s.retired n x → g x = some sx → P sx →
      Leads s'.tree s'.retired g' P x) :
    Leads s'.tree s'.retired g' P n := by
  refine hn.transfer (fun z c hz hb => ⟨hmv.retired z hz, ?_⟩) hlive
  rcases hmv.bodies z _ hb with hb' | ⟨b', hpub, -⟩
  · exact hb'
  · exact absurd hpub (h.publishing_ne hz b')

end Latched

end HenchDB.BTree
