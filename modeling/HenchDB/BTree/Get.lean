import HenchDB.BTree.Reader

/-!
# Point lookups beside a writer

`BTree::get` in single steps: the clone of the root pointer, the read of a
latch version (which waits while the latch is held), the read of a body, and
the validation of the version.  The reader validates a node before it reads
the version of the child, so a child that is split, borrowed from or merged
in between is entered with a fresh version and the wrong keys.  `Spared` is
the condition that this does not happen.  Under it a lookup of a key that
keeps its value during the call returns that value.
-/

namespace HenchDB.BTree

open Relation (ReflTransGen)

/-! ## The reader -/

inductive GetPc where
  /-- About to clone the root pointer. -/
  | start
  /-- Holds a node, has not read its version. -/
  | poised (n : NodeId)
  | versioned (n : NodeId) (version : Nat)
  | read (n : NodeId) (version : Nat) (o : Outcome (Option Bytes))
  | done (r : Option Bytes)
  | panicked
deriving DecidableEq

/-- One step of a lookup.  `none` while it waits for a latch, and at the end. -/
def getStep (key : Bytes) (s : Memory) : GetPc → Option GetPc
  | .start => some (.poised s.tree.root)
  | .poised n => if s.word n % 2 = 0 then some (.versioned n (s.word n)) else none
  | .versioned n version =>
    match (s.tree.body n).bind (getNode key) with
    | some o => some (.read n version o)
    | none => some .panicked
  | .read n version o =>
    if s.word n = version then
      match o with
      | .done r => some (.done r)
      | .descend c => some (.poised c)
      | .restart => none
    else some .start
  | .done _ => none
  | .panicked => none

/-- The body can be searched: an internal node has children. -/
def Readable : NodeBody → Prop
  | .leaf .. => True
  | .internal _ _ children => children ≠ []

/-- The nodes a lookup depends on without the protection of a version. -/
def GetPc.Exposed (s : Memory) (x : NodeId) : GetPc → Prop
  | .poised n => ExposedAt s.tree s.retired n x
  | .versioned n _ => n ∈ s.retired ∧ ExposedAt s.tree s.retired n x ∧ x ≠ n
  | .read n _ (.descend c) => n ∈ s.retired ∧ ExposedAt s.tree s.retired c x
  | _ => False

/-- The next step of the writer spares the lookup: it takes no keys away from a
node the lookup is exposed at, and does not empty an internal node between the
lookup's read of its version and of its body. -/
def GetPc.Spared (s : Memory) (pc : GetPc) : Prop :=
  (∀ x ∈ s.firing.shrunk, ¬ pc.Exposed s x) ∧
    ∀ n b version, s.publishing = some (n, b) → pc = .versioned n version → Readable b

/-- A step of the writer, or of the lookup of `key`. -/
inductive GetStep (key : Bytes) : Memory × GetPc → Memory × GetPc → Prop where
  | writer {s s' : Memory} {pc : GetPc} : WStep s s' → GetStep key (s, pc) (s', pc)
  | reader {s : Memory} {pc pc' : GetPc} :
      getStep key s pc = some pc' → GetStep key (s, pc) (s, pc')

/-- A step that spares the lookup when the writer makes it. -/
inductive SparingStep (key : Bytes) : Memory × GetPc → Memory × GetPc → Prop where
  | writer {s s' : Memory} {pc : GetPc} :
      WStep s s' → pc.Spared s → SparingStep key (s, pc) (s', pc)
  | reader {s : Memory} {pc pc' : GetPc} :
      getStep key s pc = some pc' → SparingStep key (s, pc) (s, pc')

/-! ## The invariant of a lookup -/

/-- What the position of a lookup promises, when the key has the value `v`
during the call. -/
def GetOk (s : Memory) (g : Spans) (key : Bytes) (v : Option Bytes) : GetPc → Prop
  | .start => True
  | .poised n => Leads s.tree s.retired g (Span.Covers · key) n
  | .versioned n version => version % 2 = 0 ∧ version ≤ s.word n ∧
      (s.word n = version → Leads s.tree s.retired g (Span.Covers · key) n) ∧
      ∃ b, s.tree.body n = some b ∧ Readable b
  | .read n version o => version % 2 = 0 ∧ version ≤ s.word n ∧ (s.word n = version →
      match o with
      | .done r => r = v
      | .descend c => Leads s.tree s.retired g (Span.Covers · key) c ∧ (n ∈ s.retired ∨
          ∃ sn keys children, g n = some sn ∧
            s.tree.body n = some (newInternal keys children) ∧ c ∈ children)
      | .restart => False)
  | .done r => r = v
  | .panicked => False

section Invariant

variable {s s' : Memory} {g g' : Spans} {key : Bytes} {v : Option Bytes} {pc pc' : GetPc}

theorem covers_grown (key : Bytes) (sp sp' : Span) (h : sp.Covers key) (hlo : sp'.lo ≤ sp.lo)
    (hhi : sp.hi ≤ sp'.hi) : sp'.Covers key := ⟨hlo.trans_lt h.1, h.2.trans hhi⟩

variable {b : NodeBody} {n : NodeId}

theorem BodyOk.readable {sn : Span} (h : BodyOk g sn b) : Readable b := by
  cases h with
  | leaf _ _ _ _ => trivial
  | internal _ hseg =>
    intro hnil
    have := hseg.length_eq
    simp [hnil] at this

theorem readable_getNode (key : Bytes) (h : Readable b) : ∃ o, getNode key b = some o := by
  cases b with
  | leaf keys heads vals next => exact ⟨_, rfl⟩
  | internal keys heads children =>
    have hlt : min (lowerBound keys heads key) (children.length - 1) < children.length := by
      have := List.length_pos_of_ne_nil h
      omega
    simp only [getNode]
    rw [if_neg h, List.getElem?_eq_getElem hlt]
    exact ⟨_, rfl⟩

/-- A node whose version has been read and whose body has not. -/
def Versioned (s : Memory) (g : Spans) (P : Span → Prop) (n : NodeId) (version : Nat) : Prop :=
  version % 2 = 0 ∧ version ≤ s.word n ∧
    (s.word n = version → Leads s.tree s.retired g P n) ∧ ∃ b, s.tree.body n = some b ∧ Readable b

def Descends (s : Memory) (g : Spans) (P : Span → Prop) (n c : NodeId) : Prop :=
  Leads s.tree s.retired g P c ∧ (n ∈ s.retired ∨ ∃ sn keys children, g n = some sn ∧
    s.tree.body n = some (newInternal keys children) ∧ c ∈ children)

section
variable {P : Span → Prop} {lossy : List NodeId} {n c : NodeId} {version : Nat} (h : MemOk s g)
  (hmv : Moves s g s' g') (hmoved : ∀ {x}, x ∈ lossy → x ∈ s.firing.moved)
include h hmv hmoved

/-- The writer may take nothing from what the node leads to. -/
theorem Versioned.step
    (hkept : ∀ {x sx}, g x = some sx → P sx → x ∉ lossy → Leads s'.tree s'.retired g' P x)
    (hsp : ∀ x ∈ lossy, ¬ (n ∈ s.retired ∧ ExposedAt s.tree s.retired n x ∧ x ≠ n))
    (hpub : ∀ b, s.publishing = some (n, b) → Readable b) (hok : Versioned s g P n version) :
    Versioned s' g' P n version := by
  obtain ⟨heven, hle, hleads, b, hb, hread⟩ := hok
  refine ⟨heven, hle.trans (hmv.words n), fun heq => ?_, ?_⟩
  · have hw : s.word n = version := le_antisymm (heq ▸ hmv.words n) hle
    refine (hleads hw).step h hmv fun x sx hx hgx hPx => hkept hgx hPx fun hmem => ?_
    by_cases hxn : x = n
    · -- the node itself is unlatched
      subst hxn
      have hodd := (h.firing_ok (hmoved hmem)).1 sx hgx
      omega
    · refine hsp x hmem ⟨?_, hx, hxn⟩
      cases hx with
      | here => exact absurd rfl hxn
      | through hret _ _ => exact hret
  · rcases hmv.bodies n b hb with hb' | ⟨b', hpub', hb', -⟩
    · exact ⟨b, hb', hread⟩
    · exact ⟨b', hb', hpub b' hpub'⟩

/-- The version of the node has not changed. -/
theorem Descends.step (heven : s.word n % 2 = 0) (hword : s'.word n = s.word n)
    (hkept : ∀ n, (∀ x, ExposedAt s.tree s.retired n x → x ∉ lossy) →
      Leads s.tree s.retired g P n → Leads s'.tree s'.retired g' P n)
    (hsp : ∀ x ∈ lossy, ¬ (n ∈ s.retired ∧ ExposedAt s.tree s.retired c x))
    (hok : Descends s g P n c) : Descends s' g' P n c := by
  obtain ⟨hc, hparent⟩ := hok
  rcases hparent with hret | ⟨sn, keys, children, hn, hb, hmem⟩
  · exact ⟨hkept c (fun x hx hx' => hsp x hx' ⟨hret, hx⟩) hc, Or.inl (hmv.retired n hret)⟩
  · -- the parent is unlatched, so the child stays
    have hnm : n ∉ s.firing.moved := fun hm => by
      have hodd := (h.firing_ok hm).1 sn hn
      omega
    have hbody : s'.tree.body n = some (newInternal keys children) := by
      rcases hmv.bodies n _ hb with hb' | ⟨b', -, -, hlt⟩
      · exact hb'
      · omega
    have hlog : s.logical.body n = some (newInternal keys children) :=
      (h.body_eq (by omega)).trans hb
    obtain ⟨l, -, hseg⟩ := h.inv.seg hn hlog
    obtain ⟨sc, hgc, -⟩ := hseg.mem c hmem
    refine ⟨hkept c (fun x hx hx' => ?_) hc, ?_⟩
    · obtain rfl := hx.eq_of_live h.retired_dead hgc
      have hodd := (h.firing_ok (hmoved hx')).2 n sn keys children hn hb hmem
      omega
    · rcases hmv.spans n sn hn hnm with hn' | ⟨hret, -⟩
      · exact Or.inr ⟨sn, keys, children, hn', hbody, hmem⟩
      · exact Or.inl hret

end

theorem Leads.readable {P : Span → Prop} (h : MemOk s g) (hfree : s.word n % 2 = 0)
    (hn : Leads s.tree s.retired g P n) : ∃ b, s.tree.body n = some b ∧ Readable b := by
  cases hn with
  | live hn _ =>
    obtain ⟨b, hb, hbok⟩ := h.inv.body n _ hn
    exact ⟨b, (h.body_eq hfree).symm.trans hb, hbok.readable⟩
  | retired _ hb _ => exact ⟨_, hb, by simp [Readable, newInternal]⟩

/-- A step of the writer that spares the lookup keeps its invariant. -/
theorem GetOk.writer (h : MemOk s g) (hmv : Moves s g s' g') (hsp : pc.Spared s)
    (hok : GetOk s g key v pc) : GetOk s' g' key v pc := by
  -- an exposed node that is live keeps its keys
  have hsame : ∀ n, (∀ x, ExposedAt s.tree s.retired n x → x ∉ s.firing.shrunk) →
      Leads s.tree s.retired g (Span.Covers · key) n → Leads s'.tree s'.retired g' (Span.Covers · key) n :=
    fun n hexp hn => hn.step h hmv fun x sx hx hgx hPx =>
      hmv.leads_grown (covers_grown key) hgx hPx (hexp x hx)
  cases pc with
  | start => trivial
  | done r => exact hok
  | panicked => exact hok
  | poised n => exact hsame n (fun x hx hmem => hsp.1 x hmem hx) hok
  | versioned n version =>
    exact Versioned.step h hmv Restructure.shrunk_subset_moved
      (fun hgx hPx => hmv.leads_grown (covers_grown key) hgx hPx) hsp.1
      (fun b hpub => hsp.2 n b version hpub rfl) hok
  | read n version o =>
    obtain ⟨heven, hle, hgood⟩ := hok
    refine ⟨heven, hle.trans (hmv.words n), fun heq => ?_⟩
    have hw : s.word n = version := le_antisymm (heq ▸ hmv.words n) hle
    have hgood := hgood hw
    cases o with
    | done r => exact hgood
    | restart => exact hgood
    | descend c =>
      exact Descends.step h hmv Restructure.shrunk_subset_moved (by omega) (by omega) hsame hsp.1 hgood

/-- A step of the lookup keeps its invariant. -/
theorem GetOk.reader (h : MemOk s g) (hv : s.map key = v) (hok : GetOk s g key v pc)
    (hstep : getStep key s pc = some pc') : GetOk s g key v pc' := by
  cases pc with
  | start =>
    cases hstep
    obtain ⟨l, hr, -⟩ := h.inv.root
    exact .live hr ⟨bot_lt_fence key, (fence_lt_top key).le⟩
  | poised n =>
    simp only [getStep] at hstep
    split at hstep
    · next hfree =>
      cases hstep
      exact ⟨hfree, le_rfl, fun _ => hok, Leads.readable h hfree hok⟩
    · cases hstep
  | versioned n version =>
    obtain ⟨heven, hle, hleads, b, hb, hread⟩ := hok
    obtain ⟨o, ho⟩ := readable_getNode key hread
    simp only [getStep, hb, Option.bind_some, ho, Option.some.injEq] at hstep
    subst hstep
    refine ⟨heven, hle, fun hw => ?_⟩
    cases hleads hw with
    | @live _ sn hn hcov =>
      have hlog : s.logical.body n = some b := (h.body_eq (by omega)).trans hb
      obtain ⟨b', hb', hbok⟩ := h.inv.body n _ hn
      rw [hlog, Option.some.injEq] at hb'
      subst hb'
      cases hbok with
      | leaf _ _ _ _ =>
        rw [getNode_leaf h.inv h.holds hn hlog hcov, Option.some.injEq] at ho
        subst ho
        exact hv
      | @internal keys children l _ hseg =>
        obtain ⟨c, sc, hget, hgc, -, hck⟩ := getNode_internal h.inv hn hlog hcov
        rw [hget, Option.some.injEq] at ho
        subst ho
        refine ⟨.live hgc hck, Or.inr ⟨sn, keys, children, hn, hb, ?_⟩⟩
        simp only [getNode, newInternal] at hget
        split at hget
        · cases hget
        · obtain ⟨c', hc', heq⟩ := Option.map_eq_some_iff.mp hget
          cases heq
          exact List.mem_of_getElem? hc'
    | @retired _ c hret hb' hc =>
      rw [hb, Option.some.injEq] at hb'
      subst hb'
      have hget : getNode key (newInternal [] [c]) = some (.descend c) := by
        simp [getNode, newInternal]
      rw [hget, Option.some.injEq] at ho
      subst ho
      exact ⟨hc, Or.inl hret⟩
  | read n version o =>
    obtain ⟨-, -, hgood⟩ := hok
    simp only [getStep] at hstep
    split at hstep
    · next hw =>
      have hgood := hgood hw
      cases o with
      | done r =>
        cases hstep
        exact hgood
      | descend c =>
        cases hstep
        exact hgood.1
      | restart => cases hstep
    · cases hstep
      trivial
  | done r => cases hstep
  | panicked => cases hstep

/-! ## A lookup left alone -/

/-- The lookup runs on while the writer stands still. -/
def Alone (key : Bytes) (s : Memory) (pc pc' : GetPc) : Prop :=
  ReflTransGen (fun a b => getStep key s a = some b) pc pc'

theorem Alone.head {mid : GetPc} (hstep : getStep key s pc = some mid) (h : Alone key s mid pc') :
    Alone key s pc pc' := ReflTransGen.head hstep h

theorem alone_round {o : Outcome (Option Bytes)} {next : GetPc} (hfree : s.word n % 2 = 0)
    (hb : s.tree.body n = some b) (ho : getNode key b = some o)
    (hnext : getStep key s (.read n (s.word n) o) = some next) (h : Alone key s next pc') :
    Alone key s (.poised n) pc' := by
  have hversion : getStep key s (.poised n) = some (.versioned n (s.word n)) := by
    simp [getStep, hfree]
  have hread : getStep key s (.versioned n (s.word n)) = some (.read n (s.word n) o) := by
    simp [getStep, hb, ho]
  exact (h.head hnext).head hread |>.head hversion

theorem alone_live (h : MemOk s g) (hv : s.map key = v) (hfree : ∀ n, s.word n % 2 = 0) :
    ∀ (level : Nat) {n : NodeId} {sn : Span}, g n = some sn → sn.level = level → sn.Covers key →
      Alone key s (.poised n) (.done v)
  | level, n, sn, hn, hl, hcov => by
    obtain ⟨b, hb, hbok⟩ := h.inv.body n sn hn
    have hb' : s.tree.body n = some b := (h.body_eq (hfree n)).symm.trans hb
    cases hbok with
    | leaf _ _ _ _ =>
      refine alone_round (hfree n) hb' (getNode_leaf h.inv h.holds hn hb hcov) ?_ .refl
      simp [getStep, hv]
    | internal _ _ =>
      obtain ⟨c, sc, hget, hgc, hlev, hck⟩ := getNode_internal h.inv hn hb hcov
      exact alone_round (hfree n) hb' hget (by simp [getStep])
        (alone_live h hv hfree sc.level hgc rfl hck)
termination_by level => level
decreasing_by omega

theorem alone_leads (h : MemOk s g) (hv : s.map key = v) (hfree : ∀ n, s.word n % 2 = 0)
    (hn : Leads s.tree s.retired g (Span.Covers · key) n) : Alone key s (.poised n) (.done v) := by
  induction hn with
  | live hn hcov => exact alone_live h hv hfree _ hn rfl hcov
  | @retired n c _ hb _ ih =>
    have hget : getNode key (newInternal [] [c]) = some (.descend c) := by
      simp [getNode, newInternal]
    exact alone_round (hfree n) hb hget (by simp [getStep]) ih

/-- When no latch is held, a lookup left alone returns the value of its key. -/
theorem GetOk.returns (h : MemOk s g) (hv : s.map key = v) (hfree : ∀ n, s.word n % 2 = 0)
    (hok : GetOk s g key v pc) : Alone key s pc (.done v) := by
  have hstart : Alone key s .start (.done v) := by
    obtain ⟨l, hr, -⟩ := h.inv.root
    exact (alone_leads h hv hfree (.live hr ⟨bot_lt_fence key, (fence_lt_top key).le⟩)).head rfl
  have hread : ∀ n version o, GetOk s g key v (.read n version o) →
      Alone key s (.read n version o) (.done v) := by
    intro n version o hok
    by_cases hw : s.word n = version
    · have hgood := hok.2.2 hw
      cases o with
      | done r =>
        obtain rfl : r = v := hgood
        exact Alone.head (by simp [getStep, hw]) .refl
      | descend c =>
        exact (alone_leads h hv hfree hgood.1).head (by simp [getStep, hw])
      | restart => exact hgood.elim
    · exact hstart.head (by simp [getStep, hw])
  cases pc with
  | start => exact hstart
  | poised n => exact alone_leads h hv hfree hok
  | versioned n version =>
    obtain ⟨-, -, -, b, hb, hr⟩ := id hok
    obtain ⟨o, ho⟩ := readable_getNode key hr
    have hstep : getStep key s (.versioned n version) = some (.read n version o) := by
      simp [getStep, hb, ho]
    exact (hread n version o (hok.reader h hv hstep)).head hstep
  | read n version o => exact hread n version o hok
  | done r =>
    obtain rfl : r = v := hok
    exact .refl
  | panicked => exact hok.elim

end Invariant

/-! ## Whole calls -/

/-- A lookup that every step of the writer spares, of a key that keeps its
value during the call, does not panic, returns nothing but that value, and
does return when it is left alone with no latch held. -/
theorem get_spared_returns_value {s0 s : Memory} {key : Bytes} {v : Option Bytes} {pc : GetPc}
    (h0 : ReflTransGen WStep Memory.init s0) (hv : s0.map key = v)
    (hrun : ReflTransGen (fun a b => SparingStep key a b ∧ b.1.map key = v)
      (s0, .start) (s, pc)) :
    pc ≠ .panicked ∧ (∀ r, pc = .done r → r = v) ∧
      ((∀ n, s.word n % 2 = 0) → Alone key s pc (.done v)) := by
  have hinv : ∃ g, MemOk s g ∧ s.map key = v ∧ GetOk s g key v pc := by
    refine Transition.invariant
      (P := fun a : Memory × GetPc => ∃ g, MemOk a.1 g ∧ a.1.map key = v ∧ GetOk a.1 g key v a.2)
      ?_ ?_ hrun
    · obtain ⟨g, hg⟩ := memOk_reachable h0
      exact ⟨g, hg, hv, trivial⟩
    · rintro ⟨a, pa⟩ ⟨b, pb⟩ ⟨g, hg, hva, hok⟩ ⟨hstep, hvb⟩
      cases hstep with
      | writer hw hsp =>
        obtain ⟨g', hg', hmv⟩ := WStep.ok hg hw
        exact ⟨g', hg', hvb, hok.writer hg hmv hsp⟩
      | reader hr => exact ⟨g, hg, hva, hok.reader hg hva hr⟩
  obtain ⟨g, hg, hvs, hok⟩ := hinv
  refine ⟨?_, ?_, fun hfree => hok.returns hg hvs hfree⟩
  · rintro rfl
    exact hok
  · rintro r rfl
    exact hok

/-- A lookup that has read the version of its node is spared by every step but one
that empties an internal node, as long as no root has been swapped out. -/
def GetPc.calm (s : Memory) (pc : GetPc) : Bool :=
  s.retired.isEmpty &&
    (s.firing == .none ||
      match pc with
      | .poised _ => false
      | _ => true) &&
    match s.publishing with
    | some (_, .internal _ _ []) => false
    | _ => true

theorem GetPc.Spared.of_calm {s : Memory} {pc : GetPc} (h : pc.calm s = true) : pc.Spared s := by
  simp only [GetPc.calm, Bool.and_eq_true, Bool.or_eq_true, List.isEmpty_iff, beq_iff_eq] at h
  obtain ⟨⟨hretired, hfiring⟩, hpublish⟩ := h
  refine ⟨fun x hx hexp => ?_, fun n b version hp _ => ?_⟩
  · rcases hfiring with hnone | hpc
    · rw [hnone] at hx
      cases hx
    · cases pc with
      | poised n => cases hpc
      | versioned n version => simp [GetPc.Exposed, hretired] at hexp
      | read n version o => cases o <;> simp [GetPc.Exposed, hretired] at hexp
      | _ => exact hexp
  · rw [hp] at hpublish
    cases b with
    | leaf keys heads vals next => trivial
    | internal keys heads children =>
      rintro rfl
      cases hpublish

def getTurn (key : Bytes) (a : Memory × GetPc) : Option (Option Op) → Option (Memory × GetPc)
  | some turn => (writerTurn a.1 turn).map fun s => (s, a.2)
  | none => (getStep key a.1 a.2).map fun pc => (a.1, pc)

theorem getStep_of_getTurn {key : Bytes} {turn : Option (Option Op)} {a b : Memory × GetPc}
    (h : getTurn key a turn = some b) : GetStep key a b := by
  cases turn with
  | none =>
    obtain ⟨pc, hpc, rfl⟩ := Option.map_eq_some_iff.mp h
    exact .reader hpc
  | some turn =>
    obtain ⟨s, hs, rfl⟩ := Option.map_eq_some_iff.mp h
    exact .writer (wstep_of_writerTurn hs)

def fullLeaf : Option Memory :=
  writerRun (fillTurns ((List.range 128).map keyAt) [1]) Memory.init

/-- A turn of the writer must spare the lookup. -/
def calmTurn (key : Bytes) (turn : Option (Option Op)) (a : Memory × GetPc) :
    Option (Memory × GetPc) :=
  if turn.isSome && !a.2.calm a.1 then none else getTurn key a turn

theorem sparingStep_of_calmTurn {key : Bytes} (turn : Option (Option Op)) (a b : Memory × GetPc)
    (h : calmTurn key turn a = some b) : SparingStep key a b := by
  unfold calmTurn at h
  split at h
  · cases h
  · next hcalm =>
    cases turn with
    | none =>
      obtain ⟨pc, hpc, rfl⟩ := Option.map_eq_some_iff.mp h
      exact .reader hpc
    | some turn =>
      obtain ⟨s, hs, rfl⟩ := Option.map_eq_some_iff.mp h
      exact .writer (wstep_of_writerTurn hs) (.of_calm (by simpa using hcalm))

/-- The lookup has read the version of the root leaf when a further insert wraps the
root and splits the leaf: its validation fails, and it starts again. -/
def splitBeside : List (Option (Option Op)) :=
  [none, none] ++ (opTurns (.insert (keyAt 128) [1]) 12).map some ++ List.replicate 9 none

/-- The lookup clones the root pointer, a further insert wraps the root and
releases the left half of the split leaf, and the lookup goes on there. -/
def splitRace : List (Option (Option Op)) :=
  [none] ++ (opTurns (.insert (keyAt 128) [1]) 6).map some ++ [none, none, none]

set_option maxRecDepth 100000 in
/-- Both lookups return, the first one beside a writer that has split the leaf. -/
theorem splits_return :
    (fullLeaf.map fun s => (s.map (keyAt 100),
      (Transition.exec (calmTurn (keyAt 100)) (fun a => a.1.map (keyAt 100) == some [1])
        splitBeside (s, .start)).map fun a => (a.1.tree.nodes.length, a.2 matches .done _),
      (Transition.exec (fun turn a => getTurn (keyAt 100) a turn)
        (fun a => a.1.map (keyAt 100) == some [1]) splitRace (s, .start)).map Prod.snd)) =
      some (some [1], some (3, true), some (.done none)) := by
  decide +kernel

/-- A lookup beside a split that spares it, of a key in the leaf that is split. -/
theorem get_spared_returns_value_beside_split :
    ∃ s0 s r, ReflTransGen WStep Memory.init s0 ∧
      ReflTransGen (fun a b => SparingStep (keyAt 100) a b ∧ b.1.map (keyAt 100) = some [1])
        (s0, .start) (s, .done r) ∧ s.tree.nodes.length = 3 ∧ r = some [1] := by
  obtain ⟨s0, hfull, hends⟩ := Option.map_eq_some_iff.mp splits_return
  obtain ⟨hv, hends⟩ := Prod.mk.inj hends
  obtain ⟨⟨s, pc⟩, hexec, hs⟩ := Option.map_eq_some_iff.mp (Prod.mk.inj hends).1
  obtain ⟨hnodes, hdone⟩ := Prod.mk.inj hs
  have h0 := reaches_of_writerRun hfull
  have hrun : ReflTransGen (fun a b => SparingStep (keyAt 100) a b ∧
      b.1.map (keyAt 100) = some [1]) (s0, .start) (s, pc) :=
    ReflTransGen.mono (fun _ b hab => ⟨hab.1, by simpa using hab.2⟩) _ _
      (Transition.exec_reaches sparingStep_of_calmTurn hexec)
  cases pc with
  | done r => exact ⟨s0, s, r, h0, hrun, hnodes, (get_spared_returns_value h0 hv hrun).2.1 r rfl⟩
  | _ => cases hdone

/-- A lookup misses a key that is mapped during the whole call, when the root
leaf splits between the clone of its pointer and the read of its version. -/
theorem get_misses_during_split :
    ∃ s0 s, ReflTransGen WStep Memory.init s0 ∧
      ReflTransGen (fun a b => GetStep (keyAt 100) a b ∧
        b.1.map (keyAt 100) = some [1]) (s0, .start) (s, .done none) := by
  obtain ⟨s0, hfull, hends⟩ := Option.map_eq_some_iff.mp splits_return
  obtain ⟨⟨s, pc⟩, hexec, rfl⟩ := Option.map_eq_some_iff.mp (Prod.mk.inj (Prod.mk.inj hends).2).2
  refine ⟨s0, s, reaches_of_writerRun hfull, ?_⟩
  have hnext : ∀ turn a b, getTurn (keyAt 100) a turn = some b → GetStep (keyAt 100) a b :=
    fun _ _ _ hab => getStep_of_getTurn hab
  refine ReflTransGen.mono (fun _ b hab => ⟨hab.1, ?_⟩) _ _
    (Transition.exec_reaches hnext hexec)
  simpa using hab.2

end HenchDB.BTree
