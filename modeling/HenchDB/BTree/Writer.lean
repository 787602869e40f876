import HenchDB.Lib.Transition
import HenchDB.BTree.Task

/-!
# One writer, one latch at a time

The memory that optimistic readers share with a single writer.  A step of the
writer is one latch acquisition, one release (which publishes the new body of
the node and bumps its version), one swap of the root pointer, or a choice
between two visits.  Latch words are even when free; acquiring and releasing
both add one.

While a visit is being released, the published heap is a mixture of old and
new bodies.  The nodes that still hold their old body are latched, so readers
are compared with the logical tree, in which the whole visit has happened.
-/

namespace HenchDB.BTree

/-! ## Memory and steps -/

inductive Writer where
  /-- Between two operations. -/
  | idle
  /-- At the head of the loop of `insert` or `upsert`. -/
  | retry (op : Op)
  | visiting (task : Task) (n : NodeId)
  | acquiring (task : Task) (v : Visit Answer) (held todo : List NodeId)
  | releasing (task : Task) (v : Visit Answer) (todo : List (NodeId × NodeBody))
  /-- At the head of the loop of `collapse_root`. -/
  | collapsing
  /-- Holding the latch of the root, to look at its children. -/
  | looking (cur : NodeId)
  /-- About to take the root mutex. -/
  | swapping (cur : NodeId) (single : Option NodeId)

structure Memory where
  tree : BTree
  /-- The latch words. -/
  word : NodeId → Nat
  writer : Writer
  /-- The map: the effect of every operation whose leaf has been published. -/
  map : Contents
  /-- The roots that `collapse_root` has swapped out. -/
  retired : List NodeId

/-- A fresh tree and an idle writer. -/
def Memory.init : Memory where
  tree := new
  word := fun _ => 0
  writer := .idle
  map := fun _ => none
  retired := []

def bump (word : NodeId → Nat) (n : NodeId) : NodeId → Nat :=
  Function.update word n (word n + 1)

def publish (t : BTree) (n : NodeId) (b : NodeBody) : BTree := { t with nodes := t.nodes.set n b }

def startOp (t : BTree) : Op → Writer
  | .insert k v => .retry (.insert k v)
  | .upsert k v => .retry (.upsert k v)
  | .updateInPlace k v => .visiting (.op (.updateInPlace k v)) t.root
  | .remove k => .visiting (.op (.remove k)) t.root

def proceed (t : BTree) : Task → Outcome Answer → Writer
  | task, .descend c => .visiting task c
  | .op o, .restart => .retry o
  | .op (.remove k), .done (.returned (.previous (some _))) => .visiting (.fix k) t.root
  | .op _, .done _ => .idle
  | .fix k, .done (.fixed true) => .visiting (.fix k) t.root
  | .fix _, _ => .collapsing

def writerStep (s : Memory) : Option Memory :=
  match s.writer with
  | .idle => none
  | .retry op =>
    if maxKeys ≤ s.tree.keyCount s.tree.root then some { s with tree := s.tree.wrapRoot }
    else some { s with writer := .visiting (.op op) s.tree.root }
  | .visiting task n =>
    (task.visit s.tree n).map fun v => { s with writer := .acquiring task v [] v.latched }
  | .acquiring task v held (x :: todo) =>
    if s.word x % 2 = 0 then
      some { s with word := bump s.word x, writer := .acquiring task v (held ++ [x]) todo }
    else none
  | .acquiring task v _ [] =>
    match v.published with
    | (x, b) :: todo =>
      some
        { s with
          tree := publish { s.tree.perform v with nodes := s.tree.nodes ++ v.fresh } x b
          word := bump s.word x
          map := task.mapAfter s.map v.outcome
          writer := .releasing task v todo }
    | [] => none
  | .releasing task v ((x, b) :: todo) =>
    some { s with tree := publish s.tree x b, word := bump s.word x,
                  writer := .releasing task v todo }
  | .releasing task v [] => some { s with writer := proceed s.tree task v.outcome }
  | .collapsing =>
    if s.word s.tree.root % 2 = 0 then
      some { s with word := bump s.word s.tree.root, writer := .looking s.tree.root }
    else none
  | .looking cur =>
    some { s with word := bump s.word cur,
                  writer := .swapping cur ((s.tree.body cur).bind singleChild) }
  | .swapping cur (some child) =>
    if s.tree.root = cur then
      some { s with tree := s.tree.collapseTo child, retired := cur :: s.retired,
                    writer := .collapsing }
    else some { s with writer := .idle }
  | .swapping _ none => some { s with writer := .idle }

/-- A step of the writer. -/
inductive WStep : Memory → Memory → Prop where
  | start {s : Memory} (op : Op) :
      s.writer = .idle → WStep s { s with writer := startOp s.tree op }
  | step {s s' : Memory} : writerStep s = some s' → WStep s s'

/-- One turn of a scheduled writer: start an operation when idle, or go on. -/
def writerTurn (s : Memory) : Option Op → Option Memory
  | some op =>
    match s.writer with
    | .idle => some { s with writer := startOp s.tree op }
    | _ => none
  | none => writerStep s

variable {s : Memory}

theorem wstep_of_writerTurn {s' : Memory} {turn : Option Op} (h : writerTurn s turn = some s') :
    WStep s s' := by
  cases turn with
  | none => exact .step h
  | some op =>
    simp only [writerTurn] at h
    split at h
    · next hidle =>
      cases h
      exact .start op hidle
    · cases h

/-- An operation followed by so many turns of the writer. -/
def opTurns (op : Op) (turns : Nat) : List (Option Op) := some op :: List.replicate turns none

/-- Inserts into a root leaf: check the root, choose the visit, latch, release,
move on. -/
def fillTurns (keys : List Bytes) (val : Bytes) : List (Option Op) :=
  keys.flatMap fun k => opTurns (.insert k val) 5

def writerRun (turns : List (Option Op)) (s : Memory) : Option Memory :=
  Transition.exec (fun turn s => writerTurn s turn) (fun _ => true) turns s

theorem reaches_of_writerRun {turns : List (Option Op)} {s' : Memory}
    (h : writerRun turns s = some s') : Relation.ReflTransGen WStep s s' := by
  have hnext : ∀ turn a b, writerTurn a turn = some b → WStep a b :=
    fun _ _ _ hab => wstep_of_writerTurn hab
  exact Relation.ReflTransGen.mono (fun _ _ hab => hab.1) _ _ (Transition.exec_reaches hnext h)

/-! ## The logical tree -/

/-- The bodies the writer still has to publish. -/
def Writer.pending : Writer → List (NodeId × NodeBody)
  | .releasing _ _ todo => todo
  | _ => []

/-- The tree with the visit in progress completed. -/
def Memory.logical (s : Memory) : BTree :=
  { s.tree with nodes := publishAll s.tree.nodes s.writer.pending }

/-- Between visits the logical tree is the published one. -/
theorem logical_eq (h : s.writer.pending = []) : s.logical = s.tree := by
  rw [Memory.logical, h]
  rfl

def Writer.held : Writer → List NodeId
  | .acquiring _ _ held _ => held
  | .releasing _ _ todo => todo.map Prod.fst
  | .looking cur => [cur]
  | _ => []

/-- The restructuring that the next step of the writer makes visible. -/
def Memory.firing (s : Memory) : Restructure :=
  match s.writer with
  | .acquiring _ v _ [] => v.change
  | _ => .none

def Memory.publishing (s : Memory) : Option (NodeId × NodeBody) :=
  match s.writer with
  | .acquiring _ v _ [] => v.published.head?
  | .releasing _ _ todo => todo.head?
  | _ => none

/-- What the writer's position promises. -/
def PcOk (s : Memory) (g : Spans) : Prop :=
  match s.writer with
  | .visiting task n => ∃ sn, g n = some sn ∧ sn.Covers task.key
  | .acquiring task v held todo => held ++ todo = v.latched ∧
      ∃ n sn, g n = some sn ∧ sn.Covers task.key ∧ task.visit s.tree n = some v
  | .releasing task v todo => (todo.map Prod.fst).Nodup ∧
      (∀ p ∈ todo, p.1 ∉ s.retired) ∧
      ∀ c, v.outcome = .descend c → ∃ sc, g c = some sc ∧ sc.Covers task.key
  | .looking cur => cur = s.tree.root
  | .swapping cur single => cur = s.tree.root ∧ single = (s.tree.body cur).bind singleChild
  | _ => True

structure MemOk (s : Memory) (g : Spans) : Prop where
  inv : Inv s.logical g
  holds : Holds s.logical g s.map
  latched : ∀ n, s.word n % 2 = 1 ↔ n ∈ s.writer.held
  pc : PcOk s g
  retired : ∀ n ∈ s.retired, g n = none ∧ ∃ c, s.tree.body n = some (newInternal [] [c])
  /-- No publication turns a leaf into an internal node, or back. -/
  kinds : ∀ p ∈ s.writer.pending, ∀ b, s.tree.body p.1 = some b → p.2.isLeaf = b.isLeaf

/-- What a step of the writer means to the readers. -/
structure Moves (s : Memory) (g : Spans) (s' : Memory) (g' : Spans) : Prop where
  words : ∀ n, s.word n ≤ s'.word n
  /-- A body changes only by publication, which bumps the version. -/
  bodies : ∀ n b, s.tree.body n = some b → s'.tree.body n = some b ∨
    ∃ b', s.publishing = some (n, b') ∧ s'.tree.body n = some b' ∧ s.word n < s'.word n
  retired : ∀ n ∈ s.retired, n ∈ s'.retired
  /-- Nodes that are not restructured keep their span, or are a root that is
  swapped out for its only child. -/
  spans : ∀ n sn, g n = some sn → n ∉ s.firing.moved → g' n = some sn ∨
    (n ∈ s'.retired ∧ ∃ c l, s'.tree.body n = some (newInternal [] [c]) ∧
      g' c = some ⟨sn.lo, sn.hi, l⟩)
  /-- Nodes that do not lose the lower part of their span still reach as low. -/
  kept : ∀ n sn, g n = some sn → n ∉ s.firing.lost →
    (∃ sn', g' n = some sn' ∧ sn'.level = sn.level ∧ sn'.lo ≤ sn.lo) ∨
      (0 < sn.level ∧ n ∈ s'.retired ∧ ∃ c l, s'.tree.body n = some (newInternal [] [c]) ∧
        g' c = some ⟨sn.lo, sn.hi, l⟩)
  /-- Nodes that lose nothing still cover what they covered. -/
  grown : ∀ n sn, g n = some sn → n ∉ s.firing.shrunk →
    (∃ sn', g' n = some sn' ∧ sn'.lo ≤ sn.lo ∧ sn.hi ≤ sn'.hi) ∨
      (n ∈ s'.retired ∧ ∃ c l, s'.tree.body n = some (newInternal [] [c]) ∧
        g' c = some ⟨sn.lo, sn.hi, l⟩)

/-- Swapped-out roots are not live. -/
theorem MemOk.retired_dead {g : Spans} (h : MemOk s g) :
    ∀ n ∈ s.retired, g n = none := fun n hn => (h.retired n hn).1

section Steps

variable {s s' : Memory} {g : Spans}

theorem le_bump (word : NodeId → Nat) (n m : NodeId) : word m ≤ bump word n m := by
  unfold bump
  by_cases h : m = n
  · subst h
    simp
  · simp [h]

theorem bump_self (word : NodeId → Nat) (n : NodeId) : bump word n n = word n + 1 := by
  simp [bump]

variable {n x : NodeId} {task : Task} {v : Visit Answer} {t : BTree} {b : NodeBody}

theorem bump_other (word : NodeId → Nat) {m : NodeId} (h : m ≠ n) : bump word n m = word m := by
  simp [bump, h]

/-- Steps that leave the tree alone. -/
theorem Moves.of_same (hw : ∀ n, s.word n ≤ s'.word n) (ht : s'.tree = s.tree)
    (hr : s'.retired = s.retired) : Moves s g s' g where
  words := hw
  bodies _ _ hb := Or.inl (ht ▸ hb)
  retired _ hn := hr ▸ hn
  spans _ _ hn _ := Or.inl hn
  kept _ sn hn _ := Or.inl ⟨sn, hn, rfl, le_rfl⟩
  grown _ sn hn _ := Or.inl ⟨sn, hn, le_rfl, le_rfl⟩

theorem root_covers (h : Inv s.tree g) (key : Bytes) :
    ∃ sn, g s.tree.root = some sn ∧ sn.Covers key := by
  obtain ⟨l, hr, -⟩ := h.root
  exact ⟨_, hr, bot_lt_fence key, (fence_lt_top key).le⟩

/-- Moving on between visits. -/
theorem MemOk.quiet (h : MemOk s g) {w : Writer} (hp : s.writer.pending = [])
    (hp' : w.pending = []) (hheld : w.held = s.writer.held)
    (hpc : PcOk { s with writer := w } g) : MemOk { s with writer := w } g where
  inv := by
    rw [logical_eq (s := { s with writer := w }) hp', ← logical_eq hp]
    exact h.inv
  holds := by
    rw [logical_eq (s := { s with writer := w }) hp', ← logical_eq hp]
    exact h.holds
  latched n := by
    show s.word n % 2 = 1 ↔ n ∈ w.held
    rw [hheld]
    exact h.latched n
  pc := hpc
  retired := h.retired
  kinds p hmem := by
    rw [show ({ s with writer := w } : Memory).writer.pending = [] from hp'] at hmem
    cases hmem

theorem WStep.ok_start (h : MemOk s g) (hidle : s.writer = .idle) (op : Op) :
    MemOk { s with writer := startOp s.tree op } g := by
  have hp : s.writer.pending = [] := by rw [hidle]; rfl
  have hinv : Inv s.tree g := logical_eq hp ▸ h.inv
  cases op with
  | insert k v => exact h.quiet hp rfl (by simp [startOp, Writer.held, hidle]) trivial
  | upsert k v => exact h.quiet hp rfl (by simp [startOp, Writer.held, hidle]) trivial
  | updateInPlace k v =>
    exact h.quiet hp rfl (by simp [startOp, Writer.held, hidle]) (root_covers hinv k)
  | remove k =>
    exact h.quiet hp rfl (by simp [startOp, Writer.held, hidle]) (root_covers hinv k)

theorem WStep.ok_wrap (h : MemOk s g) {op : Op} (hw : s.writer = .retry op) :
    ∃ g', MemOk { s with tree := s.tree.wrapRoot } g' ∧
      Moves s g { s with tree := s.tree.wrapRoot } g' := by
  have hl : s.logical = s.tree := logical_eq (by rw [hw]; rfl)
  have hinv : Inv s.tree g := hl ▸ h.inv
  have hm : Holds s.tree g s.map := hl ▸ h.holds
  obtain ⟨l, -, hinv'⟩ := hinv.wrapRoot
  have hl' : ({ s with tree := s.tree.wrapRoot } : Memory).logical = s.tree.wrapRoot :=
    logical_eq (s := { s with tree := s.tree.wrapRoot }) (by rw [hw]; rfl)
  have hbody : ∀ n b, s.tree.body n = some b → s.tree.wrapRoot.body n = some b := fun n b hb =>
    (List.getElem?_append_left (List.getElem?_eq_some_iff.mp hb).1).trans hb
  refine ⟨_, ⟨by rw [hl']; exact hinv', by rw [hl']; exact hm.wrapRoot hinv, h.latched, ?_,
    fun n hn => ?_, by simp [hw, Writer.pending]⟩,
    ⟨fun n => le_rfl, fun n b hb => Or.inl (hbody n b hb), fun n hn => hn, fun n sn hn _ => ?_,
      fun n sn hn _ => ?_, fun n sn hn _ => ?_⟩⟩
  · simp [PcOk, hw]
  · obtain ⟨hdead, c, hb⟩ := h.retired n hn
    refine ⟨?_, c, hbody n _ hb⟩
    have hne : n ≠ s.tree.nodes.length := fun he =>
      absurd (List.getElem?_eq_some_iff.mp hb).1 (by simp [he])
    simp [withRoot, hne, hdead]
  · exact Or.inl (withRoot_of_live hinv hn)
  · exact Or.inl ⟨sn, withRoot_of_live hinv hn, rfl, le_rfl⟩
  · exact Or.inl ⟨sn, withRoot_of_live hinv hn, le_rfl, le_rfl⟩

/-- Taking one latch. -/
theorem WStep.ok_acquire (h : MemOk s g) {held todo : List NodeId}
    (hw : s.writer = .acquiring task v held (x :: todo)) (hfree : s.word x % 2 = 0) :
    MemOk { s with word := bump s.word x, writer := .acquiring task v (held ++ [x]) todo } g := by
  have hl : s.logical = s.tree := logical_eq (by rw [hw]; rfl)
  have hpc := h.pc
  simp only [PcOk, hw] at hpc
  refine ⟨hl ▸ h.inv, hl ▸ h.holds, fun n => ?_, ?_, h.retired, by simp [Writer.pending]⟩
  · have hn := h.latched n
    simp only [hw, Writer.held] at hn
    simp only [Writer.held, List.mem_append, List.mem_singleton, ← hn]
    by_cases hnx : n = x
    · subst hnx
      simp [bump_self]
      omega
    · simp [bump_other _ hnx, hnx]
  · simpa [PcOk] using hpc

theorem body_publish_self {b' : NodeBody} (h : t.body n = some b') :
    (publish t n b).body n = some b :=
  List.getElem?_set_self (List.getElem?_eq_some_iff.mp h).1

theorem body_publish_other {m : NodeId} (h : m ≠ n) :
    (publish t n b).body m = t.body m := List.getElem?_set_ne h.symm

theorem mod_bump_self {word : NodeId → Nat} (h : word n % 2 = 1) :
    bump word n n % 2 = 0 := by
  rw [bump_self]
  omega

theorem latched_release {word : NodeId → Nat} {l : List NodeId}
    (h : ∀ n, word n % 2 = 1 ↔ n ∈ x :: l) (hnd : (x :: l).Nodup) :
    ∀ n, bump word x n % 2 = 1 ↔ n ∈ l := by
  intro n
  by_cases hnx : n = x
  · subst hnx
    have hodd := (h n).mpr (List.mem_cons_self ..)
    rw [mod_bump_self hodd]
    exact iff_of_false (by simp) (List.nodup_cons.mp hnd).1
  · rw [bump_other _ hnx, h n, List.mem_cons, or_iff_right hnx]

/-- With all its latches taken, the visit is one of the published tree. -/
theorem MemOk.acquired (h : MemOk s g) {held : List NodeId}
    (hw : s.writer = .acquiring task v held []) :
    held = v.latched ∧ Inv s.tree g ∧
      ∃ (sn : Span) (g' : Spans), TaskVisit s.tree g s.map task sn.level v g' := by
  have hl : s.logical = s.tree := logical_eq (by rw [hw]; rfl)
  have hinv : Inv s.tree g := hl ▸ h.inv
  have hm : Holds s.tree g s.map := hl ▸ h.holds
  have hpc := h.pc
  simp only [PcOk, hw, List.append_nil] at hpc
  obtain ⟨hheld, n, sn, hn, hk, hvisit⟩ := hpc
  exact ⟨hheld, hinv, sn, Task.visit_spec hinv hm hn hk hvisit⟩

/-- The first release of a visit makes the whole visit happen. -/
theorem WStep.ok_fire (h : MemOk s g) {task : Task} {v : Visit Answer} {held : List NodeId}
    {x : NodeId} {b : NodeBody} {todo : List (NodeId × NodeBody)}
    (hw : s.writer = .acquiring task v held []) (hpub : v.published = (x, b) :: todo)
    (hs' : s' = { s with
      tree := publish { s.tree.perform v with nodes := s.tree.nodes ++ v.fresh } x b
      word := bump s.word x
      map := task.mapAfter s.map v.outcome
      writer := .releasing task v todo }) :
    ∃ g', MemOk s' g' ∧ Moves s g s' g' := by
  obtain ⟨rfl, hinv, sn, g', hok, hholds, -, hdesc⟩ := h.acquired hw
  have hl' : s'.logical = s.tree.perform v := by
    subst hs'
    simp only [Memory.logical, Writer.pending, publish, perform, hpub]
    rfl
  have hperm := hok.released
  rw [hpub, List.map_cons] at hperm
  have hnd : (x :: todo.map Prod.fst).Nodup := hperm.nodup_iff.mpr hok.nodup
  have hlatched : ∀ n, s.word n % 2 = 1 ↔ n ∈ x :: todo.map Prod.fst := fun n => by
    rw [h.latched n, hw, hperm.mem_iff]
    rfl
  have hlive : ∀ z ∈ x :: todo.map Prod.fst, ∃ sz, g z = some sz := fun z hz =>
    hok.live z (hperm.mem_iff.mp hz)
  have hbody : ∀ z bz, s.tree.body z = some bz → z ≠ x → s'.tree.body z = some bz := by
    intro z bz hbz hne
    subst hs'
    refine (body_publish_other hne).trans ?_
    exact (List.getElem?_append_left (List.getElem?_eq_some_iff.mp hbz).1).trans hbz
  have hdead : ∀ z bz, s.tree.body z = some bz → g z = none → z ∉ v.change.moved := by
    intro z bz hbz hz hmem
    rcases hok.moved z hmem with hlat | rfl
    · obtain ⟨sz, hsz⟩ := hok.live z hlat
      rw [hz] at hsz
      cases hsz
    · exact absurd (List.getElem?_eq_some_iff.mp hbz).1 (lt_irrefl _)
  refine ⟨g', ⟨by rw [hl']; exact hok.inv, ?_, ?_, ?_, fun z hz => ?_, fun p hp bp hbp => ?_⟩,
    ⟨fun z => ?_, fun z bz hbz => ?_, fun z hz => ?_, fun z sz hz hmoved => ?_,
      fun z sz hz hlost => ?_, fun z sz hz hshrunk => ?_⟩⟩
  · rw [hl']
    subst hs'
    exact hholds
  · subst hs'
    exact latched_release hlatched hnd
  · subst hs'
    refine ⟨(List.nodup_cons.mp hnd).2, fun p hp hret => ?_, fun c hc => ?_⟩
    · obtain ⟨sz, hsz⟩ := hlive p.1 (List.mem_cons_of_mem _ (List.mem_map_of_mem hp))
      rw [(h.retired p.1 hret).1] at hsz
      cases hsz
    · obtain ⟨sc, hgc, -, hcov⟩ := hdesc c hc
      exact ⟨sc, hgc, hcov⟩
  · have hz' : z ∈ s.retired := by
      subst hs'
      exact hz
    obtain ⟨hgz, c, hbz⟩ := h.retired z hz'
    refine ⟨(hok.frame.same z (hdead z _ hbz hgz)).trans hgz, c, hbody z _ hbz ?_⟩
    rintro rfl
    obtain ⟨sz, hsz⟩ := hlive z (List.mem_cons_self ..)
    rw [hgz] at hsz
    cases hsz
  · have hp' : p ∈ todo := by
      subst hs'
      exact hp
    have hmem : p.1 ∈ todo.map Prod.fst := List.mem_map_of_mem hp'
    obtain ⟨sz, hsz⟩ := hlive p.1 (List.mem_cons_of_mem _ hmem)
    obtain ⟨bz, hbz, -⟩ := hinv.body p.1 sz hsz
    have hne : p.1 ≠ x := by
      rintro rfl
      exact (List.nodup_cons.mp hnd).1 hmem
    obtain rfl : bz = bp := Option.some.inj ((hbody p.1 bz hbz hne).symm.trans hbp)
    exact hok.kinds p (hpub ▸ List.mem_cons_of_mem _ hp') bz hbz
  · subst hs'
    exact le_bump _ _ _
  · by_cases hzx : z = x
    · subst hzx
      refine Or.inr ⟨b, by simp [Memory.publishing, hw, hpub], ?_, ?_⟩
      · subst hs'
        exact body_publish_self
          ((List.getElem?_append_left (List.getElem?_eq_some_iff.mp hbz).1).trans hbz)
      · subst hs'
        show s.word z < bump s.word z z
        rw [bump_self]
        exact Nat.lt_succ_self _
    · exact Or.inl (hbody z bz hbz hzx)
  · subst hs'
    exact hz
  · simp only [Memory.firing, hw] at hmoved
    exact Or.inl ((hok.frame.same z hmoved).trans hz)
  · simp only [Memory.firing, hw] at hlost
    exact Or.inl (hok.frame.kept z sz hz hlost)
  · simp only [Memory.firing, hw] at hshrunk
    obtain ⟨sz', hz', -, hlo, hhi⟩ := hok.frame.grown z sz hz hshrunk
    exact Or.inl ⟨sz', hz', hlo, hhi⟩

theorem WStep.ok_release (h : MemOk s g) {todo : List (NodeId × NodeBody)}
    (hw : s.writer = .releasing task v ((x, b) :: todo))
    (hs' : s' =
      { s with tree := publish s.tree x b, word := bump s.word x, writer := .releasing task v todo }) :
    MemOk s' g ∧ Moves s g s' g := by
  have hpc := h.pc
  simp only [PcOk, hw, List.map_cons] at hpc
  obtain ⟨hnd, hret, hdesc⟩ := hpc
  have hl' : s'.logical = s.logical := by
    subst hs'
    simp only [Memory.logical, hw, Writer.pending]
    rfl
  have hbody : ∀ z, z ≠ x → s'.tree.body z = s.tree.body z := by
    intro z hne
    subst hs'
    exact body_publish_other hne
  refine ⟨⟨by rw [hl']; exact h.inv, ?_, ?_, ?_, fun z hz => ?_, fun p hp bp hbp => ?_⟩,
    ⟨fun z => ?_, fun z bz hbz => ?_, fun z hz => ?_, fun z sz hz _ => Or.inl hz,
      fun z sz hz _ => Or.inl ⟨sz, hz, rfl, le_rfl⟩,
      fun z sz hz _ => Or.inl ⟨sz, hz, le_rfl, le_rfl⟩⟩⟩
  · rw [hl']
    subst hs'
    exact h.holds
  · subst hs'
    refine latched_release (fun n => ?_) hnd
    rw [h.latched n, hw]
    rfl
  · subst hs'
    exact ⟨(List.nodup_cons.mp hnd).2, fun p hp => hret p (List.mem_cons_of_mem _ hp), hdesc⟩
  · have hz' : z ∈ s.retired := by
      subst hs'
      exact hz
    obtain ⟨hgz, c, hbz⟩ := h.retired z hz'
    refine ⟨hgz, c, (hbody z ?_).trans hbz⟩
    rintro rfl
    exact hret (z, b) (List.mem_cons_self ..) hz'
  · have hp' : p ∈ todo := by
      subst hs'
      exact hp
    have hne : p.1 ≠ x := by
      rintro rfl
      exact (List.nodup_cons.mp hnd).1 (List.mem_map_of_mem hp')
    refine h.kinds p ?_ bp ((hbody p.1 hne).symm.trans hbp)
    rw [hw]
    exact List.mem_cons_of_mem _ hp'
  · subst hs'
    exact le_bump _ _ _
  · by_cases hzx : z = x
    · subst hzx
      refine Or.inr ⟨b, by simp [Memory.publishing, hw], ?_, ?_⟩
      · subst hs'
        exact body_publish_self hbz
      · subst hs'
        show s.word z < bump s.word z z
        rw [bump_self]
        exact Nat.lt_succ_self _
    · exact Or.inl ((hbody z hzx).trans hbz)
  · subst hs'
    exact hz

theorem proceed_held (task : Task) (o : Outcome Answer) :
    (proceed t task o).held = [] := by
  unfold proceed
  split <;> rfl

theorem proceed_pending (task : Task) (o : Outcome Answer) :
    (proceed t task o).pending = [] := by
  unfold proceed
  split <;> rfl

/-- Between two visits. -/
theorem WStep.ok_proceed (h : MemOk s g) (hw : s.writer = .releasing task v []) :
    MemOk { s with writer := proceed s.tree task v.outcome } g := by
  have hp : s.writer.pending = [] := by rw [hw]; rfl
  have hinv : Inv s.tree g := logical_eq hp ▸ h.inv
  have hpc := h.pc
  simp only [PcOk, hw] at hpc
  refine h.quiet hp (proceed_pending _ _) (by rw [proceed_held, hw]; rfl) ?_
  have hroot : ∀ k, PcOk { s with writer := .visiting (.fix k) s.tree.root } g :=
    fun k => root_covers hinv k
  cases ho : v.outcome with
  | descend c => exact hpc.2.2 c ho
  | restart => cases task <;> exact trivial
  | done a =>
    unfold proceed
    split
    · next heq => cases heq
    · exact trivial
    · exact hroot _
    · exact trivial
    · exact hroot _
    · exact trivial

theorem WStep.ok_look (h : MemOk s g) (hw : s.writer = .collapsing)
    (hfree : s.word s.tree.root % 2 = 0) :
    MemOk { s with word := bump s.word s.tree.root, writer := .looking s.tree.root } g := by
  have hl : s.logical = s.tree := logical_eq (by rw [hw]; rfl)
  refine ⟨hl ▸ h.inv, hl ▸ h.holds, fun n => ?_, rfl, h.retired, by simp [Writer.pending]⟩
  have hn := h.latched n
  simp only [hw, Writer.held, List.not_mem_nil, iff_false] at hn
  simp only [Writer.held, List.mem_singleton]
  by_cases hnx : n = s.tree.root
  · subst hnx
    simp [bump_self]
    omega
  · simp [bump_other _ hnx, hnx, hn]

theorem WStep.ok_looked (h : MemOk s g) {cur : NodeId} (hw : s.writer = .looking cur) :
    MemOk { s with word := bump s.word cur,
                   writer := .swapping cur ((s.tree.body cur).bind singleChild) } g := by
  have hl : s.logical = s.tree := logical_eq (by rw [hw]; rfl)
  have hpc := h.pc
  simp only [PcOk, hw] at hpc
  refine ⟨hl ▸ h.inv, hl ▸ h.holds, ?_, ⟨hpc, rfl⟩, h.retired, by simp [Writer.pending]⟩
  refine latched_release (fun n => ?_) (List.nodup_singleton cur)
  rw [h.latched n, hw]
  rfl

theorem WStep.ok_swap (h : MemOk s g) {cur child : NodeId}
    (hw : s.writer = .swapping cur (some child)) :
    ∃ g', MemOk { s with tree := s.tree.collapseTo child, retired := cur :: s.retired,
                         writer := .collapsing } g' ∧
      Moves s g { s with tree := s.tree.collapseTo child, retired := cur :: s.retired,
                         writer := .collapsing } g' := by
  have hl : s.logical = s.tree := logical_eq (by rw [hw]; rfl)
  have hinv : Inv s.tree g := hl ▸ h.inv
  have hm : Holds s.tree g s.map := hl ▸ h.holds
  have hpc := h.pc
  simp only [PcOk, hw] at hpc
  obtain ⟨rfl, hsingle⟩ := hpc
  obtain ⟨b, hb, hsc⟩ := Option.bind_eq_some_iff.mp hsingle.symm
  obtain ⟨l, hr, rfl, hgc, -⟩ := hinv.singleChild_span hb hsc
  have hne : child ≠ s.tree.root := by
    rintro rfl
    rw [hr, Option.some.injEq, Span.mk.injEq] at hgc
    omega
  have hchild : withoutRoot g s.tree.root child = some ⟨⊥, ⊤, l⟩ := by
    simp [withoutRoot, hne, hgc]
  have hother : ∀ z sz, g z = some sz → z ≠ s.tree.root → withoutRoot g s.tree.root z = some sz :=
    fun z sz hz hzr => by simp [withoutRoot, hzr, hz]
  refine ⟨_, ⟨hinv.collapse hb hsc, hm.collapse, fun n => ?_, trivial, fun z hz => ?_,
      by simp [Writer.pending]⟩,
    ⟨fun z => le_rfl, fun z bz hbz => Or.inl hbz, fun z hz => List.mem_cons_of_mem _ hz,
      fun z sz hz _ => ?_, fun z sz hz _ => ?_, fun z sz hz _ => ?_⟩⟩
  · have hn := h.latched n
    rw [hw] at hn
    exact hn
  · rcases List.mem_cons.mp hz with rfl | hz'
    · exact ⟨by simp [withoutRoot], child, hb⟩
    · obtain ⟨hgz, c, hbz⟩ := h.retired z hz'
      refine ⟨?_, c, hbz⟩
      unfold withoutRoot
      split
      · rfl
      · exact hgz
  · by_cases hzr : z = s.tree.root
    · subst hzr
      rw [hr, Option.some.injEq] at hz
      subst hz
      exact Or.inr ⟨List.mem_cons_self .., child, l, hb, hchild⟩
    · exact Or.inl (hother z sz hz hzr)
  · by_cases hzr : z = s.tree.root
    · subst hzr
      rw [hr, Option.some.injEq] at hz
      subst hz
      exact Or.inr ⟨Nat.succ_pos l, List.mem_cons_self .., child, l, hb, hchild⟩
    · exact Or.inl ⟨sz, hother z sz hz hzr, rfl, le_rfl⟩
  · by_cases hzr : z = s.tree.root
    · subst hzr
      rw [hr, Option.some.injEq] at hz
      subst hz
      exact Or.inr ⟨List.mem_cons_self .., child, l, hb, hchild⟩
    · exact Or.inl ⟨sz, hother z sz hz hzr, le_rfl, le_rfl⟩

/-- Every step of the writer keeps the invariant of the memory. -/
theorem WStep.ok (h : MemOk s g) (hs : WStep s s') : ∃ g', MemOk s' g' ∧ Moves s g s' g' := by
  cases hs with
  | start op hidle =>
    exact ⟨g, WStep.ok_start h hidle op, .of_same (fun _ => le_rfl) rfl rfl⟩
  | step hstep =>
    unfold writerStep at hstep
    split at hstep
    · cases hstep
    · next op hw =>
      split at hstep
      · cases hstep
        exact WStep.ok_wrap h hw
      · cases hstep
        have hp : s.writer.pending = [] := by rw [hw]; rfl
        exact ⟨g, h.quiet hp rfl (by simp [Writer.held, hw])
          (root_covers (logical_eq hp ▸ h.inv) _), .of_same (fun _ => le_rfl) rfl rfl⟩
    · next task n hw =>
      obtain ⟨v, hv, rfl⟩ := Option.map_eq_some_iff.mp hstep
      have hpc := h.pc
      simp only [PcOk, hw] at hpc
      obtain ⟨sn, hn, hk⟩ := hpc
      exact ⟨g, h.quiet (by rw [hw]; rfl) rfl (by simp [Writer.held, hw])
        ⟨List.nil_append _, n, sn, hn, hk, hv⟩, .of_same (fun _ => le_rfl) rfl rfl⟩
    · next task v held x todo hw =>
      split at hstep
      · next hfree =>
        cases hstep
        exact ⟨g, WStep.ok_acquire h hw hfree, .of_same (le_bump _ _) rfl rfl⟩
      · cases hstep
    · next task v held hw =>
      split at hstep
      · next x b todo hpub =>
        cases hstep
        exact WStep.ok_fire h hw hpub rfl
      · cases hstep
    · next task v x b todo hw =>
      cases hstep
      exact ⟨g, WStep.ok_release h hw rfl⟩
    · next task v hw =>
      cases hstep
      exact ⟨g, WStep.ok_proceed h hw, .of_same (fun _ => le_rfl) rfl rfl⟩
    · next hw =>
      split at hstep
      · next hfree =>
        cases hstep
        exact ⟨g, WStep.ok_look h hw hfree, .of_same (le_bump _ _) rfl rfl⟩
      · cases hstep
    · next cur hw =>
      cases hstep
      exact ⟨g, WStep.ok_looked h hw, .of_same (le_bump _ _) rfl rfl⟩
    · next cur child hw =>
      split at hstep
      · cases hstep
        exact WStep.ok_swap h hw
      · cases hstep
        exact ⟨g, h.quiet (by rw [hw]; rfl) rfl (by simp [Writer.held, hw]) trivial,
          .of_same (fun _ => le_rfl) rfl rfl⟩
    · next cur hw =>
      cases hstep
      exact ⟨g, h.quiet (by rw [hw]; rfl) rfl (by simp [Writer.held, hw]) trivial,
        .of_same (fun _ => le_rfl) rfl rfl⟩

theorem memOk_init : MemOk Memory.init freshSpans where
  inv := inv_new
  holds := holds_new
  latched n := by simp [Memory.init, Writer.held]
  pc := trivial
  retired := by simp [Memory.init]
  kinds := by simp [Memory.init, Writer.pending]

/-- Every memory a writer reaches satisfies the invariant. -/
theorem memOk_reachable (h : Relation.ReflTransGen WStep Memory.init s) : ∃ g, MemOk s g :=
  Transition.invariant (P := fun s => ∃ g, MemOk s g) ⟨_, memOk_init⟩
    (fun _ _ ⟨_, ha⟩ hab => (WStep.ok ha hab).imp fun _ hg => hg.1) h

/-- In every run of the writer the odd words are those of the latches it holds, and
between two visits the tree answers as the map. -/
theorem settled_memory_answers (h : Relation.ReflTransGen WStep Memory.init s) :
    (∀ n, s.word n % 2 = 1 ↔ n ∈ s.writer.held) ∧ (s.writer.pending = [] →
      (∀ key, ∃ bound, ∀ fuel, bound ≤ fuel → get fuel s.tree key = some (s.map key)) ∧
        ∀ b, ∃ out bound, RangeSpec s.map b out ∧
          ∀ fuel, bound ≤ fuel → range fuel s.tree b = some out) := by
  obtain ⟨g, hg⟩ := memOk_reachable h
  refine ⟨hg.latched, fun hdone => ?_⟩
  have hstores : Stores s.tree s.map := logical_eq hdone ▸ ⟨g, hg.inv, hg.holds⟩
  exact ⟨hstores.get, hstores.range⟩

/-- Fill the root leaf, split it with a further insert, and latch the root for the next
one. -/
def latchedTurns : List (Option Op) :=
  fillTurns ((List.range 128).map keyAt) [1] ++ opTurns (.insert (keyAt 128) [1]) 12 ++
    opTurns (.insert (keyAt 129) [1]) 3

set_option maxRecDepth 100000 in
theorem latchedTurns_run :
    (writerRun latchedTurns Memory.init).map (fun s =>
      (s.tree.nodes.length, s.writer.held, s.writer.pending.isEmpty, s.map (keyAt 100))) =
        some (3, [1], true, some [1]) := by
  decide +kernel

/-- Behind a split, beside a held latch. -/
theorem settled_memory_answers_latched :
    ∃ s : Memory, Relation.ReflTransGen WStep Memory.init s ∧ s.tree.nodes.length = 3 ∧
      s.word 1 % 2 = 1 ∧ s.word 0 % 2 ≠ 1 ∧
      (∃ bound, ∀ fuel, bound ≤ fuel → get fuel s.tree (keyAt 100) = some (some [1])) ∧
      ∃ out bound, RangeSpec s.map ⟨none, false, none, false⟩ out ∧
        ∀ fuel, bound ≤ fuel → range fuel s.tree ⟨none, false, none, false⟩ = some out := by
  obtain ⟨s, hrun, hs⟩ := Option.map_eq_some_iff.mp latchedTurns_run
  simp only [Prod.mk.injEq, List.isEmpty_iff] at hs
  obtain ⟨hnodes, hheld, hpending, hvalue⟩ := hs
  have h := reaches_of_writerRun hrun
  obtain ⟨hlatched, hanswers⟩ := settled_memory_answers h
  obtain ⟨hget, hrange⟩ := hanswers hpending
  refine ⟨s, h, hnodes, (hlatched 1).mpr (by simp [hheld]), fun hodd => ?_,
    hvalue ▸ hget (keyAt 100), hrange _⟩
  simpa [hheld] using (hlatched 0).mp hodd

end Steps

end HenchDB.BTree
