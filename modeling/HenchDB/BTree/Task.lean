import HenchDB.BTree.Range

/-!
# Tasks

The descents a writer makes, with one type of answers: the descent of one of
the four operations, and the fix-up pass that follows a removal.  Both models
of concurrent writers run tasks, one latch at a time or one visit at a time.
-/

namespace HenchDB.BTree

inductive Answer where
  | returned (r : OpResult)
  | fixed (merged : Bool)
deriving DecidableEq, Repr

def Outcome.map {R S : Type} (f : R → S) : Outcome R → Outcome S
  | .done r => .done (f r)
  | .restart => .restart
  | .descend c => .descend c

def Visit.map {R S : Type} (f : R → S) (v : Visit R) : Visit S where
  latched := v.latched
  fresh := v.fresh
  published := v.published
  change := v.change
  outcome := v.outcome.map f

/-- A descent. -/
inductive Task where
  | op (o : Op)
  | fix (key : Bytes)
deriving DecidableEq, Repr

def Task.key : Task → Bytes
  | .op o => o.key
  | .fix key => key

def Task.visit (t : BTree) (n : NodeId) : Task → Option (Visit Answer)
  | .op (.insert k v) => (insertVisit k v t n).map (Visit.map fun r => .returned (.inserted r))
  | .op (.upsert k v) => (upsertVisit k v t n).map (Visit.map fun r => .returned (.previous r))
  | .op (.updateInPlace k v) =>
    (updateVisit k v t n).map (Visit.map fun r => .returned (.previous r))
  | .op (.remove k) => (deleteVisit k t n).map (Visit.map fun r => .returned (.previous r))
  | .fix key => (fixVisit key t n).map (Visit.map .fixed)

def Task.mapAfter (m : Contents) : Task → Outcome Answer → Contents
  | .op o, .done (.returned _) => (o.onMap m).2
  | _, _ => m

def Task.Answers (m : Contents) : Task → Answer → Prop
  | .op o, .returned r => r = (o.onMap m).1
  | .fix _, .fixed _ => True
  | _, _ => False

variable {R : Type} {t : BTree} {g : Spans}

theorem perform_map {S : Type} {f : R → S} {v : Visit R} :
    t.perform (v.map f) = t.perform v := rfl

theorem VisitOk.map {S : Type} {f : R → S} {g' : Spans} {v : Visit R} (h : VisitOk t g v g') :
    VisitOk t g (v.map f) g' :=
  ⟨h.inv, h.frame, h.live, h.nodup, h.released, h.moved, h.parents, h.kinds⟩

structure TaskVisit (t : BTree) (g : Spans) (m : Contents) (task : Task) (level : Nat)
    (v : Visit Answer) (g' : Spans) : Prop where
  ok : VisitOk t g v g'
  holds : Holds (t.perform v) g' (task.mapAfter m v.outcome)
  answers : ∀ a, v.outcome = .done a → task.Answers m a
  descends : ∀ c, v.outcome = .descend c → ∃ sc, g' c = some sc ∧ sc.level < level ∧
    sc.Covers task.key

/-- Read the specification of one operation's visits as one of tasks. -/
theorem VisitSpec.task {visit : BTree → NodeId → Option (Visit R)} {key : Bytes}
    {post : Contents → R → Contents → Prop} (hspec : VisitSpec visit key post) (task : Task)
    {f : R → Answer} (hkey : task.key = key)
    (hpost : ∀ m r m', post m r m' → task.Answers m (f r) ∧ m' = task.mapAfter m (.done (f r)))
    {m : Contents} {n : NodeId} {s : Span} {v : Visit Answer} (h : Inv t g) (hm : Holds t g m)
    (hn : g n = some s) (hk : s.Covers task.key) (hv : (visit t n).map (Visit.map f) = some v) :
    ∃ g', TaskVisit t g m task s.level v g' := by
  obtain ⟨v, hvisit, rfl⟩ := Option.map_eq_some_iff.mp hv
  subst hkey
  obtain ⟨g', hok, hout⟩ := hspec h hm hn hk hvisit
  refine ⟨g', hok.map, ?_, fun a ha => ?_, fun c hc => ?_⟩
  · cases ho : v.outcome with
    | done r =>
      rw [ho] at hout
      obtain ⟨m', hp, hholds⟩ := hout
      rw [perform_map, Visit.map, ho, Outcome.map, ← (hpost m r m' hp).2]
      exact hholds
    | restart =>
      rw [ho] at hout
      rw [perform_map, Visit.map, ho, Outcome.map]
      cases task <;> exact hout
    | descend c =>
      rw [ho] at hout
      rw [perform_map, Visit.map, ho, Outcome.map]
      cases task <;> exact hout.1
  · cases ho : v.outcome with
    | done r =>
      rw [ho] at hout
      obtain ⟨m', hp, -⟩ := hout
      simp only [Visit.map, ho, Outcome.map, Outcome.done.injEq] at ha
      exact ha ▸ (hpost m r m' hp).1
    | restart => simp [Visit.map, ho, Outcome.map] at ha
    | descend c => simp [Visit.map, ho, Outcome.map] at ha
  · cases ho : v.outcome with
    | done r => simp [Visit.map, ho, Outcome.map] at hc
    | restart => simp [Visit.map, ho, Outcome.map] at hc
    | descend c' =>
      rw [ho] at hout
      simp only [Visit.map, ho, Outcome.map, Outcome.descend.injEq] at hc
      exact hc ▸ hout.2

theorem Task.visit_spec {m : Contents} {n : NodeId} {s : Span} {task : Task} {v : Visit Answer}
    (h : Inv t g) (hm : Holds t g m) (hn : g n = some s) (hk : s.Covers task.key)
    (hv : task.visit t n = some v) :
    ∃ g', TaskVisit t g m task s.level v g' := by
  cases task with
  | op o =>
    cases o with
    | insert k x =>
      refine insertVisit_spec.task (.op (.insert k x)) rfl ?_ h hm hn hk hv
      rintro m r m' ⟨rfl, rfl⟩
      exact ⟨rfl, rfl⟩
    | upsert k x =>
      refine upsertVisit_spec.task (.op (.upsert k x)) rfl ?_ h hm hn hk hv
      rintro m r m' ⟨rfl, rfl⟩
      exact ⟨rfl, rfl⟩
    | updateInPlace k x =>
      refine updateVisit_spec.task (.op (.updateInPlace k x)) rfl ?_ h hm hn hk hv
      rintro m r m' ⟨rfl, rfl⟩
      exact ⟨rfl, rfl⟩
    | remove k =>
      refine deleteVisit_spec.task (.op (.remove k)) rfl ?_ h hm hn hk hv
      rintro m r m' ⟨rfl, rfl⟩
      exact ⟨rfl, rfl⟩
  | fix key =>
    refine fixVisit_spec.task (.fix key) rfl ?_ h hm hn hk hv
    rintro m r m' rfl
    exact ⟨trivial, rfl⟩

end HenchDB.BTree
