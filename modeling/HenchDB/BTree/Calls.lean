import HenchDB.Lib.Transition
import HenchDB.BTree.Beyond

/-!
# Concurrent calls

Any number of calls of the four writing operations on one tree.  A step of a
call is one latched visit of a node, one access to the root pointer under its
mutex, or one acquisition of the fix-up mutex.  `remove` goes through the
fix-up passes and the collapse of the root before it returns.

A call releases a node before it latches the child, so it holds the pointer of
the child unprotected.  `Spares` is the condition that no other call takes
away from such a node what the holder relies on.  `insert` and `upsert` detect
a split themselves and only need the lower part of the node.
-/

namespace HenchDB.BTree

/-! ## States and steps -/

inductive CallPc where
  /-- At the head of the loop of `insert` or `upsert`. -/
  | retry
  /-- About to count the keys of the cloned root. -/
  | counting (n : NodeId)
  /-- About to take the root mutex and wrap a full root. -/
  | wrapping
  /-- About to clone the root pointer for a descent. -/
  | rooting
  | visiting (n : NodeId)
  /-- About to take the fix-up mutex for a pass. -/
  | fixing (r : OpResult)
  | fixRooting (r : OpResult)
  | fixVisiting (r : OpResult) (n : NodeId)
  /-- About to take the fix-up mutex for `collapse_root`. -/
  | collapsing (r : OpResult)
  | collapseRooting (r : OpResult)
  | looking (r : OpResult) (cur : NodeId)
  | swapping (r : OpResult) (cur : NodeId) (single : Option NodeId)
  | returned (r : OpResult)
deriving DecidableEq

structure Calls where
  tree : BTree
  /-- The call that holds the fix-up mutex. -/
  fixer : Option Nat
  calls : List (Op × CallPc)
  /-- The roots that `collapse_root` has swapped out. -/
  retired : List NodeId
  /-- The finished descents, in the order of their last visits. -/
  order : List (Op × OpResult)

def CallPc.start : Op → CallPc
  | .insert .. | .upsert .. => .retry
  | .updateInPlace .. | .remove _ => .rooting

def Calls.start (t : BTree) (ops : List Op) : Calls where
  tree := t
  fixer := none
  calls := ops.map fun op => (op, .start op)
  retired := []
  order := []

/-- Where a call goes after its descent: only a successful `remove` has more to
do. -/
def CallPc.after : Op → OpResult → CallPc
  | .remove _, .previous (some v) => .fixing (.previous (some v))
  | _, r => .returned r

def Calls.goto (s : Calls) (i : Nat) (op : Op) (pc : CallPc) : Calls :=
  { s with calls := s.calls.set i (op, pc) }

/-- One step of the call `i`.  `none` while it waits for the mutex, and at the
end. -/
def callStep (s : Calls) (i : Nat) : Option Calls := do
  let (op, pc) ← s.calls[i]?
  match pc with
  | .retry => some (s.goto i op (.counting s.tree.root))
  | .counting n =>
    if maxKeys ≤ s.tree.keyCount n then some (s.goto i op .wrapping)
    else some (s.goto i op .rooting)
  | .wrapping =>
    if maxKeys ≤ s.tree.keyCount s.tree.root then
      some ({ s with tree := s.tree.wrapRoot }.goto i op .retry)
    else some (s.goto i op .rooting)
  | .rooting => some (s.goto i op (.visiting s.tree.root))
  | .visiting n =>
    let v ← (Task.op op).visit s.tree n
    match v.outcome with
    | .descend c => some ({ s with tree := s.tree.perform v }.goto i op (.visiting c))
    | .restart => some ({ s with tree := s.tree.perform v }.goto i op .retry)
    | .done (.returned r) =>
      some ({ s with tree := s.tree.perform v, order := s.order ++ [(op, r)] }.goto i op
        (.after op r))
    | .done (.fixed _) => none
  | .fixing r =>
    if s.fixer = none then some ({ s with fixer := some i }.goto i op (.fixRooting r)) else none
  | .fixRooting r => some (s.goto i op (.fixVisiting r s.tree.root))
  | .fixVisiting r n =>
    let v ← (Task.fix op.key).visit s.tree n
    match v.outcome with
    | .descend c => some ({ s with tree := s.tree.perform v }.goto i op (.fixVisiting r c))
    | .done (.fixed true) =>
      some ({ s with tree := s.tree.perform v, fixer := none }.goto i op (.fixing r))
    | .done (.fixed false) =>
      some ({ s with tree := s.tree.perform v, fixer := none }.goto i op (.collapsing r))
    | _ => none
  | .collapsing r =>
    if s.fixer = none then some ({ s with fixer := some i }.goto i op (.collapseRooting r))
    else none
  | .collapseRooting r => some (s.goto i op (.looking r s.tree.root))
  | .looking r cur => some (s.goto i op (.swapping r cur ((s.tree.body cur).bind singleChild)))
  | .swapping r cur (some child) =>
    if s.tree.root = cur then
      some ({ s with tree := s.tree.collapseTo child, retired := cur :: s.retired }.goto i op
        (.collapseRooting r))
    else some ({ s with fixer := none }.goto i op (.returned r))
  | .swapping r _ none => some ({ s with fixer := none }.goto i op (.returned r))
  | .returned _ => none

def CallStep (s s' : Calls) : Prop := ∃ i, callStep s i = some s'

/-! ## The condition -/

/-- The search for the key passes the node on its way from the root. -/
inductive OnPath (t : BTree) (key : Bytes) : NodeId → Prop where
  | root : OnPath t key t.root
  | child {n c : NodeId} {keys : List Bytes} {heads : List Nat} {children : List NodeId} :
      OnPath t key n → t.body n = some (.internal keys heads children) →
      children[lowerBound keys heads key]? = some c → OnPath t key c

/-- What the next step of the call `i` restructures. -/
def Calls.change (s : Calls) (i : Nat) : Restructure :=
  match s.calls[i]? with
  | some (op, .visiting n) => (((Task.op op).visit s.tree n).map Visit.change).getD .none
  | some (op, .fixVisiting _ n) =>
    (((Task.fix op.key).visit s.tree n).map Visit.change).getD .none
  | _ => .none

/-- The next step of the call `i` spares the others, and is not itself aside of
the tree. -/
structure Calls.Spares (s : Calls) (i : Nat) : Prop where
  /-- No node that another descent holds is emptied or gives away its first
  entry. -/
  lost : ∀ j op n, j ≠ i → s.calls[j]? = some (op, .visiting n) →
    ∀ x, ExposedAt s.tree s.retired n x → x ∉ (s.change i).lost
  /-- No node that a descent of `update_in_place` or `remove` holds loses keys. -/
  shrunk : ∀ j op n, j ≠ i → s.calls[j]? = some (op, .visiting n) → op.restarts = false →
    ∀ x, ExposedAt s.tree s.retired n x → x ∉ (s.change i).shrunk
  /-- No child is split below a swapped-out root. -/
  attached : ∀ op n, s.calls[i]? = some (op, .visiting n) → n ∈ s.retired → s.change i = .none
  onPath : ∀ op n z, s.calls[i]? = some (op, .visiting n) → op.restarts = true →
    s.tree.body n = some (leafBody [] (some z)) → OnPath s.tree op.key n
  single : ∀ op r child, s.calls[i]? = some (op, .swapping r s.tree.root (some child)) →
    (s.tree.body s.tree.root).bind singleChild = some child

def SparingCallStep (s s' : Calls) : Prop := ∃ i, s.Spares i ∧ callStep s i = some s'

/-! ## Results -/

def CallPc.result : CallPc → Option OpResult
  | .retry | .counting _ | .wrapping | .rooting | .visiting _ => none
  | .fixing r | .fixRooting r | .fixVisiting r _ | .collapsing r | .collapseRooting r
  | .looking r _ | .swapping r _ _ | .returned r => some r

/-- The calls whose descent is finished, with their results. -/
def Calls.results (s : Calls) : List (Op × OpResult) :=
  s.calls.filterMap fun c => c.2.result.map fun r => (c.1, r)

def Calls.AllReturned (s : Calls) : Prop := ∀ c ∈ s.calls, ∃ r, c.2 = .returned r

end HenchDB.BTree
