import HenchDB.BTree.Node

/-!
# Latched visits

A writer reaches the tree one latched visit at a time: it latches a node (and,
when it splits or rebalances, a child and a sibling below it), rewrites
private clones, publishes them as it releases the latches, and goes on with a
child or stops.  `Visit` is what one such visit does, as a function of the
heap it finds.  Running a visit in one step (`BTree.perform`) is the
sequential and the node-atomic reading.  The order of `latched` and
`published` is the order in which the source acquires and releases, which the
concurrent readers' model unfolds into single steps.
-/

namespace HenchDB.BTree

/-- How a visit ends: the operation is done, must restart at the root, or goes
on at a child. -/
inductive Outcome (R : Type) where
  | done (r : R)
  | restart
  | descend (child : NodeId)
deriving DecidableEq, Repr

inductive Restructure where
  | none
  /-- `child` keeps its left half, `right` is the new sibling. -/
  | split (child right : NodeId)
  /-- `giver` hands its first entry to the left sibling `taker`. -/
  | borrowRight (taker giver : NodeId)
  /-- `giver` hands its last entry to the right sibling `taker`. -/
  | borrowLeft (taker giver : NodeId)
  /-- `evicted` is folded into its left sibling `kept`. -/
  | merge (kept evicted : NodeId)
deriving DecidableEq, Repr

structure Visit (R : Type) where
  latched : List NodeId
  fresh : List NodeBody
  published : List (NodeId × NodeBody)
  change : Restructure
  outcome : Outcome R

def publishAll (nodes : List NodeBody) (l : List (NodeId × NodeBody)) : List NodeBody :=
  l.foldl (fun ns p => ns.set p.1 p.2) nodes

/-- The heap after all steps of a visit. -/
def perform {R : Type} (t : BTree) (v : Visit R) : BTree :=
  { t with
    nodes := publishAll (t.nodes ++ v.fresh) v.published
    splits := match v.change with
      | .split .. | .merge .. => t.splits + 1
      | _ => t.splits
    merges := match v.change with
      | .merge .. => t.merges + 1
      | _ => t.merges }

/-- A visit of one node that republishes it as `b`. -/
def single {R : Type} (n : NodeId) (b : NodeBody) (o : Outcome R) : Visit R where
  latched := [n]
  fresh := []
  published := [(n, b)]
  change := .none
  outcome := o

/-! ## Descents -/

/-- The internal arm shared by `insert_rec` and `upsert_rec`: split a full
child under this node's latch, then go on with the child for `key`. -/
def splitDescend {R : Type} (t : BTree) (n : NodeId) (keys : List Bytes) (heads : List Nat)
    (children : List NodeId) (key : Bytes) : Option (Visit R) := do
  let child ← children[lowerBound keys heads key]?
  let cb ← t.body child
  if maxKeys ≤ cb.keyCount then
    let right := t.nodes.length
    let (sep, left, rb) ← splitBody right cb
    let pos := lowerBound keys heads sep
    let keys' := keys.insertIdx pos sep
    let heads' := heads.insertIdx pos (keyHead sep)
    let children' := children.insertIdx (pos + 1) right
    let next ← children'[lowerBound keys' heads' key]?
    some
      { latched := [n, child]
        fresh := [rb]
        published := [(child, left), (n, .internal keys' heads' children')]
        change := .split child right
        outcome := .descend next }
  else
    some (single n (.internal keys heads children) (.descend child))

/-- One visit of `insert_rec`. -/
def insertVisit (key val : Bytes) (t : BTree) (n : NodeId) : Option (Visit Bool) := do
  match ← t.body n with
  | .leaf keys heads vals next =>
    let b := NodeBody.leaf keys heads vals next
    if maxKeys ≤ keys.length then
      some (single n b .restart)
    else if next.isSome ∧ keys ≠ [] ∧ keys.getLastD [] < key then
      some (single n b .restart)
    else
      let idx := lowerBound keys heads key
      if keys[idx]? = some key then
        some (single n b (.done false))
      else
        some (single n (.leaf (keys.insertIdx idx key) (heads.insertIdx idx (keyHead key))
          (vals.insertIdx idx val) next) (.done true))
  | .internal keys heads children => splitDescend t n keys heads children key

/-- One visit of `upsert_rec`. -/
def upsertVisit (key val : Bytes) (t : BTree) (n : NodeId) :
    Option (Visit (Option Bytes)) := do
  match ← t.body n with
  | .leaf keys heads vals next =>
    let b := NodeBody.leaf keys heads vals next
    let idx := lowerBound keys heads key
    if keys[idx]? = some key then
      let prev ← vals[idx]?
      some (single n (.leaf keys heads (vals.set idx val) next) (.done (some prev)))
    else if maxKeys ≤ keys.length then
      some (single n b .restart)
    else if next.isSome ∧ keys ≠ [] ∧ keys.getLastD [] < key then
      some (single n b .restart)
    else
      some (single n (.leaf (keys.insertIdx idx key) (heads.insertIdx idx (keyHead key))
        (vals.insertIdx idx val) next) (.done none))
  | .internal keys heads children => splitDescend t n keys heads children key

/-- One visit of `update_in_place_rec`.  Both arms of its length test leave
the new value in place and return the old one. -/
def updateVisit (key val : Bytes) (t : BTree) (n : NodeId) :
    Option (Visit (Option Bytes)) := do
  match ← t.body n with
  | .leaf keys heads vals next =>
    let idx := lowerBound keys heads key
    if keys[idx]? = some key then
      let prev ← vals[idx]?
      some (single n (.leaf keys heads (vals.set idx val) next) (.done (some prev)))
    else
      some (single n (.leaf keys heads vals next) (.done none))
  | .internal keys heads children =>
    let b := NodeBody.internal keys heads children
    if children = [] then
      some (single n b (.done none))
    else
      let child ← children[lowerBound keys heads key]?
      some (single n b (.descend child))

/-- One visit of `delete_rec`. -/
def deleteVisit (key : Bytes) (t : BTree) (n : NodeId) : Option (Visit (Option Bytes)) := do
  match ← t.body n with
  | .leaf keys heads vals next =>
    let idx := lowerBound keys heads key
    if keys[idx]? = some key then
      let v ← vals[idx]?
      some (single n (.leaf (keys.eraseIdx idx) (heads.eraseIdx idx) (vals.eraseIdx idx) next)
        (.done (some v)))
    else
      some (single n (.leaf keys heads vals next) (.done none))
  | .internal keys heads children =>
    let child ← children[lowerBound keys heads key]?
    some (single n (.internal keys heads children) (.descend child))

/-! ## Fix-up passes -/

/-- The sibling `fix_child` works with, and whether the sibling folds into the
child (the right sibling is preferred). -/
def pickSibling (idx nchildren : Nat) : Nat × Bool :=
  if idx + 1 < nchildren then (idx + 1, true) else (idx - 1, false)

/-- `fix_child`: borrow from a rich sibling, else merge with it.  The outcome
tells whether a merge removed a child. -/
def fixChild (t : BTree) (n : NodeId) (pb : NodeBody) (children : List NodeId) (idx : Nat)
    (child : NodeId) (cb : NodeBody) : Option (Visit Bool) := do
  let (sibIdx, mergeIntoLeft) := pickSibling idx children.length
  let sibling ← children[sibIdx]?
  let sb ← t.body sibling
  if minKeys < sb.fanout then
    let (pb', cb', sb') ← borrow idx sibIdx pb cb sb
    some
      { latched := [n, child, sibling]
        fresh := []
        published := [(child, cb'), (sibling, sb'), (n, pb')]
        change := if mergeIntoLeft then .borrowRight child sibling else .borrowLeft child sibling
        outcome := .done false }
  else
    let (pb', cb', sb') ← merge idx sibIdx mergeIntoLeft pb cb sb
    some
      { latched := [n, child, sibling]
        fresh := []
        published := [(child, cb'), (sibling, sb'), (n, pb')]
        change := if mergeIntoLeft then .merge child sibling else .merge sibling child
        outcome := .done true }

/-- One round of `fix_pass`: look at the child on the path of `key` and either
go on below it or fix it. -/
def fixVisit (key : Bytes) (t : BTree) (n : NodeId) : Option (Visit Bool) := do
  match ← t.body n with
  | .leaf keys heads vals next => some (single n (.leaf keys heads vals next) (.done false))
  | .internal keys heads children =>
    let pb := NodeBody.internal keys heads children
    if children.length ≤ 1 then
      some (single n pb (.done false))
    else
      let idx := min (lowerBound keys heads key) (children.length - 1)
      let child ← children[idx]?
      let cb ← t.body child
      if cb.fanout < minKeys then
        fixChild t n pb children idx child cb
      else
        match cb with
        | .leaf .. =>
          some
            { latched := [n, child]
              fresh := []
              published := [(child, cb), (n, pb)]
              change := .none
              outcome := .done false }
        | .internal .. =>
          some
            { latched := [n, child]
              fresh := []
              published := [(n, pb), (child, cb)]
              change := .none
              outcome := .descend child }

/-! ## Root collapse -/

/-- The child of a single-child internal root, read under its latch in
`collapse_root`. -/
def singleChild : NodeBody → Option NodeId
  | .internal _ _ [c] => some c
  | _ => none

/-- The root swap of `collapse_root`. -/
def collapseTo (t : BTree) (child : NodeId) : BTree :=
  { t with root := child, splits := t.splits + 1 }

end HenchDB.BTree
