import HenchDB.BTree.Key

/-!
# Nodes, the node heap and the restructuring of bodies

A node is an `Arc` shared by its parent, its left neighbour and every thread
that holds a clone, so the tree is a heap of bodies addressed by node ids.
Ids are never reused: an evicted node keeps its (emptied) body, as a stale
clone of its `Arc` would see it.

The functions of this module rewrite bodies only.  They are what a writer does
to the private clones under its latches (`split_child_in_place`, `borrow`,
`merge`).  `none` stands for a panic of the source, an index out of bounds or
an `unreachable!` arm.
-/

namespace HenchDB

namespace BTree

/-! ## Bodies -/

/-- Split threshold per node (`MAX_KEYS`). -/
def maxKeys : Nat := 128

/-- Merge threshold (`MIN_KEYS`). -/
def minKeys : Nat := maxKeys / 2

/-- The identity of a node, an `Arc<Node>`. -/
abbrev NodeId := Nat

/-- `NodeBody`: an immutable snapshot of a node. -/
inductive NodeBody where
  | leaf (keys : List Bytes) (heads : List Nat) (vals : List Bytes) (next : Option NodeId)
  | internal (keys : List Bytes) (heads : List Nat) (children : List NodeId)
deriving DecidableEq, Repr

/-- `Node::key_count`, on the current body. -/
def NodeBody.keyCount : NodeBody → Nat
  | .leaf keys _ _ _ => keys.length
  | .internal keys _ _ => keys.length

/-- Keys of a leaf and children of an internal node, the count `fix_child`
compares with `MIN_KEYS`. -/
def NodeBody.fanout : NodeBody → Nat
  | .leaf keys _ _ _ => keys.length
  | .internal _ _ children => children.length

def newLeafWith (keys : List Bytes) (vals : List Bytes) (next : Option NodeId) : NodeBody :=
  .leaf keys (headsFor keys) vals next

def newInternal (keys : List Bytes) (children : List NodeId) : NodeBody :=
  .internal keys (headsFor keys) children

/-! ## Splitting -/

/-- The two halves of a full child in `split_child_in_place`: the separator,
the retained left body and the body of the new right sibling `right`. -/
def splitBody (right : NodeId) : NodeBody → Option (Bytes × NodeBody × NodeBody)
  | .leaf keys heads vals next =>
    let mid := keys.length / 2
    some ((keys.take mid).getLastD [],
      .leaf (keys.take mid) (heads.take mid) (vals.take mid) (some right),
      newLeafWith (keys.drop mid) (vals.drop mid) next)
  | .internal keys heads children =>
    let mid := keys.length / 2
    (keys[mid]?).map fun sep =>
      (sep, .internal (keys.take mid) (heads.take mid) (children.take (mid + 1)),
        newInternal (keys.drop (mid + 1)) (children.drop (mid + 1)))

/-! ## Borrowing -/

/-- `borrow` for leaves when the sibling is the right one: its first entry
appends to the child and becomes the separator. -/
def borrowLeafRight (sep : Nat) (pk : List Bytes) (ph : List Nat) (pc : List NodeId)
    (ck : List Bytes) (ch : List Nat) (cv : List Bytes) (cn : Option NodeId) :
    NodeBody → Option (NodeBody × NodeBody × NodeBody)
  | .leaf (k :: sk) (h :: sh) (v :: sv) sn =>
    some (.internal (pk.set sep k) (ph.set sep h) pc,
      .leaf (ck ++ [k]) (ch ++ [h]) (cv ++ [v]) cn, .leaf sk sh sv sn)
  | _ => none

/-- `borrow` for leaves when the sibling is the left one: its last entry
prepends to the child and its new last key becomes the separator. -/
def borrowLeafLeft (sep : Nat) (pk : List Bytes) (ph : List Nat) (pc : List NodeId)
    (ck : List Bytes) (ch : List Nat) (cv : List Bytes) (cn : Option NodeId) :
    NodeBody → Option (NodeBody × NodeBody × NodeBody)
  | .leaf sk sh sv sn =>
    match sk.getLast?, sh.getLast?, sv.getLast? with
    | some k, some h, some v =>
      some (.internal (pk.set sep (sk.dropLast.getLastD []))
          (ph.set sep (sh.dropLast.getLastD 0)) pc,
        .leaf (k :: ck) (h :: ch) (v :: cv) cn,
        .leaf sk.dropLast sh.dropLast sv.dropLast sn)
    | _, _, _ => none
  | _ => none

/-- `borrow` for internal nodes: the separator moves down into the child, the
sibling's outer key moves up, and the sibling's outer child moves over. -/
def borrowInternal (fromRight : Bool) (sep : Nat) (pk : List Bytes) (ph : List Nat)
    (pc : List NodeId) (ck : List Bytes) (ch : List Nat) (cc : List NodeId) :
    NodeBody → Option (NodeBody × NodeBody × NodeBody)
  | .internal sk sh sc =>
    match pk[sep]?, ph[sep]? with
    | some down, some downH =>
      if fromRight then
        match sk, sh, sc with
        | up :: sk, upH :: sh, mv :: sc =>
          some (.internal (pk.set sep up) (ph.set sep upH) pc,
            .internal (ck ++ [down]) (ch ++ [downH]) (cc ++ [mv]), .internal sk sh sc)
        | _, _, _ => none
      else
        match sk.getLast?, sh.getLast?, sc.getLast? with
        | some up, some upH, some mv =>
          some (.internal (pk.set sep up) (ph.set sep upH) pc,
            .internal (down :: ck) (downH :: ch) (mv :: cc),
            .internal sk.dropLast sh.dropLast sc.dropLast)
        | _, _, _ => none
    | _, _ => none
  | _ => none

/-- `borrow`: the new bodies of parent, child and sibling. -/
def borrow (idx sibIdx : Nat) (p c s : NodeBody) : Option (NodeBody × NodeBody × NodeBody) :=
  let sep := min idx sibIdx
  match p, c with
  | .internal pk ph pc, .leaf ck ch cv cn =>
    if idx < sibIdx then borrowLeafRight sep pk ph pc ck ch cv cn s
    else borrowLeafLeft sep pk ph pc ck ch cv cn s
  | .internal pk ph pc, .internal ck ch cc =>
    borrowInternal (decide (idx < sibIdx)) sep pk ph pc ck ch cc s
  | .leaf .., _ => none

/-! ## Merging -/

/-- Fold the right body into the left one; `sep` is the separator between
them.  The result is the kept left body and the emptied right one. -/
def fuse (sep : Bytes) (sepH : Nat) : NodeBody → NodeBody → Option (NodeBody × NodeBody)
  | .leaf ak ah av _, .leaf bk bh bv bn =>
    some (.leaf (ak ++ bk) (ah ++ bh) (av ++ bv) bn, .leaf [] [] [] none)
  | .internal ak ah ac, .internal bk bh bc =>
    some (.internal (ak ++ sep :: bk) (ah ++ sepH :: bh) (ac ++ bc), .internal [] [] [])
  | _, _ => none

/-- `merge`: the new bodies of parent, child and sibling.  The right one of
child and sibling is folded into the left one and leaves the parent. -/
def merge (idx sibIdx : Nat) (mergeIntoLeft : Bool) (p c s : NodeBody) :
    Option (NodeBody × NodeBody × NodeBody) :=
  let sep := min idx sibIdx
  match p with
  | .internal pk ph pc =>
    match pk[sep]?, ph[sep]? with
    | some k, some h =>
      let p' := .internal (pk.eraseIdx sep) (ph.eraseIdx sep) (pc.eraseIdx (sep + 1))
      if mergeIntoLeft then (fuse k h c s).map fun (c', s') => (p', c', s')
      else (fuse k h s c).map fun (s', c') => (p', c', s')
    | _, _ => none
  | .leaf .. => none

end BTree

/-! ## The tree -/

/-- `BTree`: the node heap, the root pointer and the telemetry counters. -/
structure BTree where
  nodes : List BTree.NodeBody
  root : BTree.NodeId
  splits : Nat
  merges : Nat
  inPlace : Nat
  /-- Live entry count. -/
  entries : Nat
deriving DecidableEq, Repr

namespace BTree

/-- `BTree::new`: a single empty leaf. -/
def new : BTree where
  nodes := [newLeafWith [] [] none]
  root := 0
  splits := 0
  merges := 0
  inPlace := 0
  entries := 0

def body (t : BTree) (n : NodeId) : Option NodeBody := t.nodes[n]?

/-- `Node::key_count` through the heap. -/
def keyCount (t : BTree) (n : NodeId) : Nat := (t.body n).elim 0 NodeBody.keyCount

/-- The root wrapping of `insert` and `upsert`: a fresh internal root over the
old one, which is left untouched. -/
def wrapRoot (t : BTree) : BTree :=
  { t with nodes := t.nodes ++ [newInternal [] [t.root]], root := t.nodes.length,
           splits := t.splits + 1 }

end BTree

end HenchDB
