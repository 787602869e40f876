import HenchDB.BTree.Visit

/-!
# Sequential operations

The operations of `BTree` run alone: a descent repeats visits until one is
done or asks for a restart, and the retry loops of `insert` and `upsert`
repeat descents.  Loops run on fuel.  `none` means that the operation has not
returned within the fuel (or panicked), so an operation returns exactly when
some fuel gives `some`.
-/

namespace HenchDB.BTree

/-! ## Writers -/

/-- Repeat visits from `n` downwards.  The inner `none` is a restart. -/
def descendFrom {R : Type} (visit : BTree → NodeId → Option (Visit R)) :
    Nat → BTree → NodeId → Option (BTree × Option R)
  | 0, _, _ => none
  | fuel + 1, t, n => do
    let v ← visit t n
    let t' := t.perform v
    match v.outcome with
    | .done r => some (t', some r)
    | .restart => some (t', none)
    | .descend child => descendFrom visit fuel t' child

def insertRec (fuel : Nat) (t : BTree) (n : NodeId) (key val : Bytes) :
    Option (BTree × Option Bool) :=
  descendFrom (insertVisit key val) fuel t n

def upsertRec (fuel : Nat) (t : BTree) (n : NodeId) (key val : Bytes) :
    Option (BTree × Option (Option Bytes)) :=
  descendFrom (upsertVisit key val) fuel t n

def updateInPlaceRec (fuel : Nat) (t : BTree) (n : NodeId) (key val : Bytes) :
    Option (BTree × Option (Option Bytes)) :=
  descendFrom (updateVisit key val) fuel t n

def deleteRec (fuel : Nat) (t : BTree) (n : NodeId) (key : Bytes) :
    Option (BTree × Option (Option Bytes)) :=
  descendFrom (deleteVisit key) fuel t n

/-- The retry loop of `insert` and `upsert`: wrap a full root, descend, and
start over when the descent restarts.  `count` updates the entry counter. -/
def retryLoop {R : Type} (recur : Nat → BTree → NodeId → Option (BTree × Option R))
    (count : R → BTree → BTree) : Nat → BTree → Option (BTree × R)
  | 0, _ => none
  | fuel + 1, t =>
    if maxKeys ≤ t.keyCount t.root then
      retryLoop recur count fuel t.wrapRoot
    else do
      let (t', o) ← recur fuel t t.root
      match o with
      | some r => some (count r t', r)
      | none => retryLoop recur count fuel t'

/-- `BTree::insert` -/
def insert (fuel : Nat) (t : BTree) (key val : Bytes) : Option (BTree × Bool) :=
  retryLoop (fun fuel t n => insertRec fuel t n key val)
    (fun inserted t => if inserted then { t with entries := t.entries + 1 } else t) fuel t

/-- `BTree::upsert` -/
def upsert (fuel : Nat) (t : BTree) (key val : Bytes) : Option (BTree × Option Bytes) :=
  retryLoop (fun fuel t n => upsertRec fuel t n key val)
    (fun prev t => if prev.isNone then { t with entries := t.entries + 1 } else t) fuel t

/-- `BTree::update_in_place` -/
def updateInPlace (fuel : Nat) (t : BTree) (key val : Bytes) : Option (BTree × Option Bytes) := do
  let (t', o) ← updateInPlaceRec fuel t t.root key val
  let prev ← o
  some (if prev.isSome then { t' with inPlace := t'.inPlace + 1 } else t', prev)

/-- `BTree::fix_pass`: true when a merge removed a child. -/
def fixPass (fuel : Nat) (t : BTree) (key : Bytes) : Option (BTree × Option Bool) :=
  descendFrom (fixVisit key) fuel t t.root

/-- `while self.fix_pass(key) {}` -/
def fixLoop (key : Bytes) : Nat → BTree → Option BTree
  | 0, _ => none
  | fuel + 1, t => do
    let (t', merged) ← fixPass fuel t key
    if merged = some true then fixLoop key fuel t' else some t'

/-- `BTree::collapse_root` -/
def collapseRoot : Nat → BTree → Option BTree
  | 0, _ => none
  | fuel + 1, t =>
    match (t.body t.root).bind singleChild with
    | some child => collapseRoot fuel (t.collapseTo child)
    | none => some t

/-- `BTree::remove` -/
def remove (fuel : Nat) (t : BTree) (key : Bytes) : Option (BTree × Option Bytes) := do
  let (t1, o) ← deleteRec fuel t t.root key
  match ← o with
  | none => some (t1, none)
  | some v =>
    let t2 ← fixLoop key fuel { t1 with entries := t1.entries - 1 }
    let t3 ← collapseRoot fuel t2
    some (t3, some v)

/-! ## Readers -/

/-- What `get` does with the body of one node. -/
def getNode (key : Bytes) : NodeBody → Option (Outcome (Option Bytes))
  | .leaf keys heads vals _ =>
    let idx := lowerBound keys heads key
    let n := min keys.length vals.length
    some (.done (if idx < n ∧ keys[idx]? = some key then vals[idx]? else none))
  | .internal keys heads children =>
    if children = [] then none  -- `children.len() - 1` underflows
    else
      (children[min (lowerBound keys heads key) (children.length - 1)]?).map .descend

/-- The descent of `get` from a node. -/
def getFrom (t : BTree) (key : Bytes) : Nat → NodeId → Option (Option Bytes)
  | 0, _ => none
  | fuel + 1, n => do
    match ← getNode key (← t.body n) with
    | .done r => some r
    | .descend child => getFrom t key fuel child
    | .restart => none

/-- `BTree::get` -/
def get (fuel : Nat) (t : BTree) (key : Bytes) : Option (Option Bytes) :=
  getFrom t key fuel t.root

structure Bounds where
  start : Option Bytes
  startIncl : Bool
  stop : Option Bytes
  stopIncl : Bool
deriving DecidableEq, Repr

/-- The key is before the start bound and is skipped. -/
def Bounds.before (b : Bounds) (k : Bytes) : Bool :=
  match b.start with
  | some lo => k < lo ∨ (k = lo ∧ b.startIncl = false)
  | none => false

/-- The key is past the end bound and ends the scan. -/
def Bounds.past (b : Bounds) (k : Bytes) : Bool :=
  match b.stop with
  | some hi => hi < k ∨ (k = hi ∧ b.stopIncl = false)
  | none => false

/-- What the descent of `range` does with the body of one node. -/
def rangeNode (b : Bounds) : NodeBody → Option (Outcome Unit)
  | .leaf .. => some (.done ())
  | .internal keys heads children =>
    if children = [] then none
    else
      let idx := match b.start with
        | some k => lowerBound keys heads k
        | none => 0
      (children[min idx (children.length - 1)]?).map .descend

/-- The last emitted key and the entries emitted so far. -/
structure ScanAcc where
  lastKey : Option Bytes
  out : List (Bytes × Bytes)
deriving DecidableEq, Repr

/-- The loop over the entries of one leaf.  `true` is the early return at the
end bound. -/
def scanEntries (b : Bounds) : List (Bytes × Bytes) → ScanAcc → ScanAcc × Bool
  | [], acc => (acc, false)
  | (k, v) :: rest, acc =>
    if acc.lastKey.any (k ≤ ·) then scanEntries b rest acc
    else if b.before k then scanEntries b rest acc
    else if b.past k then (acc, true)
    else scanEntries b rest ⟨some k, acc.out ++ [(k, v)]⟩

/-- What the leaf walk of `range` does with the body of one node: the new
accumulator and the next leaf, if the scan goes on. -/
def scanNode (b : Bounds) (acc : ScanAcc) : NodeBody → ScanAcc × Option NodeId
  | .leaf keys _ vals next =>
    match scanEntries b (keys.zip vals) acc with
    | (acc', true) => (acc', none)
    | (acc', false) => (acc', next)
  | .internal .. => (acc, none)

/-- The descent of `range` to the first leaf. -/
def rangeFrom (t : BTree) (b : Bounds) : Nat → NodeId → Option NodeId
  | 0, _ => none
  | fuel + 1, n => do
    match ← rangeNode b (← t.body n) with
    | .done _ => some n
    | .descend child => rangeFrom t b fuel child
    | .restart => none

/-- The leaf walk of `range`. -/
def scanFrom (t : BTree) (b : Bounds) : Nat → NodeId → ScanAcc → Option (List (Bytes × Bytes))
  | 0, _, _ => none
  | fuel + 1, n, acc => do
    match scanNode b acc (← t.body n) with
    | (acc', some next) => scanFrom t b fuel next acc'
    | (acc', none) => some acc'.out

/-- `BTree::range` -/
def range (fuel : Nat) (t : BTree) (b : Bounds) : Option (List (Bytes × Bytes)) := do
  let leaf ← rangeFrom t b fuel t.root
  scanFrom t b fuel leaf ⟨none, []⟩

/-! ## Operations as data -/

/-- The four writing operations. -/
inductive Op where
  | insert (key val : Bytes)
  | upsert (key val : Bytes)
  | updateInPlace (key val : Bytes)
  | remove (key : Bytes)
deriving DecidableEq, Repr

def Op.key : Op → Bytes
  | .insert k _ | .upsert k _ | .updateInPlace k _ | .remove k => k

/-- What an operation returns. -/
inductive OpResult where
  | inserted (b : Bool)
  | previous (v : Option Bytes)
deriving DecidableEq, Repr

/-- Run one operation. -/
def apply (fuel : Nat) (t : BTree) : Op → Option (BTree × OpResult)
  | .insert k v => (insert fuel t k v).map fun (t, b) => (t, .inserted b)
  | .upsert k v => (upsert fuel t k v).map fun (t, p) => (t, .previous p)
  | .updateInPlace k v => (updateInPlace fuel t k v).map fun (t, p) => (t, .previous p)
  | .remove k => (remove fuel t k).map fun (t, p) => (t, .previous p)

/-- The operation returns `r` and leaves `t'`. -/
def Returns (t : BTree) (op : Op) (t' : BTree) (r : OpResult) : Prop :=
  ∃ fuel, t.apply fuel op = some (t', r)

/-- What holds of the four calls holds of an operation that returns. -/
theorem Returns.elim {P : Op → OpResult → Prop} {t t' : BTree} {op : Op} {r : OpResult}
    (h : Returns t op t' r)
    (insert : ∀ {fuel k v b}, insert fuel t k v = some (t', b) → P (.insert k v) (.inserted b))
    (upsert : ∀ {fuel k v p}, upsert fuel t k v = some (t', p) → P (.upsert k v) (.previous p))
    (update : ∀ {fuel k v p}, updateInPlace fuel t k v = some (t', p) →
      P (.updateInPlace k v) (.previous p))
    (remove : ∀ {fuel k p}, remove fuel t k = some (t', p) → P (.remove k) (.previous p)) :
    P op r := by
  obtain ⟨fuel, hop⟩ := h
  cases op with
  | insert k v =>
    obtain ⟨⟨t1, b⟩, hcall, heq⟩ := Option.map_eq_some_iff.mp hop
    cases heq
    exact insert hcall
  | upsert k v =>
    obtain ⟨⟨t1, p⟩, hcall, heq⟩ := Option.map_eq_some_iff.mp hop
    cases heq
    exact upsert hcall
  | updateInPlace k v =>
    obtain ⟨⟨t1, p⟩, hcall, heq⟩ := Option.map_eq_some_iff.mp hop
    cases heq
    exact update hcall
  | remove k =>
    obtain ⟨⟨t1, p⟩, hcall, heq⟩ := Option.map_eq_some_iff.mp hop
    cases heq
    exact remove hcall

/-- A removal descends, and what it finds it takes off the count before the passes
that fix the tree up. -/
theorem remove_cases {fuel : Nat} {t t' : BTree} {key : Bytes} {r : Option Bytes}
    (h : remove fuel t key = some (t', r)) :
    deleteRec fuel t t.root key = some (t', some none) ∧ r = none ∨
      ∃ v t1 t2, deleteRec fuel t t.root key = some (t1, some (some v)) ∧
        r = some v ∧ fixLoop key fuel { t1 with entries := t1.entries - 1 } = some t2 ∧
        collapseRoot fuel t2 = some t' := by
  rw [remove, Option.bind_eq_bind] at h
  obtain ⟨⟨t1, o⟩, hd, h⟩ := Option.bind_eq_some_iff.mp h
  cases o with
  | none => simp at h
  | some prev =>
    cases prev with
    | none =>
      cases h
      exact .inl ⟨hd, rfl⟩
    | some v =>
      simp only [Option.bind_eq_bind, Option.bind_some] at h
      obtain ⟨t2, hfix, h⟩ := Option.bind_eq_some_iff.mp h
      obtain ⟨t3, hcol, h⟩ := Option.bind_eq_some_iff.mp h
      cases h
      exact .inr ⟨v, t1, t2, hd, rfl, hfix, hcol⟩

/-- A history of operations that all returned, run one after another. -/
inductive Run : BTree → List (Op × OpResult) → BTree → Prop where
  | nil (t : BTree) : Run t [] t
  | snoc {t t' t'' : BTree} {l : List (Op × OpResult)} {op : Op} {r : OpResult} :
      Run t l t' → Returns t' op t'' r → Run t (l ++ [(op, r)]) t''

def keyAt (i : Nat) : Bytes := [UInt8.ofNat (i / 256), UInt8.ofNat i]

def runOps (fuel : Nat) : BTree → List Op → Option (BTree × List (Op × OpResult))
  | t, [] => some (t, [])
  | t, op :: ops => do
    let (t', r) ← t.apply fuel op
    let (t'', l) ← runOps fuel t' ops
    some (t'', (op, r) :: l)

theorem Run.cons {t t' t'' : BTree} {l : List (Op × OpResult)} {op : Op} {r : OpResult}
    (hret : Returns t op t' r) (h : Run t' l t'') : Run t ((op, r) :: l) t'' := by
  induction h with
  | nil => exact .snoc (l := []) (.nil t) hret
  | snoc _ hret' ih => exact .snoc (l := _ :: _) ih hret'

/-- What `runOps` computes is a history. -/
theorem run_of_runOps {fuel : Nat} : ∀ {ops : List Op} {t t' : BTree} {l : List (Op × OpResult)},
    runOps fuel t ops = some (t', l) → Run t l t'
  | [], t, t', l, h => by
    simp only [runOps, Option.some.injEq, Prod.mk.injEq] at h
    obtain ⟨rfl, rfl⟩ := h
    exact .nil t
  | op :: ops, t, t', l, h => by
    rw [runOps, Option.bind_eq_bind] at h
    obtain ⟨⟨t1, r⟩, hop, h⟩ := Option.bind_eq_some_iff.mp h
    obtain ⟨⟨t2, l'⟩, hops, h⟩ := Option.bind_eq_some_iff.mp h
    cases h
    exact Run.cons ⟨fuel, hop⟩ (run_of_runOps hops)

end HenchDB.BTree
