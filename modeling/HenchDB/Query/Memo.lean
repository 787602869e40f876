import HenchDB.Query.Plan

/-!
# The memo of the optimizer

A memo has groups of operators that stand for one relation; an operator names
its inputs by their groups.  The rules add operators to a group and groups to
the memo, and look an operator up before they add it, so groups are shared.

The search costs the physical operators of a group and keeps the best one;
`extractBestPlan` follows the best ones down from the root.

Numbers are floats as in the source; what the statistics say of a predicate and
how expressions are compared is left open.
-/

namespace HenchDB.Optimizer

open Query (AccessPath accessPath)

/-! ## Operators and groups -/

abbrev GroupId := Nat

/-- `LogicalOp`, without the projection that no memo gets. -/
inductive LogicalOp where
  | scan (tableIdx : Nat) (tableName : String)
  | filter (input : GroupId) (predicate : Expr)
  | join (left right : GroupId) (on : Option Expr) (kind : JoinKind)
  | aggregate (input : GroupId) (groupBy : List String) (aggs : List SelectItem)

def LogicalOp.children : LogicalOp → List GroupId
  | .scan _ _ => []
  | .filter input _ | .aggregate input _ _ => [input]
  | .join left right _ _ => [left, right]

inductive JoinBuildSide where
  | left
  | right

inductive PhysicalOp where
  | tableScan (tableIdx : Nat)
  | indexScan (tableIdx : Nat) (path : AccessPath)
  | batchScan (tableIdx : Nat) (pushedFilter : Option Expr)
  | hashJoin (left right : GroupId) (equiKeys : Nat × Nat) (kind : JoinKind) (buildSide : JoinBuildSide)
  | nestedLoopJoin (left right : GroupId) (on : Option Expr) (kind : JoinKind)
  | batchAggregate (input : GroupId) (groupBy : List String) (aggs : List SelectItem)
  | scalarAggregate (input : GroupId) (groupBy : List String) (aggs : List SelectItem)

def PhysicalOp.children : PhysicalOp → List GroupId
  | .tableScan _ | .indexScan _ _ | .batchScan _ _ => []
  | .hashJoin left right _ _ _ | .nestedLoopJoin left right _ _ => [left, right]
  | .batchAggregate input _ _ | .scalarAggregate input _ _ => [input]

structure LogicalProperties where
  tables : List Nat
  estRows : Float
  outputColumns : List String
deriving Inhabited

structure PhysicalMember where
  op : PhysicalOp
  selfCost : Float
  totalCost : Float

structure BestPlan where
  physicalIdx : Nat
  totalCost : Float

structure Group where
  logicalExprs : List LogicalOp
  physicalExprs : List PhysicalMember
  props : LogicalProperties
  bestPlan : Option BestPlan
  explored : Bool
deriving Inhabited

structure TableMeta where
  table : Table
  name : String
  totalRows : Float
  /-- The rows are those of a subquery. -/
  ephemeral : Bool

/-- The derived equalities; those of expressions compare floats as numbers. -/
structure Equality where
  expr : Expr → Expr → Bool
  items : List SelectItem → List SelectItem → Bool
  physical : PhysicalOp → PhysicalOp → Bool

/-- `OptimizerContext`. -/
structure Context where
  tables : List TableMeta
  same : Equality
  selectivity : TableMeta → Expr → Float

def Context.tableIdx (ctx : Context) (name : String) : Option Nat :=
  ctx.tables.findIdx? fun t =>
    match splitOnce name with
    | some (tn, _) => t.name = tn || t.table.info.name = tn || t.table.info.name.endsWith ("." ++ tn)
    | none => t.name = name || t.table.info.name = name || (t.table.schema.indexOf name).isSome

def LogicalOp.eq (same : Equality) : LogicalOp → LogicalOp → Bool
  | .scan i n, .scan i' n' => i = i' && n = n'
  | .filter i p, .filter i' p' => i = i' && same.expr p p'
  | .join l r on k, .join l' r' on' k' =>
    l = l' && r = r' && k = k' &&
      match on, on' with
      | none, none => true
      | some e, some e' => same.expr e e'
      | _, _ => false
  | .aggregate i g a, .aggregate i' g' a' => i = i' && g = g' && same.items a a'
  | _, _ => false

structure Memo where
  groups : List Group
  exprToGroup : List (LogicalOp × GroupId)

/-- `{func:?}`. -/
def debugFunc : AggFunc → String
  | .sum => "Sum"
  | .avg => "Avg"
  | .min => "Min"
  | .max => "Max"

/-- `f64::max`, which drops a NaN. -/
def floatMax (x y : Float) : Float := if y ≤ x then x else if y.isNaN then x else y

namespace Memo

variable (m : Memo) (ctx : Context) (g : GroupId)

def group : Group := m.groups.getD g default

/-- A change of one group. -/
def modify (f : Group → Group) : Memo := { m with groups := m.groups.modify g f }

def deriveLogicalProps : LogicalOp → LogicalProperties
  | .scan i _ =>
    let tm := ctx.tables[i]?
    ⟨[i], (tm.map TableMeta.totalRows).getD 0,
      (tm.map fun tm => tm.table.schema.columns.map ColumnDef.name).getD []⟩
  | .filter input predicate =>
    let inProps := (m.group input).props
    let sel :=
      match inProps.tables with
      | [ti] => (ctx.tables[ti]?.map fun tm => ctx.selectivity tm predicate).getD 0.2
      | _ => 0.2
    ⟨inProps.tables, floatMax (inProps.estRows * sel) 1.0, inProps.outputColumns⟩
  | .join left right _ _ =>
    let l := (m.group left).props
    let r := (m.group right).props
    ⟨(r.tables.foldl (fun ts t => if t ∈ ts then ts else ts ++ [t]) l.tables).mergeSort,
      floatMax (l.estRows * r.estRows * 0.1) 1.0, l.outputColumns ++ r.outputColumns⟩
  | .aggregate input groupBy aggs =>
    let inProps := (m.group input).props
    ⟨inProps.tables, if groupBy = [] then 1.0 else floatMax (inProps.estRows * 0.2) 1.0,
      groupBy ++ aggs.map fun
        | .column c => c
        | .countStar => "count"
        | .aggregate func column => debugFunc func ++ "(" ++ column ++ ")"
        | _ => "agg"⟩

def insertLogical (op : LogicalOp) : GroupId × Memo :=
  match m.exprToGroup.find? fun e => e.1.eq ctx.same op with
  | some e => (e.2, m)
  | none =>
    (m.groups.length,
      ⟨m.groups ++ [⟨[op], [], m.deriveLogicalProps ctx op, none, false⟩],
        (op, m.groups.length) :: m.exprToGroup⟩)

def addLogicalToGroup (op : LogicalOp) : Memo :=
  match m.exprToGroup.find? fun e => e.1.eq ctx.same op with
  | some _ => m
  | none =>
    { m.modify g fun grp => { grp with logicalExprs := grp.logicalExprs ++ [op] } with
      exprToGroup := (op, g) :: m.exprToGroup }

def addPhysicalToGroup (op : PhysicalOp) (selfCost : Float) : Memo :=
  if (m.group g).physicalExprs.any fun p => ctx.same.physical p.op op then m
  else m.modify g fun grp =>
    { grp with physicalExprs := grp.physicalExprs ++ [⟨op, selfCost, selfCost⟩] }

end Memo

/-! ## Transformation rules -/

def flipJoinOn : Expr → Expr
  | .and a b => .and (flipJoinOn a) (flipJoinOn b)
  | .cmp l op r =>
    .cmp r (match op with | .eq => .eq | .lt => .gt | .le => .ge | .gt => .lt | .ge => .le | .ne => .ne) l
  | other => other

/-- `split_conjuncts`: the stack gives the right side first. -/
def splitConjuncts : Expr → List Expr
  | .and a b => splitConjuncts b ++ splitConjuncts a
  | other => [other]

def combineConjuncts : List Expr → Option Expr
  | [] => none
  | e :: es =>
    match combineConjuncts es with
    | none => some e
    | some out => some (.and e out)

def collectColumns : Expr → List String
  | .column name => [name]
  | .cmp l _ r => collectColumns l ++ collectColumns r
  | .and a b | .or a b => collectColumns a ++ collectColumns b
  | .not e | .inList e _ _ | .between e _ _ _ | .like e _ _ | .inSubquery e _ _ => collectColumns e
  | .literal _ | .scalarSubquery _ | .existsQuery _ _ => []

inductive Side where
  | left
  | right
  | residual
deriving DecidableEq

/-- Where a conjunct belongs; a column of both sides or of none makes it residual. -/
def conjunctSide (ctx : Context) (l r : LogicalProperties) (c : Expr) : Side :=
  let sides := (collectColumns c).map fun col =>
    match ctx.tableIdx col with
    | some t => if t ∈ l.tables then Side.left else if t ∈ r.tables then .right else .residual
    | none =>
      match decide (col ∈ l.outputColumns), decide (col ∈ r.outputColumns) with
      | true, false => .left
      | false, true => .right
      | _, _ => .residual
  if .residual ∈ sides then .residual
  else if .left ∈ sides ∧ .right ∉ sides then .left
  else if .left ∉ sides ∧ .right ∈ sides then .right
  else .residual

namespace Memo

variable (ctx : Context) (g : GroupId)

/-- Associativity, for one operator of the left input. -/
def associate (right : GroupId) (on : Option Expr) (m : Memo) : LogicalOp → Memo
  | .join a b onAb .inner =>
    let (sub, m) := m.insertLogical ctx (.join b right on .inner)
    m.addLogicalToGroup ctx g (.join a sub onAb .inner)
  | _ => m

/-- The input of a pushed join: a filter when there are conjuncts for it. -/
def pushInto (m : Memo) (input : GroupId) (conjuncts : List Expr) : GroupId × Memo :=
  match combineConjuncts conjuncts with
  | none => (input, m)
  | some p => m.insertLogical ctx (.filter input p)

/-- Predicate pushdown, for one operator of the input. -/
def pushDown (predicate : Expr) (m : Memo) : LogicalOp → Memo
  | .join left right on .inner =>
    let side := conjunctSide ctx (m.group left).props (m.group right).props
    let conjuncts := splitConjuncts predicate
    let leftConj := conjuncts.filter fun c => side c = .left
    let rightConj := conjuncts.filter fun c => side c = .right
    if leftConj.isEmpty && rightConj.isEmpty then m
    else
      let (newLeft, m) := m.pushInto ctx left leftConj
      let (newRight, m) := m.pushInto ctx right rightConj
      let allOn := (on.map splitConjuncts).getD [] ++ conjuncts.filter fun c => side c = .residual
      m.addLogicalToGroup ctx g (.join newLeft newRight (combineConjuncts allOn) .inner)
  | _ => m

/-- The rules for one operator. -/
def transform (m : Memo) : LogicalOp → Memo
  | .join left right on .inner =>
    let m := m.addLogicalToGroup ctx g (.join right left (on.map flipJoinOn) .inner)
    (m.group left).logicalExprs.foldl (associate ctx g right on) m
  | .filter input predicate => (m.group input).logicalExprs.foldl (pushDown ctx g predicate) m
  | _ => m

def applyTransformationRules (m : Memo) (depth : Nat) : Memo :=
  if depth = 0 then m else (m.group g).logicalExprs.foldl (transform ctx g) m

end Memo

/-! ## Implementation rules -/

def cpuTupleCost : Float := 0.01

def indexPageCost : Float := 1.0

def randomPageCost : Float := 4.0

def seqPageCost : Float := 1.0

def rowsPerPage : Float := 100.0

def fullScanCost (totalRows : Float) : Float := totalRows * (seqPageCost / rowsPerPage + cpuTupleCost)

def findEquiJoinIndices (leftCols rightCols : List String) : Expr → Option (Nat × Nat)
  | .and a b => (findEquiJoinIndices leftCols rightCols a).or (findEquiJoinIndices leftCols rightCols b)
  | .cmp (.column l) .eq (.column r) =>
    let position (cols : List String) (c : String) := cols.findIdx? fun x => x = c || x = simpleName c
    let pair (l r : String) := do return (← position leftCols l, ← position rightCols r)
    (pair l r).or (pair r l)
  | _ => none

namespace Memo

variable (ctx : Context) (g : GroupId)

/-- The scans that read all of a table. -/
def addScans (m : Memo) (i : Nat) (tm : TableMeta) (pushed : Option Expr) : Memo :=
  let m := m.addPhysicalToGroup ctx g (.tableScan i) (fullScanCost tm.totalRows)
  if tm.ephemeral then m
  else m.addPhysicalToGroup ctx g (.batchScan i pushed)
    (floatMax (tm.totalRows / rowsPerPage).ceil 1.0 * seqPageCost + tm.totalRows * (cpuTupleCost * 0.4))

/-- The scan along the access path, where it does not cost more than the table. -/
def addIndexScan (m : Memo) (i : Nat) (tm : TableMeta) (predicate : Expr) : Memo :=
  let estRows := tm.totalRows * ctx.selectivity tm predicate
  let path := if tm.ephemeral then .fullScan else accessPath tm.table (some predicate)
  let add (c : Float) := m.addPhysicalToGroup ctx g (.indexScan i path) c
  let perRow := indexPageCost / rowsPerPage + cpuTupleCost + randomPageCost
  match path with
  | .point _ => add ((indexPageCost + cpuTupleCost) * 0.5)
  | .pkIn vals => add (vals.length.toFloat * (indexPageCost + cpuTupleCost) * 0.5)
  | .range _ _ => add (indexPageCost + estRows * (seqPageCost / rowsPerPage + cpuTupleCost))
  | .secondaryIndex _ _ _ =>
    let c := indexPageCost + estRows * perRow
    if c < fullScanCost tm.totalRows then add c else m
  | .secIn _ values =>
    let c := indexPageCost + values.length.toFloat * perRow
    if c < fullScanCost tm.totalRows then add c else m
  | .fullScan => m

/-- A filter over one operator of its input. -/
def implementFilter (predicate : Expr) (m : Memo) : LogicalOp → Memo
  | .scan i _ =>
    match ctx.tables[i]? with
    | some tm => (m.addIndexScan ctx g i tm predicate).addScans ctx g i tm (some predicate)
    | none => m
  | _ => m

/-- The hash joins on two columns. -/
def addHashJoins (m : Memo) (left right : GroupId) (kind : JoinKind) : Option (Nat × Nat) → Memo
  | none => m
  | some keys =>
    let l := (m.group left).props
    let r := (m.group right).props
    let m := m.addPhysicalToGroup ctx g (.hashJoin left right keys kind .right)
      (r.estRows * (cpuTupleCost * 1.5) + l.estRows * cpuTupleCost)
    if kind = .inner then m.addPhysicalToGroup ctx g (.hashJoin left right keys kind .left)
      (l.estRows * (cpuTupleCost * 1.5) + r.estRows * cpuTupleCost)
    else m

def implementJoin (m : Memo) (left right : GroupId) (on : Option Expr) (kind : JoinKind) : Memo :=
  let l := (m.group left).props
  let r := (m.group right).props
  (m.addHashJoins ctx g left right kind (on.bind (findEquiJoinIndices l.outputColumns r.outputColumns)))
    |>.addPhysicalToGroup ctx g (.nestedLoopJoin left right on kind)
      (l.estRows * floatMax (r.estRows * cpuTupleCost) 1.0)

/-- The rules for one operator. -/
def implement (m : Memo) : LogicalOp → Memo
  | .scan i _ =>
    match ctx.tables[i]? with
    | some tm => m.addScans ctx g i tm none
    | none => m
  | .filter input predicate => (m.group input).logicalExprs.foldl (implementFilter ctx g predicate) m
  | .join left right on kind => m.implementJoin ctx g left right on kind
  | .aggregate input groupBy aggs =>
    let inRows := (m.group input).props.estRows
    (m.addPhysicalToGroup ctx g (.batchAggregate input groupBy aggs) (inRows * (cpuTupleCost * 0.5)))
      |>.addPhysicalToGroup ctx g (.scalarAggregate input groupBy aggs) (inRows * (cpuTupleCost * 1.2))

def applyImplementationRules (m : Memo) : Memo :=
  (m.group g).logicalExprs.foldl (implement ctx g) m

/-! ## The search -/

/-- The member `i` of a group has been costed. -/
def settle (i : Nat) (totalCost : Float) (m : Memo) : Memo :=
  m.modify g fun grp =>
    { grp with
      physicalExprs := grp.physicalExprs.modify i fun p => { p with totalCost }
      bestPlan :=
        match grp.bestPlan with
        | none => some ⟨i, totalCost⟩
        | some cur => if totalCost < cur.totalCost then some ⟨i, totalCost⟩ else some cur }

def optimizeGroup : Nat → GroupId → Float → Memo → Memo
  | 0, _, _, m => m
  | depth + 1, g, costLimit, m =>
    let m :=
      if (m.group g).explored then m
      else (m.modify g fun grp => { grp with explored := true }).applyTransformationRules ctx g (depth + 1)
    let m := m.applyImplementationRules ctx g
    (List.range (m.group g).physicalExprs.length).foldl (fun m i =>
      match (m.group g).physicalExprs[i]? with
      | none => m
      | some p =>
        -- the cost so far; none once the limit is reached or a child has no plan
        let (total, m) := p.op.children.foldl (fun (acc : Option Float × Memo) child =>
          match acc.1 with
          | none => acc
          | some total =>
            if total ≥ costLimit then (none, acc.2)
            else
              let m := optimizeGroup depth child (costLimit - total) acc.2
              (((m.group child).bestPlan).map fun best => total + best.totalCost, m)) (some p.selfCost, m)
        match total with
        | none => m
        | some total => m.settle g i total) m

end Memo

/-! ## Plans -/

inductive PhysicalPlan where
  | tableScan (tableIdx : Nat) (tableName : String) (cost estRows : Float)
  | indexScan (tableIdx : Nat) (tableName : String) (path : AccessPath) (cost estRows : Float)
  | batchScan (tableIdx : Nat) (tableName : String) (pushedFilter : Option Expr) (cost estRows : Float)
  | hashJoin (left right : PhysicalPlan) (equiKeys : Nat × Nat) (kind : JoinKind)
    (buildSide : JoinBuildSide) (cost estRows : Float)
  | nestedLoopJoin (left right : PhysicalPlan) (on : Option Expr) (kind : JoinKind) (cost estRows : Float)
  | batchAggregate (input : PhysicalPlan) (groupBy : List String) (aggs : List SelectItem)
    (cost estRows : Float)
  | scalarAggregate (input : PhysicalPlan) (groupBy : List String) (aggs : List SelectItem)
    (cost estRows : Float)

/-- The tables a plan scans. -/
def PhysicalPlan.scans : PhysicalPlan → List Nat
  | .tableScan i _ _ _ | .indexScan i _ _ _ _ | .batchScan i _ _ _ _ => [i]
  | .hashJoin left right _ _ _ _ _ | .nestedLoopJoin left right _ _ _ _ => left.scans ++ right.scans
  | .batchAggregate input _ _ _ _ | .scalarAggregate input _ _ _ _ => input.scans

/-- The plan of an operator over the plans of its inputs. -/
def PhysicalOp.plan (ctx : Context) (cost estRows : Float) :
    PhysicalOp → List PhysicalPlan → Option PhysicalPlan
  | .tableScan i, [] => ctx.tables[i]?.map fun tm => .tableScan i tm.name cost estRows
  | .indexScan i path, [] => ctx.tables[i]?.map fun tm => .indexScan i tm.name path cost estRows
  | .batchScan i pushed, [] => ctx.tables[i]?.map fun tm => .batchScan i tm.name pushed cost estRows
  | .hashJoin _ _ keys kind build, [l, r] => some (.hashJoin l r keys kind build cost estRows)
  | .nestedLoopJoin _ _ on kind, [l, r] => some (.nestedLoopJoin l r on kind cost estRows)
  | .batchAggregate _ groupBy aggs, [p] => some (.batchAggregate p groupBy aggs cost estRows)
  | .scalarAggregate _ groupBy aggs, [p] => some (.scalarAggregate p groupBy aggs cost estRows)
  | _, _ => none

/-- `extract_best_plan`: `?` ends it without a plan.  There is no result at all when it has not
returned after so many calls in each other, or has met an index out of range. -/
def Memo.extractBestPlan (m : Memo) (ctx : Context) : Nat → GroupId → OptionT Option PhysicalPlan
  | 0, _ => OptionT.lift none
  | depth + 1, g => do
    let group ← OptionT.lift m.groups[g]?
    let best ← OptionT.mk (some group.bestPlan)
    let member ← OptionT.lift group.physicalExprs[best.physicalIdx]?
    let plans ← member.op.children.mapM (m.extractBestPlan ctx depth)
    OptionT.lift (member.op.plan ctx member.totalCost group.props.estRows plans)

/-! ## The optimizer -/

namespace Memo

variable (ctx : Context)

/-- A scan of the table in the memo. -/
def insertScan (m : Memo) (i : Nat) : GroupId × Memo :=
  m.insertLogical ctx (.scan i ((ctx.tables[i]?.map TableMeta.name).getD ""))

/-- The joins of the statement, the next table being `i`. -/
def insertJoins : List JoinClause → Nat → GroupId × Memo → GroupId × Memo
  | [], _, acc => acc
  | j :: joins, i, (curr, m) =>
    let (r, m) := m.insertScan ctx i
    insertJoins joins (i + 1) (m.insertLogical ctx (.join curr r (some j.on) j.kind))

/-- The filter of the statement. -/
def insertFilter (acc : GroupId × Memo) : Option Expr → GroupId × Memo
  | none => acc
  | some predicate => acc.2.insertLogical ctx (.filter acc.1 predicate)

/-- The relation of the statement. -/
def insertSelect (select : SelectStmt) : GroupId × Memo :=
  let acc := insertJoins ctx select.joins 1 ((⟨[], []⟩ : Memo).insertScan ctx 0)
  let (curr, m) := insertFilter ctx acc select.selection
  let hasAgg := !select.groupBy.isEmpty || select.items.any fun
    | .countStar | .aggregate _ _ => true
    | _ => false
  if hasAgg then m.insertLogical ctx (.aggregate curr select.groupBy select.items) else (curr, m)

/-- One pass of a rule over the groups there are. -/
def pass (rule : Memo → GroupId → Memo) (m : Memo) : Memo := (List.range m.groups.length).foldl rule m

@[irreducible]
def search (select : SelectStmt) : GroupId × Memo :=
  let (root, m) := insertSelect ctx select
  let explore := pass fun m g => m.applyTransformationRules ctx g 2
  let m := (explore (explore m)).pass fun m g => m.applyImplementationRules ctx g
  (root, m.optimizeGroup ctx 5 root (1.0 / 0.0))

end Memo

/-- `optimize_select_memo`, before it extracts the plan; `resolve` is `resolve_table_ref`. -/
def optimizeSelectMemo (same : Equality) (selectivity : TableMeta → Expr → Float)
    (resolve : TableRef → Except Error TableMeta) (select : SelectStmt) :
    Except Error (Context × GroupId × Memo) := do
  let source ← resolve select.source
  let joined ← select.joins.mapM fun j => resolve j.table
  let ctx : Context := ⟨source :: joined, same, selectivity⟩
  return (ctx, Memo.search ctx select)

end HenchDB.Optimizer
