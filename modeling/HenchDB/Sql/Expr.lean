import HenchDB.Sql.Value

/-!
# Queries and predicates

The syntax of queries, and the evaluator of predicates (`evalWith`).  A
predicate is two-valued: a comparison with `NULL` is false, and so is the truth
of a text or a time.  A subquery is not evaluated here; where one is met the
evaluation ends with an error, and `AND` and `OR` go on to their right side only
when they need it.

What the standard library prints is left open: `Printing` gives the text of a
float and the debug text of an expression, and every result holds for each.
-/

namespace HenchDB

inductive AggFunc where
  | sum
  | avg
  | min
  | max
deriving DecidableEq, Repr

inductive JoinKind where
  | inner
  | left
deriving DecidableEq, Repr

inductive CmpOp where
  | eq
  | ne
  | lt
  | le
  | gt
  | ge
deriving DecidableEq, Repr

def CmpOp.apply : CmpOp → Datum → Datum → Bool
  | .eq, a, b => a.eqv b
  | .ne, a, b => !a.eqv b
  | .lt, a, b => (a.cmp b).isLT
  | .le, a, b => (a.cmp b).isLE
  | .gt, a, b => (a.cmp b).isGT
  | .ge, a, b => (a.cmp b).isGE

mutual

inductive Expr where
  | column (name : String)
  | literal (d : Datum)
  | cmp (left : Expr) (op : CmpOp) (right : Expr)
  | and (a b : Expr)
  | or (a b : Expr)
  | not (e : Expr)
  | inList (expr : Expr) (values : List Datum) (negated : Bool)
  | between (expr : Expr) (lo hi : Datum) (negated : Bool)
  | like (expr : Expr) (pattern : String) (negated : Bool)
  | inSubquery (expr : Expr) (query : SelectStmt) (negated : Bool)
  | scalarSubquery (query : SelectStmt)
  | existsQuery (query : SelectStmt) (negated : Bool)

structure SelectStmt where
  items : List SelectItem
  /-- The `from` of the source. -/
  source : TableRef
  joins : List JoinClause
  selection : Option Expr
  /-- Columns, each with whether it is sorted downwards. -/
  orderBy : List (String × Bool)
  limit : Option Nat
  groupBy : List String

inductive SelectItem where
  | star
  | column (name : String)
  | countStar
  | aggregate (func : AggFunc) (column : String)
  | subquery (query : SelectStmt) (label : Option String)
  | literal (d : Datum)
  | sysFunc (name : String) (label : Option String)

inductive TableRef where
  | table (name : String)
  | derived (query : SelectStmt) (label : String)
  | empty

structure JoinClause where
  kind : JoinKind
  table : TableRef
  on : Expr

end

/-! ## Text of values -/

structure Printing where
  /-- `{v}` of a float. -/
  float : UInt64 → String
  /-- `{e:?}` of an expression. -/
  expr : Expr → String

def daysToYmd (days : Int) : Int × Nat × Nat :=
  let z := days + 719468
  let era := (if 0 ≤ z then z else z - 146096).tdiv 146097
  let doe := (z - era * 146097).toNat
  let yoe := (doe - doe / 1460 + doe / 36524 - doe / 146096) / 365
  let y : Int := yoe + era * 400
  let doy := doe - (365 * yoe + yoe / 4 - yoe / 100)
  let mp := (5 * doy + 2) / 153
  let d := doy - (153 * mp + 2) / 5 + 1
  let m := if mp < 10 then mp + 3 else mp - 9
  (y + if m ≤ 2 then 1 else 0, m, d)

/-- `{n:0width}`: zeros between the sign and the digits. -/
def padded (width : Nat) (n : Int) : String :=
  let digits := toString n.natAbs
  if n < 0 then "-" ++ "".pushn '0' (width - 1 - digits.length) ++ digits
  else "".pushn '0' (width - digits.length) ++ digits

def formatDatetimeMicros (micros : Int64) : String :=
  let secs := micros.toInt.ediv 1000000
  let micro := micros.toInt.emod 1000000
  let days := secs.ediv 86400
  let tod := secs.emod 86400
  let (y, m, d) := daysToYmd days
  let time := padded 4 y ++ "-" ++ padded 2 m ++ "-" ++ padded 2 d ++ " " ++ padded 2 (tod / 3600) ++
    ":" ++ padded 2 (tod % 3600 / 60) ++ ":" ++ padded 2 (tod % 60)
  if 0 < micro then time ++ "." ++ padded 6 micro else time

/-- `{d}` of a value. -/
def Datum.display (fmt : Printing) : Datum → String
  | .null => "NULL"
  | .int v => toString v.toInt
  | .float bits => fmt.float bits
  | .text v => v
  | .bool v => toString v
  | .dateTime v => formatDatetimeMicros v

/-! ## Patterns -/

/-- `like_match` on characters; the memo table only saves time. -/
def likeChars : List Char → List Char → Bool
  | [], t => t.isEmpty
  | '%' :: p, t => t.tails.any fun t => likeChars p t
  | c :: p, t :: ts => (c = '_' || c = t) && likeChars p ts
  | _ :: _, [] => false

def likeMatch (text pattern : String) : Bool := likeChars pattern.toList text.toList

/-! ## Evaluation -/

def Datum.truth : Datum → Bool
  | .bool b => b
  | .int i => i ≠ 0
  | .float bits => !F64.eq bits 0
  | _ => false

/-- `left = right` and so on on two values. -/
def compareWith (op : CmpOp) (l r : Datum) : Bool :=
  if l = .null ∨ r = .null then false
  else
    let (l, r) := l.coercePair r
    op.apply l r

/-- `value IN (values)`. -/
def inValues (target : Datum) (values : List Datum) (negated : Bool) : Bool :=
  if target = .null then false
  else
    let hit := values.any fun v =>
      if v = .null then false
      else
        let (t, e) := target.coercePair v
        t.eqv e
    if negated then !hit else hit

/-- `value BETWEEN lo AND hi`: the upper bound is coerced with the value the
lower bound left. -/
def betweenValues (target lo hi : Datum) (negated : Bool) : Bool :=
  if target = .null then false
  else
    let (t, l) := target.coercePair lo
    let (t, h) := t.coercePair hi
    let inside := (t.cmp l).isGE && (t.cmp h).isLE
    if negated then !inside else inside

/-- `value LIKE pattern`. -/
def likeValue (fmt : Printing) (target : Datum) (pattern : String) (negated : Bool) : Bool :=
  if target = .null then false
  else
    let matched := likeMatch (target.display fmt) pattern
    if negated then !matched else matched

section
variable (fmt : Printing) (resolve : String → Except Error Datum)

def evalOperand : Expr → Except Error Datum
  | .literal d => .ok d
  | .column name => resolve name
  | other => .error (.notSupported s!"cannot evaluate {fmt.expr other} as a scalar")

def evalWith : Expr → Except Error Bool
  | .and a b => do
    if ← evalWith a then evalWith b else return false
  | .or a b => do
    if ← evalWith a then return true else evalWith b
  | .not e => do return !(← evalWith e)
  | .cmp left op right => do
    let l ← evalOperand fmt resolve left
    let r ← evalOperand fmt resolve right
    return compareWith op l r
  | .inList expr values negated => do
    return inValues (← evalOperand fmt resolve expr) values negated
  | .between expr lo hi negated => do
    return betweenValues (← evalOperand fmt resolve expr) lo hi negated
  | .like expr pattern negated => do
    return likeValue fmt (← evalOperand fmt resolve expr) pattern negated
  | .column name => do return (← resolve name).truth
  | .literal d => .ok d.truth
  | other => .error (.notSupported s!"cannot evaluate {fmt.expr other} as a predicate")

end

end HenchDB
