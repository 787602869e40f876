import Mathlib.Data.List.GetD
import HenchDB.Lib.Join
import HenchDB.Query.Scope

/-!
# Hash joins

One step of a join: the rows joined so far with those of the next table.  If the
`ON` clause has a conjunct `left.column = right.column`, the step looks up the
right rows by the join key of the left ones (`hashJoinStep`), otherwise it tests
every pair (`nestedLoopStep`).  The time limit of a query is left out.

A join key stands for a value up to the equality of the evaluator, but not quite:
`TRUE` equals 1 and 1.0 and has another key, and an integer too large for a float
equals the float it is rounded to, whose key is that float's own integer.  These
are the pairs `keySplit` names, and they are all (`joinKey_eq_iff`): the hash join
gives the rows of the nested loop exactly if no pair of rows that satisfies `ON`
has such values in the joined columns (`join_step_iff`).
-/

namespace HenchDB

/-! ## Join keys -/

inductive JoinKey where
  | int (v : Int64)
  | float (bits : UInt64)
  | text (v : String)
  | bool (v : Bool)
  | dateTime (v : Int64)
deriving DecidableEq

def joinKey : Datum → Option JoinKey
  | .null => none
  | .int v => some (.int v)
  | .float bits =>
    if F64.isNaN bits then none
    else if F64.isIntegral bits && F64.inRange bits then some (.int (F64.toInt bits))
    else some (.float bits)
  | .text s => some ((parseDatetimeStr s).elim (.text s) .dateTime)
  | .bool b => some (.bool b)
  | .dateTime v => some (.dateTime v)

/-- `equi_join`: the first conjunct that equates a column of the rows so far with
one of the new table. -/
def equiJoin (resolve : String → Except Error Nat) (leftWidth : Nat) : Expr → Option (Nat × Nat)
  | .and a b => (equiJoin resolve leftWidth a).or (equiJoin resolve leftWidth b)
  | .cmp (.column x) .eq (.column y) =>
    match resolve x, resolve y with
    | .ok i, .ok k =>
      if i < leftWidth ∧ ¬ k < leftWidth then some (i, k)
      else if ¬ i < leftWidth ∧ k < leftWidth then some (k, i)
      else none
    | _, _ => none
  | _ => none

/-! ## The step -/

structure Rows (w : Nat) where
  rows : List Row
  wide : ∀ row ∈ rows, row.length = w

section
variable (fmt : Printing) (tables : List TableDef) (table : TableDef) (on : Expr)

/-- `ON` of a pair of rows. -/
def onPair (left right : Row) : Except Error Bool :=
  evalScoped fmt on (tables ++ [table]) (left ++ right)

def unmatched (kind : JoinKind) (left : Row) : List Row :=
  if kind = .left then [left ++ List.replicate table.width .null] else []

def nestedLoopStep (kind : JoinKind) (left right : List Row) : Except Error (List Row) :=
  Join.probe (fun _ => right) (onPair fmt tables table on) (· ++ ·) (unmatched table kind) left

/-- `hash_join_step`: an inner join looks up the smaller side. -/
def hashJoinStep (kind : JoinKind) (lk rk : Nat) (left right : List Row) :
    Except Error (List Row) :=
  let leftKey row := joinKey (row.getD lk .null)
  let rightKey row := joinKey (row.getD rk .null)
  if kind = .inner ∧ left.length < right.length then
    Join.probe (fun p => Join.candidates leftKey left (rightKey p))
      (fun p b => onPair fmt tables table on b p) (fun p b => b ++ p) (fun _ => []) right
  else
    Join.probe (fun p => Join.candidates rightKey right (leftKey p))
      (onPair fmt tables table on) (· ++ ·) (unmatched table kind) left

def joinStep (kind : JoinKind) (left right : List Row) : Except Error (List Row) :=
  match equiJoin (resolveScope (tables ++ [table])) (width tables) on with
  | some (lk, rk) => hashJoinStep fmt tables table on kind lk (rk - width tables) left right
  | none => nestedLoopStep fmt tables table on kind left right

end

/-! ## Keys and equality -/

/-- Equal values with different join keys. -/
def keySplit : Datum → Datum → Bool
  | .bool b, .int i | .int i, .bool b => i = if b then 1 else 0
  | .bool b, .float f | .float f, .bool b => F64.eq (F64.ofInt (if b then 1 else 0)) f
  | .int i, .float f | .float f, .int i => F64.eq (F64.ofInt i) f && F64.toInt f ≠ i
  | _, _ => false

theorem F64.eq_swap (a b : UInt64) : F64.eq a b = F64.eq b a := by
  simp only [F64.eq]
  grind

theorem Datum.eqv_swap (a b : Datum) : a.eqv b = b.eqv a := by
  cases a <;> cases b <;> simp [Datum.eqv, F64.eq_swap, eq_comm]

theorem Datum.coercePair_swap (a b : Datum) : b.coercePair a = (a.coercePair b).swap := by
  cases a <;> cases b <;> rfl

theorem Datum.sameValue_swap (a b : Datum) : a.sameValue b = b.sameValue a := by
  rw [sameValue, sameValue, coercePair_swap a b, Prod.fst_swap, Prod.snd_swap,
    eqv_swap (a.coercePair b).2, Bool.and_comm (decide (b ≠ .null))]

variable {a b : Datum} {f : UInt64} {resolve : String → Except Error Nat}

theorem Datum.eqv_of_sameValue (h : a.sameValue b = true) :
    (a.coercePair b).1.eqv (a.coercePair b).2 = true := by
  rw [sameValue, Bool.and_eq_true] at h
  exact h.2

theorem keySplit_swap (a b : Datum) : keySplit a b = keySplit b a := by
  cases a <;> cases b <;> rfl

theorem joinKey_zero (h : F64.isZero f = true) :
    joinKey (.float f) = some (.int 0) ∧ F64.toInt f = 0 := by
  have hmag : F64.magnitude f = 0 := (F64.isZero_iff f).mp h
  have hexp : F64.exponent f = 0 := by
    rw [F64.exponent, hmag]
    rfl
  have hsig : F64.significand f = 0 := by
    rw [F64.significand, hexp, hmag]
    rfl
  have hnan : F64.isNaN f = false := by
    rw [F64.isNaN_eq, hmag]
    rfl
  have hplace : F64.place f = 0 := by
    rw [F64.place, hmag]
    simp
  have hint : F64.toInt f = 0 := by
    rw [F64.toInt, hnan, F64.truncated, hexp, hsig, Nat.zero_div]
    cases F64.isNegative f <;> rfl
  have hintegral : F64.isIntegral f = true := by
    rw [F64.isIntegral, hexp, hsig, Nat.zero_mod]
    rfl
  have hrange : F64.inRange f = true := by
    rw [F64.inRange, F64.le, F64.le, hnan, hplace]
    decide
  exact ⟨by simp [joinKey, hnan, hintegral, hrange, hint], hint⟩

theorem F64.eq_spec {g : UInt64} (h : F64.eq f g = true) :
    f = g ∨ (F64.isZero f = true ∧ F64.isZero g = true) := by
  simp only [F64.eq, Bool.and_eq_true, Bool.or_eq_true, decide_eq_true_eq] at h
  exact h.2

theorem joinKey_float_of_eq {g : UInt64} (h : F64.eq f g = true) :
    (joinKey (.float f)).isSome = true ∧ joinKey (.float f) = joinKey (.float g) := by
  rcases F64.eq_spec h with rfl | ⟨hf, hg⟩
  · have hnan : F64.isNaN f = false := by
      simp only [F64.eq, Bool.and_eq_true, Bool.not_eq_true'] at h
      exact h.1.1
    refine ⟨?_, rfl⟩
    rw [joinKey, hnan]
    simp only [Bool.false_eq_true, if_false]
    split <;> rfl
  · rw [(joinKey_zero hf).1, (joinKey_zero hg).1]
    exact ⟨rfl, rfl⟩

/-- A float equal to an integer has an integer as its key: the one it is cast to. -/
theorem joinKey_float_of_int {i : Int64} (h : F64.eq (F64.ofInt i) f = true) :
    joinKey (.float f) = some (.int (F64.toInt f)) := by
  rcases F64.eq_spec h with rfl | ⟨-, hf⟩
  · simp [joinKey, F64.isNaN_ofInt, F64.isIntegral_ofInt, F64.inRange_ofInt]
  · rw [(joinKey_zero hf).1, (joinKey_zero hf).2]

theorem joinKey_isSome (h : a.sameValue b = true) : (joinKey a).isSome = true := by
  cases a with
  | null => simp [Datum.sameValue] at h
  | float f =>
    cases b with
    | int | float | bool => exact (joinKey_float_of_eq (Datum.eqv_of_sameValue h)).1
    | null | text | dateTime => cases Datum.eqv_of_sameValue h
  | int | text | bool | dateTime => rfl

section
variable {b : Bool} {i : Int64} {f : UInt64}

theorem keySplit_bool_int (h : (Datum.bool b).sameValue (.int i) = true) :
    joinKey (.bool b) = joinKey (.int i) ↔ keySplit (.bool b) (.int i) = false := by
  have hi : (if b then 1 else 0) = i := of_decide_eq_true (Datum.eqv_of_sameValue h)
  simp [joinKey, keySplit, hi]

theorem keySplit_bool_float (h : (Datum.bool b).sameValue (.float f) = true) :
    joinKey (.bool b) = joinKey (.float f) ↔ keySplit (.bool b) (.float f) = false := by
  have heq : F64.eq (F64.ofInt (if b then 1 else 0)) f = true := Datum.eqv_of_sameValue h
  rw [joinKey_float_of_int heq, keySplit, heq]
  simp [joinKey]

theorem keySplit_int_float (h : (Datum.int i).sameValue (.float f) = true) :
    joinKey (.int i) = joinKey (.float f) ↔ keySplit (.int i) (.float f) = false := by
  have heq : F64.eq (F64.ofInt i) f = true := Datum.eqv_of_sameValue h
  rw [joinKey_float_of_int heq, keySplit, heq, Bool.true_and, decide_eq_false_iff_not, not_not,
    joinKey, Option.some.injEq, JoinKey.int.injEq]
  exact eq_comm

/-- A text equals a time only if it is read as that time, which is its key. -/
theorem joinKey_text_dateTime {s : String} {t : Int64}
    (h : (Datum.text s).sameValue (.dateTime t) = true) :
    joinKey (.text s) = joinKey (.dateTime t) := by
  cases hp : parseDatetimeStr s with
  | none => simp [Datum.sameValue, Datum.coercePair, Datum.eqv, hp] at h
  | some v =>
    have hv : v = t := by simpa [Datum.sameValue, Datum.coercePair, Datum.eqv, hp] using h
    simp [joinKey, hp, hv]

end

/-- Among equal values, exactly those `keySplit` names have different keys. -/
theorem joinKey_eq_iff (h : a.sameValue b = true) :
    joinKey a = joinKey b ↔ keySplit a b = false := by
  have hswap : b.sameValue a = true := by rwa [Datum.sameValue_swap]
  have hflip : (joinKey b = joinKey a ↔ keySplit b a = false) →
      (joinKey a = joinKey b ↔ keySplit a b = false) := by
    rw [keySplit_swap b a, eq_comm]
    exact id
  cases a with
  | null => simp [Datum.sameValue] at h
  | int i =>
    cases b with
    | int j => exact iff_of_true (by rw [of_decide_eq_true (Datum.eqv_of_sameValue h)]) rfl
    | float f => exact keySplit_int_float h
    | bool v => exact hflip (keySplit_bool_int hswap)
    | null | text | dateTime => cases Datum.eqv_of_sameValue h
  | float f =>
    cases b with
    | int i => exact hflip (keySplit_int_float hswap)
    | float g =>
      exact iff_of_true (joinKey_float_of_eq (Datum.eqv_of_sameValue h)).2 rfl
    | bool v => exact hflip (keySplit_bool_float hswap)
    | null | text | dateTime => cases Datum.eqv_of_sameValue h
  | text s =>
    cases b with
    | text s' => exact iff_of_true (by rw [of_decide_eq_true (Datum.eqv_of_sameValue h)]) rfl
    | dateTime t => exact iff_of_true (joinKey_text_dateTime h) rfl
    | null | int | float | bool => cases Datum.eqv_of_sameValue h
  | bool v =>
    cases b with
    | int i => exact keySplit_bool_int h
    | float f => exact keySplit_bool_float h
    | bool v' => exact iff_of_true (by rw [of_decide_eq_true (Datum.eqv_of_sameValue h)]) rfl
    | null | text | dateTime => cases Datum.eqv_of_sameValue h
  | dateTime t =>
    cases b with
    | text s => exact iff_of_true (joinKey_text_dateTime hswap).symm rfl
    | dateTime t' => exact iff_of_true (by rw [of_decide_eq_true (Datum.eqv_of_sameValue h)]) rfl
    | null | int | float | bool => cases Datum.eqv_of_sameValue h

/-! ## The conjunct that is looked up -/

theorem evalWith_and_true {fmt : Printing} {resolve : String → Except Error Datum} {a b : Expr}
    (h : evalWith fmt resolve (.and a b) = .ok true) :
    evalWith fmt resolve a = .ok true ∧ evalWith fmt resolve b = .ok true := by
  rw [evalWith] at h
  cases ha : evalWith fmt resolve a with
  | error e => simp [ha, bind, Except.bind] at h
  | ok v =>
    cases v with
    | false => simp [ha, bind, Except.bind, pure, Except.pure] at h
    | true => exact ⟨rfl, by simpa [ha, bind, Except.bind] using h⟩

theorem sameValue_of_compare {l r : Datum} (h : compareWith .eq l r = true) :
    l.sameValue r = true := by
  rw [compareWith] at h
  split at h
  · cases h
  · next hnull =>
    rw [not_or] at hnull
    simpa [Datum.sameValue, CmpOp.apply, hnull.1, hnull.2] using h

theorem sameValue_of_columns {fmt : Printing} {x y : String} {i k : Nat} {row : Row}
    (hx : resolve x = .ok i) (hy : resolve y = .ok k)
    (h : evalWith fmt (fun name => do return row.getD (← resolve name) .null)
      (.cmp (.column x) .eq (.column y)) = .ok true) :
    (row.getD i .null).sameValue (row.getD k .null) = true := by
  simp only [evalWith, evalOperand, hx, hy, bind, Except.bind, pure, Except.pure,
    Except.ok.injEq] at h
  exact sameValue_of_compare h

/-- The two columns are on their sides, and equal wherever the clause holds. -/
theorem equiJoin_spec (fmt : Printing) {w lk rk : Nat} {on : Expr}
    (h : equiJoin resolve w on = some (lk, rk)) :
    (lk < w ∧ w ≤ rk) ∧ ∀ row : Row,
      evalWith fmt (fun name => do return row.getD (← resolve name) .null) on = .ok true →
        (row.getD lk .null).sameValue (row.getD rk .null) = true := by
  fun_induction equiJoin resolve w on with
  | case1 a b iha ihb =>
    rw [Option.or_eq_some_iff] at h
    rcases h with h | ⟨-, h⟩
    · exact ⟨(iha h).1, fun row htrue => (iha h).2 row (evalWith_and_true htrue).1⟩
    · exact ⟨(ihb h).1, fun row htrue => (ihb h).2 row (evalWith_and_true htrue).2⟩
  | case2 x y i k hy hx hside =>
    cases h
    exact ⟨⟨hside.1, by omega⟩, fun row htrue => sameValue_of_columns hx hy htrue⟩
  | case3 x y i k hy hx _ hside =>
    cases h
    refine ⟨⟨hside.2, by omega⟩, fun row htrue => ?_⟩
    rw [Datum.sameValue_swap]
    exact sameValue_of_columns hx hy htrue
  | case4 => cases h
  | case5 => cases h
  | case6 => cases h

/-! ## Hash join and nested loop -/

section
variable {fmt : Printing} {tables : List TableDef} {table : TableDef} {on : Expr}

/-- The values `ON` equates do not split, wherever it holds; and `ON` fails on no
pair of rows, or on one that shares a join key. -/
def HashSafe (fmt : Printing) (tables : List TableDef) (table : TableDef) (on : Expr)
    (lk rk : Nat) (left right : List Row) : Prop :=
  (∃ l ∈ left, ∃ r ∈ right,
      Join.agree (fun row : Row => joinKey (row.getD lk .null))
        (fun row : Row => joinKey (row.getD rk .null)) l r = true ∧
      (onPair fmt tables table on l r).isOk = false) ∨
    ∀ l ∈ left, ∀ r ∈ right, (onPair fmt tables table on l r).isOk = true ∧
      (onPair fmt tables table on l r = .ok true →
        keySplit (l.getD lk .null) (r.getD rk .null) = false)

theorem holds_iff {ε : Type} {x : Except ε Bool} : Join.holds x = true ↔ x = .ok true := by
  cases x <;> simp [Join.holds, Except.toOption]

/-- Which side is looked up does not matter. -/
theorem outcome_hashJoinStep (kind : JoinKind) (lk rk : Nat) (left right : List Row) :
    Join.outcome (hashJoinStep fmt tables table on kind lk rk left right) =
      Join.outcome (Join.probe
        (fun l => right.filter (Join.agree (fun row : Row => joinKey (row.getD lk .null))
          (fun row : Row => joinKey (row.getD rk .null)) l))
        (onPair fmt tables table on) (· ++ ·) (unmatched table kind) left) := by
  have hright : ∀ l : Row, Join.candidates (fun row : Row => joinKey (row.getD rk .null)) right
      (joinKey (l.getD lk .null)) = right.filter (Join.agree
        (fun row : Row => joinKey (row.getD lk .null))
        (fun row : Row => joinKey (row.getD rk .null)) l) :=
    Join.candidates_eq (fun row : Row => joinKey (row.getD lk .null)) _ right
  have hleft : ∀ r : Row, Join.candidates (fun row : Row => joinKey (row.getD lk .null)) left
      (joinKey (r.getD rk .null)) = left.filter (fun l => Join.agree
        (fun row : Row => joinKey (row.getD lk .null))
        (fun row : Row => joinKey (row.getD rk .null)) l r) := by
    intro r
    rw [Join.candidates_eq (fun row : Row => joinKey (row.getD rk .null))]
    exact List.filter_congr fun l _ => Join.agree_swap _ _ l r
  simp only [hashJoinStep, hright, hleft]
  split
  · next hinner =>
    have hpad : unmatched table kind = fun _ => [] := by
      funext l
      rw [unmatched, hinner.1, if_neg (by decide)]
    rw [hpad]
    exact Join.outcome_probe_swap
  · rfl

/-- A step that looks up gives the rows of the nested loop exactly if its inputs
are safe. -/
theorem join_step_iff (kind : JoinKind) (left : Rows (width tables)) (right : Rows table.width) :
    Join.outcome (joinStep fmt tables table on kind left.rows right.rows) =
        Join.outcome (nestedLoopStep fmt tables table on kind left.rows right.rows) ↔
      ∀ lk rk, equiJoin (resolveScope (tables ++ [table])) (width tables) on = some (lk, rk) →
        HashSafe fmt tables table on lk (rk - width tables) left.rows right.rows := by
  rw [joinStep]
  cases hequi : equiJoin (resolveScope (tables ++ [table])) (width tables) on with
  | none => simp
  | some cols =>
    obtain ⟨lk, rk⟩ := cols
    obtain ⟨⟨hlk, hrk⟩, hsame⟩ := equiJoin_spec fmt hequi
    have hleft : ∀ l ∈ left.rows, ∀ r : Row, (l ++ r).getD lk .null = l.getD lk .null := by
      intro l hl r
      rw [List.getD_append _ _ _ _ (by rw [left.wide l hl]; exact hlk)]
    have hright : ∀ l ∈ left.rows, ∀ r : Row,
        (l ++ r).getD rk .null = r.getD (rk - width tables) .null := by
      intro l hl r
      rw [List.getD_append_right _ _ _ _ (by rw [left.wide l hl]; exact hrk), left.wide l hl]
    have hequal : ∀ l ∈ left.rows, ∀ r ∈ right.rows, onPair fmt tables table on l r = .ok true →
        (l.getD lk .null).sameValue (r.getD (rk - width tables) .null) = true := by
      intro l hl r _ htrue
      have h := hsame (l ++ r) htrue
      rwa [hleft l hl, hright l hl] at h
    have hcols : (∀ lk' rk', some (lk, rk) = some (lk', rk') →
        HashSafe fmt tables table on lk' (rk' - width tables) left.rows right.rows) ↔
          HashSafe fmt tables table on lk (rk - width tables) left.rows right.rows := by
      constructor
      · exact fun h => h lk rk rfl
      · rintro h _ _ ⟨⟩
        exact h
    rw [hcols, outcome_hashJoinStep, nestedLoopStep,
      Join.probe_same_iff (fun row : Row => row.getD rk .null ≠ .null), HashSafe]
    · refine or_congr Iff.rfl (forall₂_congr fun l hl => forall₂_congr fun r hr =>
        and_congr_right fun _ => ?_)
      rw [holds_iff]
      refine forall_congr' fun htrue => ?_
      have heq := hequal l hl r hr htrue
      rw [← joinKey_eq_iff heq, Join.agree, Bool.and_eq_true, decide_eq_true_eq]
      exact and_iff_right (joinKey_isSome heq)
    · -- a row that joined has a value in the column
      intro l hl r hr hholds
      have heq := hequal l hl r hr (holds_iff.mp hholds)
      rw [hright l hl, decide_eq_true_eq]
      intro hnull
      rw [hnull, Datum.sameValue_swap] at heq
      cases heq
    · intro l hl row hrow
      rw [unmatched] at hrow
      split at hrow
      · have hnull : (List.replicate table.width Datum.null).getD (rk - width tables) .null =
            .null := by
          rw [List.getD_eq_getElem?_getD, List.getElem?_replicate]
          split <;> rfl
        rw [List.mem_singleton.mp hrow, hright l hl, hnull]
        rfl
      · cases hrow

end

/-! ## A lost pair -/

def oneColumn (name column : String) (ctype : ColumnType) : TableDef where
  name := name
  schema := ⟨[⟨column, ctype, true, false, none⟩], 0⟩
  indexes := []
  foreignKeys := []
  stats := none

/-- `TRUE` equals 1 in the nested loop and is looked up in vain. -/
theorem bool_int_pair_lost :
    Join.outcome (joinStep ⟨fun _ => "", fun _ => ""⟩ [oneColumn "db.a" "x" .bool]
        (oneColumn "db.b" "y" .int) (.cmp (.column "x") .eq (.column "y")) .inner
        [[.bool true]] [[.int 1]]) ≠
      Join.outcome (nestedLoopStep ⟨fun _ => "", fun _ => ""⟩ [oneColumn "db.a" "x" .bool]
        (oneColumn "db.b" "y" .int) (.cmp (.column "x") .eq (.column "y")) .inner
        [[.bool true]] [[.int 1]]) := by
  decide

end HenchDB
