import HenchDB.Lib.Text
import HenchDB.Session.Pins
import HenchDB.Wire.Copy
import HenchDB.Wire.Split

/-!
# Routing a statement by its text

Before it parses a statement `execute` looks at its text: the replica gate takes
the first word, a few statements are known as a whole, and single-row reads and
writes by primary key are cut out of the text without the parser
(`fastPointSelect`, `fastPointUpdate`).

The offsets come from searches, apart from the fixed ones: seven bytes for the verb
and four for `SET`.  The read asks for its seven bytes with `get`, the write splits
there, and panics where a character lies across the cut (`UpdateCuts`).

What the engine makes of the pieces is a parameter.
-/

namespace HenchDB.Router

open Text DateTime
open Pins (eqIgnoreCase firstWord)

/-! ## The pieces of a statement -/

/-- `strip_suffix(';')`. -/
def stripSemicolon (s : List Char) : List Char :=
  if s.getLast? = some ';' then s.dropLast else s

def trimStart (s : List Char) : List Char := s.dropWhile isWhite

/-- `split_once('=')`, both sides trimmed. -/
def splitEquals (s : List Char) : Option (List Char × List Char) :=
  if '=' ∈ s then some (trim (s.takeWhile (· ≠ '=')), trim (s.dropWhile (· ≠ '=')).tail)
  else none

/-- The verbs of `is_write_statement`. -/
def writeVerbs : List String :=
  ["INSERT", "UPDATE", "DELETE", "CREATE", "DROP", "ALTER", "GRANT", "REVOKE", "TRUNCATE",
    "BACKUP", "CHECKPOINT", "ANALYZE", "ARCHIVE"]

def isWriteStatement (sql : List Char) : Bool :=
  let verb := (firstWord sql).rdropWhile fun c => c = ';' ∨ c = '('
  writeVerbs.any fun v => v.toList = verb.map Char.toUpper

/-- `parse_simple_literal`; the parser of floats is a parameter. -/
def parseSimpleLiteral (parseFloat : String → Option UInt64) (s : List Char) :
    Except Panic (Option Datum) :=
  if eqIgnoreCase "null" s then .ok (some .null)
  else if eqIgnoreCase "true" s then .ok (some (.bool true))
  else if eqIgnoreCase "false" s then .ok (some (.bool false))
  else
    match parseI64 s with
    | some n => .ok (some (.int n))
    | none =>
      match parseFloat (String.ofList s) with
      | some f => .ok (some (.float f))
      | none =>
        if (s.head? = some '\'' ∧ s.getLast? = some '\'' ∧ 2 ≤ byteLen s) ∨
            (s.head? = some '"' ∧ s.getLast? = some '"' ∧ 2 ≤ byteLen s) then
          (between 1 (byteLen s - 1) s).map fun t => some (.text (String.ofList t))
        else .ok none

/-- A read that `try_fast_point_select` takes to the engine. -/
structure PointSelect where
  column : List Char
  table : List Char
  pkColumn : List Char
  pkValue : Datum
deriving DecidableEq, Repr

/-- `try_fast_point_select` up to the table; `busy` is a transaction or a snapshot. -/
def fastPointSelect (parseFloat : String → Option UInt64) (busy : Bool) (sql : List Char) :
    Except Panic (Option PointSelect) := do
  let s := trim (stripSemicolon sql)
  if busy then return none
  else if byteLen s < 15 then return none
  else if !((splitAt? 7 s).any fun p => eqIgnoreCase "SELECT " p.1) then return none
  else
    let rest := trimStart (← behind 7 s)
    match findLower " from ".toList rest with
    | none => return none
    | some fromPos =>
      let column := trim (← before fromPos rest)
      let rest := trimStart (← behind (fromPos + 6) rest)
      match findLower " where ".toList rest with
      | none => return none
      | some wherePos =>
        let table := trim (← before wherePos rest)
        let whereClause := trim (← behind (wherePos + 7) rest)
        if table.any isWhite ∨ ',' ∈ column then return none
        else
          match splitEquals whereClause with
          | none => return none
          | some (pkColumn, pkText) =>
            if pkColumn.any isWhite ∨ pkText.any isWhite then return none
            else
              match ← parseSimpleLiteral parseFloat pkText with
              | none => return none
              | some .null => return none
              | some pkValue => return some { column, table, pkColumn, pkValue }

/-- A write that `try_fast_point_update` takes to the engine. -/
structure PointUpdate where
  table : List Char
  column : List Char
  value : Datum
  pkColumn : List Char
  pkValue : Datum
deriving DecidableEq, Repr

/-- The clauses behind `SET` in `try_fast_point_update`. -/
def updateClauses (parseFloat : String → Option UInt64) (table rest : List Char) :
    Except Panic (Option PointUpdate) := do
  match findLower " where ".toList rest with
  | none => return none
  | some wherePos =>
    let setClause := trim (← before wherePos rest)
    let whereClause := trim (← behind (wherePos + 7) rest)
    match splitEquals setClause with
    | none => return none
    | some (column, valueText) =>
      if ',' ∈ valueText then return none
      else
        match splitEquals whereClause with
        | none => return none
        | some (pkColumn, pkText) =>
          if pkText.any isWhite then return none
          else
            match ← parseSimpleLiteral parseFloat valueText with
            | none => return none
            | some value =>
              match ← parseSimpleLiteral parseFloat pkText with
              | none => return none
              | some pkValue => return some { table, column, value, pkColumn, pkValue }

/-- The table of `try_fast_point_update` and the clauses behind it. -/
def updateTable (parseFloat : String → Option UInt64) (rest : List Char) :
    Except Panic (Option PointUpdate) := do
  match find (fun t => t.head?.any isWhite) rest with
  | none => return none
  | some tableEnd =>
    let table ← before tableEnd rest
    let rest := trimStart (← behind tableEnd rest)
    if byteLen rest < 4 then return none
    else
      let (set, rest) ← split 4 rest
      if !eqIgnoreCase "SET " set then return none
      else updateClauses parseFloat table (trimStart rest)

/-- `try_fast_point_update` up to the engine. -/
def fastPointUpdate (parseFloat : String → Option UInt64) (inTxn : Bool) (sql : List Char) :
    Except Panic (Option PointUpdate) := do
  let s := trim (stripSemicolon sql)
  if inTxn then return none
  else if byteLen s < 10 then return none
  else
    let (verb, rest) ← split 7 s
    if !eqIgnoreCase "UPDATE " verb then return none
    else updateTable parseFloat (trimStart rest)

/-! ## The route -/

/-- The transaction statements that `execute_routed` knows by their text. -/
inductive Direct where
  | begin
  | commit
  | rollback
deriving DecidableEq, Repr

/-- What the engine makes of a statement; `none` sends it on. -/
structure Engine (α : Type) where
  parseFloat : String → Option UInt64
  rejected : α
  direct : Direct → α
  select : PointSelect → Option α
  update : PointUpdate → Option α
  statement : List Char → α

/-- What the route of a statement depends on: the replica flag, a transaction, a snapshot. -/
structure Mode where
  readOnly : Bool
  txn : Bool
  snapshot : Bool
deriving DecidableEq, Repr

def executeRouted {α : Type} (e : Engine α) (m : Mode) (trimmed : List Char) : Except Panic α := do
  if eqIgnoreCase "begin" trimmed || eqIgnoreCase "begin;" trimmed then return e.direct .begin
  else if eqIgnoreCase "commit" trimmed || eqIgnoreCase "commit;" trimmed then
    return e.direct .commit
  else if eqIgnoreCase "rollback" trimmed || eqIgnoreCase "rollback;" trimmed then
    return e.direct .rollback
  else
    match (← fastPointSelect e.parseFloat (m.txn || m.snapshot) trimmed).bind e.select with
    | some out => return out
    | none =>
      match (← fastPointUpdate e.parseFloat m.txn trimmed).bind e.update with
      | some out => return out
      | none => return e.statement trimmed

def execute {α : Type} (e : Engine α) (m : Mode) (sql : List Char) : Except Panic α :=
  if m.readOnly && isWriteStatement (trim sql) then .ok e.rejected
  else executeRouted e m (trim sql)

/-! ## Reads -/

variable {α : Type} {parseFloat : String → Option UInt64} {sql : List Char}

/-- A text between two quotes of one byte has an inside. -/
theorem completes_unquote {q : Char} {s : List Char} (hq : q.utf8Size = 1)
    (hhead : s.head? = some q) (hlast : s.getLast? = some q) (hlen : 2 ≤ byteLen s) :
    Completes (between 1 (byteLen s - 1) s) := by
  obtain ⟨t, rfl⟩ := List.head?_eq_some_iff.1 hhead
  have ht : t ≠ [] := by
    rintro rfl
    rw [byteLen, hq, byteLen] at hlen
    omega
  obtain ⟨mid, hmid⟩ := List.getLast?_eq_some_iff.1 hlast
  have hsplit : q :: t = [q] ++ t.dropLast ++ [q] := by
    have hdrop := congrArg List.dropLast hmid
    rw [List.dropLast_concat, List.dropLast_cons_of_ne_nil ht] at hdrop
    rw [hmid, ← hdrop]
    rfl
  have hone : byteLen [q] = 1 := by rw [byteLen, hq, byteLen]
  have hend : byteLen (q :: t) - 1 = byteLen ([q] ++ t.dropLast) := by
    rw [hsplit, byteLen_append, hone]
    omega
  refine ⟨t.dropLast, ?_⟩
  rw [hend, hsplit, ← hone]
  exact between_append [q] t.dropLast [q]

theorem completes_quoted (s : List Char) : Completes (
    if (s.head? = some '\'' ∧ s.getLast? = some '\'' ∧ 2 ≤ byteLen s) ∨
        (s.head? = some '"' ∧ s.getLast? = some '"' ∧ 2 ≤ byteLen s) then
      (between 1 (byteLen s - 1) s).map fun t => some (Datum.text (String.ofList t))
    else .ok none) := by
  split
  · rename_i hquoted
    rcases hquoted with ⟨hhead, hlast, hlen⟩ | ⟨hhead, hlast, hlen⟩
    · exact (completes_unquote (by decide) hhead hlast hlen).map _
    · exact (completes_unquote (by decide) hhead hlast hlen).map _
  · exact completes_ok _

theorem completes_parseSimpleLiteral (s : List Char) :
    Completes (parseSimpleLiteral parseFloat s) := by
  have hquoted := completes_quoted s
  rw [parseSimpleLiteral]
  by_cases h1 : eqIgnoreCase "null" s = true
  · rw [if_pos h1]
    exact completes_ok _
  by_cases h2 : eqIgnoreCase "true" s = true
  · rw [if_neg h1, if_pos h2]
    exact completes_ok _
  by_cases h3 : eqIgnoreCase "false" s = true
  · rw [if_neg h1, if_neg h2, if_pos h3]
    exact completes_ok _
  rw [if_neg h1, if_neg h2, if_neg h3]
  cases parseI64 s with
  | some n => exact completes_ok _
  | none =>
    cases parseFloat (String.ofList s) with
    | some f => exact completes_ok _
    | none => exact hquoted

/-- Where the text has its first seven bytes, the rest is there too. -/
theorem completes_behind_of_isSome {n : Nat} {s : List Char} (h : (splitAt? n s).isSome) :
    Completes (behind n s) := (completes_split_iff.2 h).map _

theorem completes_fastPointSelect (busy : Bool) :
    Completes (fastPointSelect parseFloat busy sql) := by
  rw [fastPointSelect]
  cases busy with
  | true => exact completes_pure _
  | false =>
    simp only [Bool.false_eq_true, if_false]
    split
    · exact completes_pure _
    · split
      · exact completes_pure _
      · rename_i hverb
        have hsplit : (splitAt? 7 (trim (stripSemicolon sql))).isSome := by
          cases h : splitAt? 7 (trim (stripSemicolon sql)) with
          | none =>
            rw [h] at hverb
            exact absurd rfl hverb
          | some p => rfl
        refine (completes_behind_of_isSome hsplit).bind fun rest => ?_
        split
        · exact completes_pure _
        · rename_i fromPos hfrom
          refine (completes_before hfrom).bind fun column => ?_
          refine (completes_behind hfrom).bind fun rest => ?_
          split
          · exact completes_pure _
          · rename_i wherePos hwhere
            refine (completes_before hwhere).bind fun table => ?_
            refine (completes_behind hwhere).bind fun whereClause => ?_
            split
            · exact completes_pure _
            · split
              · exact completes_pure _
              · split
                · exact completes_pure _
                · refine (completes_parseSimpleLiteral _).bind fun lit => ?_
                  rcases lit with _ | _ | _ <;> exact completes_pure _

/-! ## Writes -/

/-- The text behind a table, where `SET` stands. -/
def behindTable (rest : List Char) : List Char :=
  trimStart (rest.dropWhile fun c => !isWhite c)

/-- The cut behind `UPDATE`, and behind the table the cut behind `SET`, are between two
characters. -/
def UpdateCuts (sql : List Char) : Prop :=
  let s := trim (stripSemicolon sql)
  10 ≤ byteLen s →
    match splitAt? 7 s with
    | none => False
    | some (verb, rest) =>
      eqIgnoreCase "UPDATE " verb = true →
        4 ≤ byteLen (behindTable (trimStart rest)) →
          (splitAt? 4 (behindTable (trimStart rest))).isSome

theorem completes_updateClauses (table rest : List Char) :
    Completes (updateClauses parseFloat table rest) := by
  rw [updateClauses]
  split
  · exact completes_pure _
  · rename_i wherePos hwhere
    refine (completes_before hwhere).bind fun setClause => ?_
    refine (completes_behind hwhere).bind fun whereClause => ?_
    split
    · exact completes_pure _
    · split
      · exact completes_pure _
      · dsimp only
        split
        · exact completes_pure _
        · split
          · exact completes_pure _
          · refine (completes_parseSimpleLiteral _).bind fun value => ?_
            cases value with
            | none => exact completes_pure _
            | some value =>
              refine (completes_parseSimpleLiteral _).bind fun pkValue => ?_
              cases pkValue <;> exact completes_pure _

theorem completes_updateTable_iff (rest : List Char) :
    Completes (updateTable parseFloat rest) ↔
      (4 ≤ byteLen (behindTable rest) → (splitAt? 4 (behindTable rest)).isSome) := by
  rw [updateTable, find_head, behindTable]
  by_cases hword : rest.dropWhile (fun c => !isWhite c) = []
  · rw [if_pos hword, hword]
    exact iff_of_true (completes_pure none) fun h => absurd h (by decide)
  · have hrest := List.takeWhile_append_dropWhile (p := fun c => !isWhite c) (l := rest)
    have hbefore : before (byteLen (rest.takeWhile fun c => !isWhite c)) rest =
        .ok (rest.takeWhile fun c => !isWhite c) := by
      have := before_append (rest.takeWhile fun c => !isWhite c) (rest.dropWhile fun c => !isWhite c)
      rwa [hrest] at this
    have hbehind : behind (byteLen (rest.takeWhile fun c => !isWhite c)) rest =
        .ok (rest.dropWhile fun c => !isWhite c) := by
      have := behind_append (rest.takeWhile fun c => !isWhite c) (rest.dropWhile fun c => !isWhite c)
      rwa [hrest] at this
    rw [if_neg hword]
    simp only [hbefore, hbehind, completes_bind_iff, Except.ok.injEq, exists_eq_left']
    by_cases hlen : byteLen (trimStart (rest.dropWhile fun c => !isWhite c)) < 4
    · rw [if_pos hlen]
      exact iff_of_true (completes_pure none) fun h => absurd hlen (Nat.not_lt.2 h)
    · rw [if_neg hlen, completes_bind_iff, ← completes_split_iff]
      constructor
      · rintro ⟨p, hp, -⟩ _
        exact ⟨p, hp⟩
      · intro h
        obtain ⟨p, hp⟩ := h (Nat.not_lt.1 hlen)
        refine ⟨p, hp, ?_⟩
        split
        · exact completes_pure none
        · exact completes_updateClauses _ _

theorem completes_fastPointUpdate_iff (inTxn : Bool) :
    Completes (fastPointUpdate parseFloat inTxn sql) ↔ inTxn = true ∨ UpdateCuts sql := by
  rw [fastPointUpdate, UpdateCuts]
  cases inTxn with
  | true => simp
  | false =>
    simp only [Bool.false_eq_true, if_false, false_or]
    by_cases hlen : byteLen (trim (stripSemicolon sql)) < 10
    · simp [hlen, Nat.not_le.2 hlen]
    · simp only [if_neg hlen, completes_bind_iff, Nat.not_lt.1 hlen, forall_const, Text.split]
      cases splitAt? 7 (trim (stripSemicolon sql)) with
      | none => simp
      | some p =>
        obtain ⟨verb, rest⟩ := p
        simp only [Except.ok.injEq, exists_eq_left']
        by_cases hverb : eqIgnoreCase "UPDATE " verb = true
        · simp only [hverb, Bool.not_true, Bool.false_eq_true, if_false, forall_const]
          exact completes_updateTable_iff (trimStart rest)
        · simp [hverb]

/-! ## The route of a statement -/

theorem byteLen_trim_le (s : List Char) : byteLen (trim s) ≤ byteLen s :=
  byteLen_le_of_sublist ((List.rdropWhile_prefix _ _).sublist.trans (List.dropWhile_sublist _))

theorem byteLen_stripSemicolon_le (s : List Char) : byteLen (stripSemicolon s) ≤ byteLen s := by
  rw [stripSemicolon]
  split
  · exact byteLen_le_of_sublist (List.dropLast_sublist s)
  · exact le_rfl

/-- A text that is another one up to case is as long. -/
theorem byteLen_of_eqIgnoreCase {t : String} {s : List Char} (h : eqIgnoreCase t s = true) :
    byteLen s = byteLen t.toList := by
  rw [← byteLen_lower, of_decide_eq_true h, byteLen_lower]

theorem updateCuts_of_short (h : byteLen sql < 10) : UpdateCuts sql := fun hlen =>
  absurd (hlen.trans ((byteLen_trim_le _).trans (byteLen_stripSemicolon_le sql))) (Nat.not_le.2 h)

theorem updateCuts_of_select {p : List Char × List Char}
    (hsplit : splitAt? 7 (trim (stripSemicolon sql)) = some p)
    (hverb : eqIgnoreCase "SELECT " p.1 = true) : UpdateCuts sql := by
  intro _
  rw [hsplit]
  intro hupdate
  have hsame := (of_decide_eq_true hverb).symm.trans (of_decide_eq_true hupdate)
  exact absurd hsame (by decide)

/-- What is not a `SELECT` goes on. -/
theorem fastPointSelect_none (busy : Bool)
    (h : (splitAt? 7 (trim (stripSemicolon sql))).any (fun p => eqIgnoreCase "SELECT " p.1) = false) :
    fastPointSelect parseFloat busy sql = .ok none := by
  rw [fastPointSelect]
  cases busy with
  | true => rfl
  | false =>
    simp only [Bool.false_eq_true, if_false, h, Bool.not_false, if_true]
    split <;> rfl

/-- The read never stops the route, so the write decides. -/
theorem completes_points_iff (e : Engine α) (m : Mode) :
    Completes (do
      match (← fastPointSelect e.parseFloat (m.txn || m.snapshot) sql).bind e.select with
      | some out => return out
      | none =>
        match (← fastPointUpdate e.parseFloat m.txn sql).bind e.update with
        | some out => return out
        | none => return e.statement sql : Except Panic α) ↔
      Completes (fastPointUpdate e.parseFloat m.txn sql) := by
  have hbehind : Completes (fastPointUpdate e.parseFloat m.txn sql) →
      Completes (do
        match (← fastPointUpdate e.parseFloat m.txn sql).bind e.update with
        | some out => return out
        | none => return e.statement sql : Except Panic α) := by
    intro h
    refine h.bind fun r => ?_
    cases r.bind e.update <;> exact completes_pure _
  by_cases hverb : (splitAt? 7 (trim (stripSemicolon sql))).any
      (fun p => eqIgnoreCase "SELECT " p.1) = true
  · have hcuts : UpdateCuts sql := by
      cases hsplit : splitAt? 7 (trim (stripSemicolon sql)) with
      | none =>
        rw [hsplit] at hverb
        cases hverb
      | some p =>
        rw [hsplit] at hverb
        exact updateCuts_of_select hsplit hverb
    have hupdate := (@completes_fastPointUpdate_iff e.parseFloat _ m.txn).2 (.inr hcuts)
    refine iff_of_true ((completes_fastPointSelect _).bind fun r => ?_) hupdate
    cases r.bind e.select with
    | some out => exact completes_pure out
    | none => exact hbehind hupdate
  · rw [Bool.not_eq_true] at hverb
    rw [fastPointSelect_none _ hverb]
    refine ⟨fun h => ?_, hbehind⟩
    obtain ⟨_, ⟨⟩, h⟩ := completes_bind_iff.1 h
    obtain ⟨r, hr, -⟩ := completes_bind_iff.1 h
    exact ⟨r, hr⟩

theorem completes_executeRouted_iff (e : Engine α) (m : Mode) :
    Completes (executeRouted e m sql) ↔ m.txn = true ∨ UpdateCuts sql := by
  have hupdate := @completes_fastPointUpdate_iff e.parseFloat sql m.txn
  have hshort : ∀ t : String, byteLen t.toList < 10 → eqIgnoreCase t sql = true → UpdateCuts sql :=
    fun t ht h => updateCuts_of_short (byteLen_of_eqIgnoreCase h ▸ ht)
  rw [executeRouted]
  split_ifs with hbegin hcommit hrollback
  · refine iff_of_true (completes_pure _) (.inr ?_)
    exact (Bool.or_eq_true_iff.1 hbegin).elim (hshort _ (by decide)) (hshort _ (by decide))
  · refine iff_of_true (completes_pure _) (.inr ?_)
    exact (Bool.or_eq_true_iff.1 hcommit).elim (hshort _ (by decide)) (hshort _ (by decide))
  · refine iff_of_true (completes_pure _) (.inr ?_)
    exact (Bool.or_eq_true_iff.1 hrollback).elim (hshort _ (by decide)) (hshort _ (by decide))
  · rw [← hupdate]
    exact completes_points_iff e m

/-- Which texts the router survives: every one but those that the write path cuts inside a
character.  The other steps survive every text. -/
theorem router_completes_iff (e : Engine α) (m : Mode) (busy : Bool) :
    (Completes (execute e m sql) ↔
      (m.readOnly = true ∧ isWriteStatement (trim sql) = true) ∨ m.txn = true ∨
        UpdateCuts (trim sql)) ∧
    (Completes (fastPointUpdate e.parseFloat m.txn sql) ↔ m.txn = true ∨ UpdateCuts sql) ∧
    Completes (fastPointSelect e.parseFloat busy sql) ∧
    Completes (parseSimpleLiteral e.parseFloat sql) := by
  refine ⟨?_, completes_fastPointUpdate_iff m.txn, completes_fastPointSelect busy,
    completes_parseSimpleLiteral sql⟩
  rw [execute]
  split
  · rename_i hgate
    exact iff_of_true (completes_ok _) (.inl (Bool.and_eq_true_iff.1 hgate))
  · rename_i hgate
    rw [completes_executeRouted_iff]
    refine (or_iff_right fun h => hgate ?_).symm
    exact Bool.and_eq_true_iff.2 h

def silent : Engine Unit where
  parseFloat := fun _ => none
  rejected := ()
  direct := fun _ => ()
  select := fun _ => none
  update := fun _ => none
  statement := fun _ => ()

/-- The seventh byte of this text is inside a character. -/
theorem drop_table_panics :
    ¬ Completes (execute silent ⟨false, false, false⟩ "DROP aéxxxx".toList) := by
  have hrun : execute silent ⟨false, false, false⟩ "DROP aéxxxx".toList = .error .boundary := by
    decide
  rw [hrun]
  rintro ⟨out, ⟨⟩⟩

end HenchDB.Router
