import HenchDB.Session.Insert
import HenchDB.Sql.DatetimeText
import HenchDB.Wire.Bind
import HenchDB.Wire.Copy

/-!
# `INSERT` as a text

The server hands rows to the engine as the text of an `INSERT`.  `parseSql` is
the way of such a text through the parser: the tokens, `parse_insert`, and the
test for trailing input.

An expression is read in full where it is one literal in front of a comma or a
closing parenthesis; what `parse_expr` makes of other tokens is left to the
`Grammar`.  So the text that `insertText` writes is read back as the statement
with the literals (`parseSql_insertText`).  A moment comes back as the text that
is printed of it.
-/

namespace HenchDB

open Session Lexer DateTime

/-! ## The parser -/

/-- What the parser of an `INSERT` asks of code around it. -/
structure Grammar where
  /-- The `{:?}` of a token. -/
  debug : Token → String
  /-- `str::parse::<f64>`. -/
  parseFloat : String → Option UInt64
  /-- `parse_expr` of tokens that do not begin with a literal of their own. -/
  otherExpr : List Token → Except Error (Expr × List Token)

namespace Grammar

variable (g : Grammar)

def peek (ts : List Token) : Token := ts.head?.getD .eof

/-- `eat_sym`, with the tokens behind it. -/
def eatSym (c : Char) : List Token → Option (List Token)
  | t :: ts => if t = .sym c then some ts else none
  | [] => none

def expectSym (c : Char) (ts : List Token) : Except Error (List Token) :=
  match eatSym c ts with
  | some rest => .ok rest
  | none => .error (.parseError s!"expected '{c}', got {g.debug (peek ts)}")

def isKw (word : String) : Token → Bool
  | .ident s => s.toList.map Char.toUpper = word.toList
  | _ => false

def expectKw (word : String) (ts : List Token) : Except Error (List Token) :=
  if isKw word (peek ts) then .ok ts.tail
  else .error (.parseError s!"expected {word}, got {g.debug (peek ts)}")

def expectIdent (ts : List Token) : Except Error (String × List Token) :=
  match peek ts with
  | .ident s => .ok (s, ts.tail)
  | t => .error (.parseError s!"expected identifier, got {g.debug t}")

/-- The literal that a token is to `parse_operand`; a word that is none begins
another expression. -/
def literal : Token → Option (Except Error Expr)
  | .str s => some (.ok (.literal (.text s)))
  | .number n =>
    some (if '.' ∈ n.toList then
      match g.parseFloat n with
      | some v => .ok (.literal (.float v))
      | none => .error (.parseError s!"bad number '{n}'")
    else
      match parseI64 n.toList with
      | some v => .ok (.literal (.int v))
      | none => .error (.parseError s!"bad integer '{n}'"))
  | .ident s =>
    if isKw "TRUE" (.ident s) then some (.ok (.literal (.bool true)))
    else if isKw "FALSE" (.ident s) then some (.ok (.literal (.bool false)))
    else if isKw "NULL" (.ident s) then some (.ok (.literal .null))
    else none
  | _ => none

def parseExpr (ts : List Token) : Except Error (Expr × List Token) :=
  match ts with
  | t :: .sym c :: rest =>
    if c = ',' ∨ c = ')' then
      match g.literal t with
      | some e => e.map fun e => (e, .sym c :: rest)
      | none => g.otherExpr ts
    else g.otherExpr ts
  | _ => g.otherExpr ts

/-- Items with commas between them; every round takes a token, so it never uses
up a count that exceeds the number of tokens. -/
def separated {α : Type} (item : List Token → Except Error (α × List Token)) :
    Nat → List Token → Except Error (List α × List Token)
  | 0, ts => .error (.parseError s!"expected operand, got {g.debug (peek ts)}")
  | n + 1, ts => do
    let (a, ts) ← item ts
    match eatSym ',' ts with
    | some ts => do
      let (more, ts) ← separated item n ts
      return (a :: more, ts)
    | none => return ([a], ts)

def parenthesized {α : Type} (item : List Token → Except Error (α × List Token))
    (ts : List Token) : Except Error (List α × List Token) := do
  let ts ← g.expectSym '(' ts
  let (items, ts) ← g.separated item (ts.length + 1) ts
  return (items, ← g.expectSym ')' ts)

/-- The columns of an `INSERT`, if it names them. -/
def columnList (ts : List Token) : Except Error (Option (List String) × List Token) :=
  match eatSym '(' ts with
  | some _ => (g.parenthesized g.expectIdent ts).map fun names => (some names.1, names.2)
  | none => .ok (none, ts)

def parseInsert (ts : List Token) : Except Error (InsertStmt × List Token) := do
  let ts ← g.expectKw "INTO" ts.tail
  let (table, ts) ← g.expectIdent ts
  let (columns, ts) ← g.columnList ts
  let ts ← g.expectKw "VALUES" ts
  let (rows, ts) ← g.separated (g.parenthesized g.parseExpr) (ts.length + 1) ts
  return ({ table, columns, rows }, ts)

/-- `parse_sql` of a text that begins with `INSERT`. -/
def parseSql (sql : List Char) : Except Error InsertStmt := do
  let ts ← tokenize sql
  let (stmt, ts) ← g.parseInsert ts
  let ts := (eatSym ';' ts).getD ts
  if peek ts = .eof then return stmt
  else .error (.parseError s!"unexpected trailing input: {g.debug (peek ts)}")

end Grammar

/-! ## The text -/

def tupleText (fmt : FloatText) (row : List Datum) : List Char :=
  '(' :: List.intercalate [','] (row.map (datumLiteral fmt)) ++ [')']

/-- The columns of an `INSERT` in parentheses, if it names them. -/
def columnsText (columns : Option (List String)) : List Char :=
  columns.elim [] fun names => " (".toList ++ List.intercalate [','] (names.map String.toList) ++ [')']

def insertText (table : String) (columns : Option (List String)) (tuples : List (List Char)) :
    List Char :=
  "INSERT INTO ".toList ++ table.toList ++ columnsText columns ++ " VALUES ".toList ++
    List.intercalate [','] tuples

def IsName (s : String) : Prop :=
  ∃ c word, s.toList = c :: word ∧ (c.isAlpha ∨ c = '_') ∧ ∀ d ∈ word, isIdent d

theorem isName_insert : IsName "INSERT" :=
  ⟨'I', ['N', 'S', 'E', 'R', 'T'], by decide, by decide, List.all_iff_forall_prop.mp (by decide)⟩

theorem isName_into : IsName "INTO" :=
  ⟨'I', ['N', 'T', 'O'], by decide, by decide, List.all_iff_forall_prop.mp (by decide)⟩

theorem isName_values : IsName "VALUES" :=
  ⟨'V', ['A', 'L', 'U', 'E', 'S'], by decide, by decide, List.all_iff_forall_prop.mp (by decide)⟩

/-- What the parser reads where a value is written. -/
def readBack : Datum → Datum
  | .dateTime v => .text (formatDatetimeMicros v)
  | d => d

def noFloat : Datum → Bool
  | .float _ => false
  | _ => true

/-! ## Lexing -/

/-- A text that stands in front of a delimiter, or ends. -/
def Delimits (rest : List Char) : Prop := ∀ d, rest.head? = some d → isDelimiter d

/-- A text is these tokens, if a delimiter follows. -/
def Lexes (xs : List Char) (toks : List Token) : Prop :=
  ∀ rest ts, Delimits rest → tokenize rest = .ok ts → tokenize (xs ++ rest) = .ok (toks ++ ts)

theorem delimits_comma (cs : List Char) : Delimits (',' :: cs) := by
  intro d hd
  cases hd
  rfl

theorem delimits_close (cs : List Char) : Delimits (')' :: cs) := by
  intro d hd
  cases hd
  rfl

theorem delimits_blank (cs : List Char) : Delimits (' ' :: cs) := by
  intro d hd
  cases hd
  rfl

theorem delimits_nil : Delimits [] := by
  intro d hd
  cases hd

section Lexing

variable {fmt : FloatText} {c : Char} {cs rest : List Char} {t : Token} {ts : List Token}

theorem tokenize_token (hwhite : ¬isWhite c) (hcomment : ¬(c = '-' ∧ cs.head? = some '-'))
    (hread : readToken symbols c cs = .ok (t, rest)) (h : tokenize rest = .ok ts) :
    tokenize (c :: cs) = .ok (t :: ts) := by
  rw [tokenize] at h ⊢
  rw [tokenizeWith_token symbols_dash hwhite hcomment, hread]
  simp only [bind, Except.bind, h]
  rfl

theorem tokenize_nil : tokenize [] = .ok [.eof] := rfl

theorem tokenize_blank (h : tokenize rest = .ok ts) : tokenize (' ' :: rest) = .ok ts := by
  rw [tokenize] at h ⊢
  rw [tokenizeWith_white symbols_dash (by decide), h]

theorem tokenize_sym (hc : c ∈ ['(', ')', ',']) (h : tokenize rest = .ok ts) :
    tokenize (c :: rest) = .ok (.sym c :: ts) := by
  have hsym : ∀ e ∈ ['(', ')', ','], isWhite e = false ∧ e ≠ '-' ∧ ¬(e = '\'' ∨ e = '"') ∧
      e.isDigit = false ∧ ¬(e.isAlpha ∨ e = '_') ∧ e ∈ symbols :=
    List.all_iff_forall_prop.mp (by decide)
  obtain ⟨hwhite, hdash, hquote, hdigit, halpha, hmem⟩ := hsym c hc
  refine tokenize_token (by simp [hwhite]) (fun hcomment => hdash hcomment.1) ?_ h
  rw [readToken, if_neg hquote, if_neg (by simp [hdigit]), if_neg halpha,
    if_neg fun hminus => hdash hminus.1, if_pos hmem]

theorem lexes_name {s : String} (hs : IsName s) : Lexes s.toList [.ident s] := by
  obtain ⟨c, word, hlist, hc, hword⟩ := hs
  intro rest ts hrest h
  have hread : readToken symbols c (word ++ rest) = .ok (.ident s, rest) := by
    rcases hc with hc | rfl
    · rw [readToken_word hc hword hrest, ← hlist, String.ofList_toList]
    · have hstop : rest.takeWhile isIdent = [] ∧ rest.dropWhile isIdent = rest := by
        cases rest with
        | nil => exact ⟨rfl, rfl⟩
        | cons d ds =>
          have hd : isIdent d = false :=
            isDelimiter_continues (t := .ident "") (hrest d rfl) (by simp)
          simp [hd]
      rw [readToken, if_neg (by decide), if_neg (by decide), if_pos (.inr rfl), readIdent,
        List.takeWhile_append_of_pos hword, List.dropWhile_append_of_pos hword, hstop.1, hstop.2,
        List.append_nil, ← hlist, String.ofList_toList]
  have hdash : c ≠ '-' := by
    rintro rfl
    rcases hc with hc | hc <;> exact absurd hc (by decide)
  have hwhite : ¬isWhite c := by
    have hident : isIdent c := by
      rcases hc with hc | rfl
      · simp [isIdent, Char.isAlphanum, hc]
      · decide
    obtain ⟨hlow, hhigh⟩ := isIdent_toNat hident
    rw [not_isWhite (by omega) hhigh]
    simp
  rw [hlist]
  exact tokenize_token hwhite (fun h => hdash h.1) hread h

theorem tokenize_word {s : String} (hs : IsName s) (h : tokenize rest = .ok ts) :
    tokenize (s.toList ++ ' ' :: rest) = .ok (.ident s :: ts) := by
  have hname := lexes_name hs (' ' :: rest) ts (delimits_blank rest) (tokenize_blank h)
  rwa [List.singleton_append] at hname

theorem escapeQuotes_format (v : Int64) :
    escapeQuotes (formatDatetimeMicros v).toList = (formatDatetimeMicros v).toList := by
  have hpadded : ∀ width n, '\'' ∉ (padded width n).toList := by
    intro width n hmem
    have hdigits : '\'' ∉ Nat.toDigits 10 n.natAbs := fun h =>
      absurd (Nat.isDigit_of_mem_toDigits (by decide) (by decide) h) (by decide)
    rw [padded] at hmem
    split at hmem <;> simp [toList_pushn, List.mem_replicate] at hmem <;> exact hdigits hmem
  have hnone : '\'' ∉ (formatDatetimeMicros v).toList := by
    rw [format_eq]
    split <;> simp [hpadded]
  have hsame : ∀ s : List Char, '\'' ∉ s → escapeQuotes s = s := by
    intro s hs
    induction s with
    | nil => rfl
    | cons d s ih =>
      rw [List.mem_cons, not_or] at hs
      rw [escapeQuotes_cons, if_neg (Ne.symm hs.1), ih hs.2]
      rfl
  exact hsame _ hnone

theorem lexes_literal (fmt : FloatText) {d : Datum} (hd : noFloat d) :
    Lexes (datumLiteral fmt d) [literalToken fmt d] := by
  have hbindable : ∀ {d : Datum}, bindable d → Lexes (datumLiteral fmt d) [literalToken fmt d] := by
    intro d hd rest ts hrest h
    obtain ⟨c, lex, hlit, hwhite, -, -, hread⟩ := readToken_literal fmt hd
    obtain ⟨hcomment, hread⟩ := hread rest hrest
    rw [hlit]
    exact tokenize_token hwhite hcomment hread h
  cases d with
  | float v => cases hd
  | dateTime v =>
    have htext := hbindable (d := .text (formatDatetimeMicros v)) rfl
    rw [datumLiteral, escapeQuotes_format] at htext
    exact htext
  | null => exact hbindable rfl
  | int n => exact hbindable rfl
  | text s => exact hbindable rfl
  | bool b => exact hbindable rfl

/-- Texts with commas between them are their tokens with commas between them. -/
theorem lexes_intercalate {α : Type} {text : α → List Char} {toks : α → List Token} :
    ∀ {as : List α}, (∀ a ∈ as, Lexes (text a) (toks a)) → as ≠ [] →
      Lexes (List.intercalate [','] (as.map text)) (List.intercalate [.sym ','] (as.map toks))
  | [], _, hne => absurd rfl hne
  | [a], h, _ => by simpa [List.intercalate] using h a List.mem_cons_self
  | a :: b :: as, h, _ => by
    intro rest ts hrest hts
    have hmore := lexes_intercalate (fun a ha => h a (List.mem_cons_of_mem _ ha))
      (List.cons_ne_nil b as) rest ts hrest hts
    have hcomma := tokenize_sym (c := ',') (by decide) hmore
    have hhead := h a List.mem_cons_self _ _ (delimits_comma _) hcomma
    simpa [List.intercalate, List.intersperse] using hhead

theorem tokenize_parenthesized {α : Type} {text : α → List Char} {toks : α → List Token}
    {as : List α} (has : ∀ a ∈ as, Lexes (text a) (toks a)) (hne : as ≠ [])
    (h : tokenize rest = .ok ts) :
    tokenize ('(' :: List.intercalate [','] (as.map text) ++ ')' :: rest) =
      .ok (.sym '(' :: List.intercalate [.sym ','] (as.map toks) ++ .sym ')' :: ts) :=
  tokenize_sym (by decide)
    (lexes_intercalate has hne _ _ (delimits_close rest) (tokenize_sym (by decide) h))

end Lexing

/-! ## Parsing -/

def tupleTokens (fmt : FloatText) (row : List Datum) : List Token :=
  .sym '(' :: List.intercalate [.sym ','] (row.map fun d => [literalToken fmt d]) ++ [.sym ')']

theorem lexes_tuple (fmt : FloatText) {row : List Datum} (hrow : ∀ d ∈ row, noFloat d) (hne : row ≠ []) :
    Lexes (tupleText fmt row) (tupleTokens fmt row) := by
  intro rest ts hrest h
  have htuple := tokenize_parenthesized (fun d hd => lexes_literal fmt (hrow d hd)) hne h
  simpa [tupleText, tupleTokens] using htuple

theorem digits_toDigits (n : Nat) : digits (Nat.toDigits 10 n) = some n :=
  digits_eq.mpr ⟨Nat.toDigits_ne_nil, fun _ hc => Nat.isDigit_of_mem_toDigits (by decide) (by decide) hc,
    Nat.ofDigitChars_ten_toDigits.symm⟩

/-- An integer is read as it is printed. -/
theorem parseI64_toString (n : Int64) : parseI64 (toString n.toInt).toList = some n := by
  have hrange : -2 ^ 63 ≤ n.toInt ∧ n.toInt < 2 ^ 63 := ⟨n.le_toInt, n.toInt_lt⟩
  have hfilter : (some n.toInt).filter (fun n => decide (-2 ^ 63 ≤ n ∧ n < 2 ^ 63)) = some n.toInt := by
    simpa using hrange
  have hnat : ∀ m : Nat, ∃ c cs, Nat.toDigits 10 m = c :: cs ∧ c ≠ '+' ∧ c ≠ '-' := by
    intro m
    obtain ⟨c, cs, hlist⟩ := List.exists_cons_of_ne_nil (Nat.toDigits_ne_nil (b := 10) (n := m))
    have hc : c.isDigit := Nat.isDigit_of_mem_toDigits (b := 10) (n := m) (by decide) (by decide)
      (by simp [hlist])
    refine ⟨c, cs, hlist, ?_, ?_⟩ <;> (rintro rfl; cases hc)
  have hparse : parseI64 (toString n.toInt).toList =
      ((some n.toInt).filter fun n => decide (-2 ^ 63 ≤ n ∧ n < 2 ^ 63)).map Int64.ofInt := by
    cases hn : n.toInt with
    | ofNat m =>
      have hlist : (toString (Int.ofNat m)).toList = Nat.toDigits 10 m := Nat.toList_repr
      obtain ⟨c, cs, hcons, hplus, hminus⟩ := hnat m
      rw [hlist, parseI64, digits_toDigits]
      · rfl
      · intro s hs
        rw [hcons] at hs
        exact hplus (List.cons.inj hs).1
      · intro s hs
        rw [hcons] at hs
        exact hminus (List.cons.inj hs).1
    | negSucc m =>
      have hlist : (toString (Int.negSucc m)).toList = '-' :: Nat.toDigits 10 (m + 1) := by
        rw [show toString (Int.negSucc m) = "-" ++ toString (m + 1) from rfl, String.toList_append]
        exact congrArg ('-' :: ·) Nat.toList_repr
      rw [hlist, parseI64, digits_toDigits]
      rfl
  rw [hparse, hfilter, Option.map_some, Int64.ofInt_toInt]

namespace Grammar

variable (g : Grammar) {fmt : FloatText}

theorem literal_token {d : Datum} (hd : noFloat d) :
    g.literal (literalToken fmt d) = some (.ok (.literal (readBack d))) := by
  cases d with
  | null => rfl
  | int n =>
    obtain ⟨c, ds, hlist, hds, hc⟩ := toList_toString_int n.toInt
    have hpoint : '.' ∉ (toString n.toInt).toList := by
      rw [hlist, List.mem_cons, not_or]
      refine ⟨?_, fun hmem => absurd (hds _ hmem) (by decide)⟩
      rintro rfl
      rcases hc with hc | ⟨hc, -⟩
      · cases hc
      · cases hc
    rw [literalToken, literal, if_neg hpoint, parseI64_toString]
    rfl
  | float v => cases hd
  | text s => rfl
  | bool b => cases b <;> rfl
  | dateTime v => rfl

theorem parseExpr_literal {d : Datum} (hd : noFloat d) {c : Char} (hc : c = ',' ∨ c = ')') (ts : List Token) :
    g.parseExpr (literalToken fmt d :: .sym c :: ts) = .ok (.literal (readBack d), .sym c :: ts) := by
  rw [parseExpr, if_pos hc, literal_token g hd]
  rfl

/-- Items with commas between them are read one by one. -/
theorem separated_intercalate {α β : Type} {item : List Token → Except Error (β × List Token)}
    {toks : α → List Token} {val : α → β} {rest : List Token} (hrest : eatSym ',' rest = none)
    : ∀ {as : List α} {n : Nat},
    (∀ a ∈ as, item (toks a ++ rest) = .ok (val a, rest) ∧
      ∀ ts, item (toks a ++ .sym ',' :: ts) = .ok (val a, .sym ',' :: ts)) → as ≠ [] → as.length ≤ n →
      g.separated item n (List.intercalate [.sym ','] (as.map toks) ++ rest) = .ok (as.map val, rest)
  | [], _, _, hne, _ => absurd rfl hne
  | a :: as, 0, _, _, hn => absurd hn (Nat.not_succ_le_zero _)
  | [a], n + 1, h, _, _ => by
    have hitem := (h a List.mem_cons_self).1
    simp only [List.intercalate, List.map_cons, List.map_nil, List.intersperse, List.flatten_cons,
      List.flatten_nil, List.append_nil, separated, hitem, bind, Except.bind, hrest]
    rfl
  | a :: b :: as, n + 1, h, _, hn => by
    have hitem := (h a List.mem_cons_self).2
    have hmore := separated_intercalate (n := n) hrest (fun a ha => h a (List.mem_cons_of_mem _ ha))
      (List.cons_ne_nil b as) (by simpa using hn)
    have hcut : List.intercalate [.sym ','] ((a :: b :: as).map toks) ++ rest =
        toks a ++ .sym ',' :: (List.intercalate [.sym ','] ((b :: as).map toks) ++ rest) := by
      simp [List.intercalate]
    rw [hcut, separated, hitem]
    simp only [bind, Except.bind, eatSym, if_true, hmore]
    rfl

/-- There are no more items than tokens and one. -/
theorem length_le_intercalate {α : Type} {toks : α → List Token} : ∀ as : List α,
    as.length ≤ (List.intercalate [.sym ','] (as.map toks)).length + 1
  | [] => Nat.zero_le _
  | [a] => by simp
  | a :: b :: as => by
    have hmore : (b :: as).length ≤
        (List.intercalate [.sym ','] ((b :: as).map toks)).length + 1 :=
      length_le_intercalate (b :: as)
    have hcut : List.intercalate [.sym ','] ((a :: b :: as).map toks) =
        toks a ++ .sym ',' :: List.intercalate [.sym ','] ((b :: as).map toks) := by
      simp [List.intercalate]
    rw [hcut]
    simp only [List.length_append, List.length_cons] at hmore ⊢
    omega

theorem parenthesized_intercalate {α β : Type} {item : List Token → Except Error (β × List Token)}
    {toks : α → List Token} {val : α → β} {as : List α}
    (h : ∀ a ∈ as, ∀ c, c = ',' ∨ c = ')' → ∀ ts, item (toks a ++ .sym c :: ts) = .ok (val a, .sym c :: ts))
    (hne : as ≠ []) (rest : List Token) :
    g.parenthesized item (.sym '(' :: List.intercalate [.sym ','] (as.map toks) ++ .sym ')' :: rest) =
      .ok (as.map val, rest) := by
  have hcount : as.length ≤ (List.intercalate [.sym ','] (as.map toks)).length + 1 :=
    length_le_intercalate as
  have hitems : g.separated item
      ((List.intercalate [.sym ','] (as.map toks) ++ .sym ')' :: rest).length + 1)
      (List.intercalate [.sym ','] (as.map toks) ++ .sym ')' :: rest) =
        .ok (as.map val, .sym ')' :: rest) :=
    g.separated_intercalate rfl
      (fun a ha => ⟨h a ha ')' (.inr rfl) rest, h a ha ',' (.inl rfl)⟩) hne
      (by rw [List.length_append]; omega)
  rw [parenthesized]
  simp only [List.cons_append, expectSym, eatSym, if_true, bind, Except.bind, hitems]
  rfl

theorem parenthesized_tuple {row : List Datum} (hrow : ∀ d ∈ row, noFloat d) (hne : row ≠ [])
    (rest : List Token) :
    g.parenthesized g.parseExpr (tupleTokens fmt row ++ rest) =
      .ok (row.map fun d => .literal (readBack d), rest) := by
  have hread : g.parenthesized g.parseExpr
      (.sym '(' :: List.intercalate [.sym ','] (row.map fun d => [literalToken fmt d]) ++
        .sym ')' :: rest) = .ok (row.map fun d => .literal (readBack d), rest) :=
    g.parenthesized_intercalate (fun d hd c hc ts => g.parseExpr_literal (hrow d hd) hc ts) hne rest
  simpa [tupleTokens] using hread

def columnTokens (columns : Option (List String)) : List Token :=
  columns.elim [] fun names =>
    .sym '(' :: List.intercalate [.sym ','] (names.map fun s => [.ident s]) ++ [.sym ')']

/-- The tokens of an `INSERT` of tuples. -/
def insertTokens (fmt : FloatText) (table : String) (columns : Option (List String))
    (rows : List (List Datum)) : List Token :=
  .ident "INSERT" :: .ident "INTO" :: (.ident table :: columnTokens columns ++
    .ident "VALUES" :: (List.intercalate [.sym ','] (rows.map (tupleTokens fmt)) ++ [.eof]))

/-- The names of an `INSERT` can be read, and its rows hold values but no floats. -/
structure Writable (table : String) (columns : Option (List String)) (rows : List (List Datum)) : Prop where
  table : IsName table
  columns : ∀ names, columns = some names → names ≠ [] ∧ ∀ s ∈ names, IsName s
  rows : rows ≠ [] ∧ ∀ row ∈ rows, row ≠ [] ∧ ∀ d ∈ row, noFloat d

variable {table : String} {columns : Option (List String)} {rows : List (List Datum)}

/-- The text of an `INSERT` is its tokens. -/
theorem tokenize_insertText (h : Writable table columns rows) :
    tokenize (insertText table columns (rows.map (tupleText fmt))) =
      .ok (insertTokens fmt table columns rows) := by
  have hrows : tokenize (List.intercalate [','] (rows.map (tupleText fmt))) =
      .ok (List.intercalate [.sym ','] (rows.map (tupleTokens fmt)) ++ [.eof]) := by
    have htuples := lexes_intercalate
      (fun row hrow => lexes_tuple fmt (h.rows.2 row hrow).2 (h.rows.2 row hrow).1)
      h.rows.1 [] [.eof] delimits_nil tokenize_nil
    rwa [List.append_nil] at htuples
  have hvalues := tokenize_word isName_values hrows
  have hcolumns : ∀ {ts}, tokenize (' ' :: ("VALUES".toList ++
        ' ' :: List.intercalate [','] (rows.map (tupleText fmt)))) = .ok ts →
      tokenize (table.toList ++ columnsText columns ++ ' ' :: ("VALUES".toList ++
        ' ' :: List.intercalate [','] (rows.map (tupleText fmt)))) =
        .ok (.ident table :: columnTokens columns ++ ts) := by
    intro ts hts
    cases columns with
    | none =>
      simpa [columnsText, columnTokens] using lexes_name h.table _ _ (delimits_blank _) hts
    | some names =>
      obtain ⟨hne, hnames⟩ := h.columns names rfl
      have hlist := tokenize_word h.table
        (tokenize_parenthesized (fun s hs => lexes_name (hnames s hs)) hne hts)
      simpa [columnsText, columnTokens] using hlist
  have hinto := tokenize_word isName_into (hcolumns (tokenize_blank hvalues))
  have hinsert := tokenize_word isName_insert hinto
  have hfirst : "INSERT INTO ".toList = "INSERT".toList ++ ' ' :: ("INTO".toList ++ [' ']) := by simp
  have hmiddle : " VALUES ".toList = ' ' :: ("VALUES".toList ++ [' ']) := by simp
  -- the words are variables here, or else every word is compared with every other
  have hglue : ∀ {first second third middle last : List Char}, first = second ++ ' ' :: (third ++ [' ']) →
      middle = ' ' :: (last ++ [' ']) → ∀ name list tuples : List Char,
        first ++ name ++ list ++ middle ++ tuples =
          second ++ ' ' :: (third ++ ' ' :: (name ++ list ++ ' ' :: (last ++ ' ' :: tuples))) := by
    rintro _ _ _ _ _ rfl rfl name list tuples
    simp
  have htext := hglue hfirst hmiddle table.toList (columnsText columns)
    (List.intercalate [','] (rows.map (tupleText fmt)))
  exact (congrArg tokenize htext).trans hinsert

theorem parseInsert_insertTokens (h : Writable table columns rows) :
    g.parseInsert (insertTokens fmt table columns rows) =
      .ok ({ table, columns, rows := rows.map (List.map fun d => .literal (readBack d)) }, [.eof]) := by
  have hrows : ∀ n, rows.length ≤ n → g.separated (g.parenthesized g.parseExpr) n
      (List.intercalate [.sym ','] (rows.map (tupleTokens fmt)) ++ [.eof]) =
        .ok (rows.map (List.map fun d => .literal (readBack d)), [.eof]) := fun n hn =>
    g.separated_intercalate rfl (fun row hrow =>
      ⟨g.parenthesized_tuple (h.rows.2 row hrow).2 (h.rows.2 row hrow).1 _,
        fun ts => g.parenthesized_tuple (h.rows.2 row hrow).2 (h.rows.2 row hrow).1 _⟩) h.rows.1 hn
  have hcount : rows.length ≤ (List.intercalate [.sym ','] (rows.map (tupleTokens fmt))).length + 1 :=
    length_le_intercalate rows
  have hinto : ∀ ts, g.expectKw "INTO" (.ident "INTO" :: ts) = .ok ts := fun _ => rfl
  have hvalues : ∀ ts, g.expectKw "VALUES" (.ident "VALUES" :: ts) = .ok ts := fun _ => rfl
  have hident : ∀ s ts, g.expectIdent (.ident s :: ts) = .ok (s, ts) := fun _ _ => rfl
  have hafter := hrows
    ((List.intercalate [Token.sym ','] (rows.map (tupleTokens fmt)) ++ [Token.eof]).length + 1)
    (by rw [List.length_append]; omega)
  rw [insertTokens, parseInsert]
  cases columns with
  | none =>
    simp only [columnTokens, Option.elim_none, List.cons_append, List.nil_append,
      List.tail_cons, columnList, hinto, hident, hvalues, bind, Except.bind, eatSym, reduceCtorEq,
      if_false, hafter]
    rfl
  | some names =>
    obtain ⟨hne, -⟩ := h.columns names rfl
    have hlist : ∀ rest, g.parenthesized g.expectIdent
        (.sym '(' :: List.intercalate [.sym ','] (names.map fun s => [.ident s]) ++
          .sym ')' :: rest) = .ok (names.map fun s => s, rest) :=
      g.parenthesized_intercalate (fun s _ c _ ts => hident s _) hne
    simp only [columnTokens, Option.elim_some, List.cons_append, List.nil_append, List.append_assoc,
      List.tail_cons, columnList, hinto, hident, bind, Except.bind, eatSym, if_true,
      List.map_id'] at hlist ⊢
    rw [hlist]
    simp only [Except.map, hvalues, hafter]
    rfl

theorem parseSql_insertText (h : Writable table columns rows) :
    g.parseSql (insertText table columns (rows.map (tupleText fmt))) =
      .ok { table, columns, rows := rows.map (List.map fun d => .literal (readBack d)) } := by
  rw [parseSql, tokenize_insertText h]
  simp only [bind, Except.bind, g.parseInsert_insertTokens h]
  rfl

end Grammar

end HenchDB
