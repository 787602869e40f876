import HenchDB.Wire.Split

/-!
# Binding parameters

The text of a prepared statement with literals in place of its markers.  The
marker is a token of its own in the template (`templateTokens`); where every
marker stands between delimiters the lexer finds the tokens of the template
again, with one token for each literal (`tokenize_bind`).

The splitter knows no comments, so a quote in a comment can leave it inside
quotes at a marker; there a text with a quote and a `;` cuts the statement.
-/

namespace HenchDB

open Lexer DateTime

/-- The values of the law: integers, booleans, texts and `NULL`. -/
def bindable : Datum → Bool
  | .null | .int _ | .text _ | .bool _ => true
  | .float _ | .dateTime _ => false

def literalToken (fmt : FloatText) : Datum → Token
  | .null => .ident "NULL"
  | .int n => .number (toString n.toInt)
  | .float v => .number (renderFloat fmt v)
  | .bool b => .ident (if b then "TRUE" else "FALSE")
  | .text s => .str s
  | .dateTime v => .str (formatDatetimeMicros v)

def templateTokens (sql : List Char) : Except Error (List Token) := tokenizeWith ('?' :: symbols) sql

/-- The tokens of a template with the tokens of the values for the markers. -/
def bindTokens (fmt : FloatText) : List Token → List Datum → List Token
  | .sym '?' :: ts, v :: vs => literalToken fmt v :: bindTokens fmt ts vs
  | t :: ts, vs => t :: bindTokens fmt ts vs
  | [], _ => []

/-- A character that can stand beside a marker. -/
def isDelimiter (c : Char) : Bool := isWhite c || c ∈ [',', '(', ')', '=', '<', '>', '!']

/-- Every marker stands between delimiters or the ends of the text. -/
def delimited (sql : List Char) : Bool :=
  (findPlaceholders sql).all fun i =>
    (i = 0 || sql[i - 1]?.all isDelimiter) && sql[i + 1]?.all isDelimiter

/-- `substitute` with the literals of values. -/
def bindText (fmt : FloatText) (sql : List Char) (vs : List Datum) : Except String (List Char) :=
  substitute sql (findPlaceholders sql) (vs.map (datumLiteral fmt))

/-! ## Literals -/

variable {c : Char} {cs rest : List Char}

variable {t : Token} {i : Nat} {vs : List Datum}

theorem isDelimiter_continues {d : Char} (hd : isDelimiter d) (ht : ∀ s, t ≠ .sym s) :
    continues t d = false := by
  rw [← Bool.not_eq_true]
  intro h
  have hwhite := not_isWhite_of_continues h
  rw [isDelimiter, hwhite, Bool.false_or, decide_eq_true_iff] at hd
  have hident : ∀ e ∈ [',', '(', ')', '=', '<', '>', '!'], isIdent e = false ∧
      (e.isDigit || e = '.') = false ∧ (decide (e = '\'') || decide (e = '"')) = false :=
    List.all_iff_forall_prop.mp (by decide)
  obtain ⟨hident, hnumber, hstr⟩ := hident d hd
  cases t with
  | ident s => exact absurd (h.symm.trans hident) (by decide)
  | number s => exact absurd (h.symm.trans hnumber) (by decide)
  | str s => exact absurd (h.symm.trans hstr) (by decide)
  | sym s => exact ht s rfl
  | eof => cases h

theorem escapeQuotes_cons (d : Char) (s : List Char) :
    escapeQuotes (d :: s) = (if d = '\'' then ['\'', '\''] else [d]) ++ escapeQuotes s := rfl

theorem readString_escape (s : List Char) (hrest : rest.head? ≠ some '\'') :
    readString '\'' (escapeQuotes s ++ '\'' :: rest) = some (s, rest) := by
  induction s with
  | nil =>
    cases rest with
    | nil => rfl
    | cons d ds =>
      have hd : d ≠ '\'' := by simpa using hrest
      simp [escapeQuotes, readString, hd]
  | cons d s ih =>
    by_cases hd : d = '\''
    · rw [escapeQuotes_cons, if_pos hd, List.append_assoc]
      subst hd
      simp [readString, ih]
    · obtain ⟨e, es, hes⟩ : ∃ e es, escapeQuotes s ++ '\'' :: rest = e :: es :=
        List.exists_cons_of_ne_nil (by simp)
      rw [escapeQuotes_cons, if_neg hd, List.append_assoc, List.singleton_append, hes, readString,
        if_neg hd, ← hes, ih]
      rfl

theorem readDigits_append {ds : List Char} (hds : ∀ d ∈ ds, d.isDigit)
    (hrest : ∀ d, rest.head? = some d → (d.isDigit || d = '.') = false) :
    readDigits false (ds ++ rest) = (ds, rest) := by
  induction ds with
  | nil =>
    cases rest with
    | nil => rfl
    | cons d ds =>
      have hd := hrest d rfl
      simp only [Bool.or_eq_false_iff, decide_eq_false_iff_not] at hd
      simp [readDigits, hd.1, hd.2]
  | cons d ds ih =>
    rw [List.cons_append, readDigits, if_pos (hds d List.mem_cons_self),
      ih fun e he => hds e (List.mem_cons_of_mem _ he)]

/-- The digits of a number, maybe with a sign. -/
theorem toList_toString_int (n : Int) :
    ∃ c ds, (toString n).toList = c :: ds ∧ (∀ d ∈ ds, d.isDigit) ∧
      (c.isDigit ∨ c = '-' ∧ ds ≠ []) := by
  have hnat : ∀ m : Nat, ∃ c ds, (toString m).toList = c :: ds ∧ ∀ d ∈ c :: ds, d.isDigit := by
    intro m
    have hdigits : ∀ d ∈ (toString m).toList, d.isDigit := by
      intro d hd
      rw [Nat.toString_eq_repr, Nat.repr, String.toList_ofList] at hd
      exact Nat.isDigit_of_mem_toDigits (by decide) (by decide) hd
    obtain ⟨c, ds, h⟩ : ∃ c ds, (toString m).toList = c :: ds := by
      refine List.exists_cons_of_ne_nil ?_
      rw [Nat.toString_eq_repr, Nat.repr, String.toList_ofList]
      exact Nat.toDigits_ne_nil
    exact ⟨c, ds, h, h ▸ hdigits⟩
  cases n with
  | ofNat m =>
    obtain ⟨c, ds, h, hall⟩ := hnat m
    exact ⟨c, ds, h, fun d hd => hall d (List.mem_cons_of_mem _ hd), .inl (hall c List.mem_cons_self)⟩
  | negSucc m =>
    obtain ⟨c, ds, h, hall⟩ := hnat (m + 1)
    refine ⟨'-', c :: ds, ?_, hall, .inr ⟨rfl, by simp⟩⟩
    rw [← h, Nat.toString_eq_repr, Int.toString_eq_repr, Int.repr]
    simp

theorem readToken_word {word : List Char} (hc : c.isAlpha) (hword : ∀ d ∈ word, isIdent d)
    (hrest : ∀ d, rest.head? = some d → isDelimiter d) :
    readToken symbols c (word ++ rest) = .ok (.ident (String.ofList (c :: word)), rest) := by
  have hquote : ¬(c = '\'' ∨ c = '"') := by
    rintro (rfl | rfl) <;> cases hc
  have hdigit : ¬c.isDigit := by
    simp only [isAlpha_eq, Char.isDigit, Bool.or_eq_true,
      Bool.and_eq_true, decide_eq_true_eq, UInt32.le_iff_toNat_le, ge_iff_le] at hc ⊢
    rintro ⟨-, h⟩
    rcases hc with hc | hc
    · exact absurd (le_trans hc.1 h) (by decide)
    · exact absurd (le_trans hc.1 h) (by decide)
  have hstop : rest.takeWhile isIdent = [] ∧ rest.dropWhile isIdent = rest := by
    cases rest with
    | nil => exact ⟨rfl, rfl⟩
    | cons d ds =>
      have hd : isIdent d = false := isDelimiter_continues (t := .ident "") (hrest d rfl) (by simp)
      simp [hd]
  rw [readToken, if_neg hquote, if_neg hdigit, if_pos (.inl hc), readIdent,
    List.takeWhile_append_of_pos hword, List.dropWhile_append_of_pos hword, hstop.1, hstop.2,
    List.append_nil]

theorem readToken_number {digits : List Char} (hdigits : ∀ d ∈ digits, d.isDigit)
    (hc : c.isDigit ∨ c = '-' ∧ digits ≠ []) (hrest : ∀ d, rest.head? = some d → isDelimiter d) :
    readToken symbols c (digits ++ rest) = .ok (.number (String.ofList (c :: digits)), rest) := by
  have hread : readNumber c (digits ++ rest) = (.number (String.ofList (c :: digits)), rest) := by
    rw [readNumber, readDigits_append hdigits fun d hd =>
      isDelimiter_continues (t := .number "") (hrest d hd) (by simp)]
  have hquote : ¬(c = '\'' ∨ c = '"') := by
    rintro (rfl | rfl) <;> simp at hc
  rw [readToken, if_neg hquote]
  split
  · rw [hread]
  · next hdigit =>
    obtain ⟨rfl, hne⟩ := hc.resolve_left hdigit
    obtain ⟨d, ds, rfl⟩ := List.exists_cons_of_ne_nil hne
    rw [if_neg (by decide), if_pos ⟨rfl, by simpa using hdigits d List.mem_cons_self⟩, hread]

theorem readToken_literal (fmt : FloatText) {v : Datum} (hv : bindable v) :
    ∃ c lex, datumLiteral fmt v = c :: lex ∧ ¬isWhite c ∧ c ≠ '=' ∧ c ≠ '>' ∧
      ∀ rest, (∀ d, rest.head? = some d → isDelimiter d) →
        ¬(c = '-' ∧ (lex ++ rest).head? = some '-') ∧
          readToken symbols c (lex ++ rest) = .ok (literalToken fmt v, rest) := by
  cases v with
  | null =>
    exact ⟨'N', "ULL".toList, rfl, by decide, by decide, by decide,
      fun rest hrest => ⟨by simp, readToken_word (by decide) (List.all_iff_forall_prop.mp (by decide)) hrest⟩⟩
  | int n =>
    obtain ⟨c, ds, hlit, hds, hc⟩ := toList_toString_int n.toInt
    have hlow : c.isDigit → 48 ≤ c.toNat ∧ c.toNat ≤ 122 := fun h =>
      isIdent_toNat (by simp [isIdent, Char.isAlphanum, h])
    refine ⟨c, ds, hlit, ?_, ?_, ?_, fun rest hrest => ⟨?_, ?_⟩⟩
    · rcases hc with hc | ⟨rfl, -⟩
      · rw [not_isWhite (by have := hlow hc; omega) (hlow hc).2]
        simp
      · decide
    · rintro rfl
      simp at hc
    · rintro rfl
      simp at hc
    · rintro ⟨rfl, hhead⟩
      obtain ⟨-, hne⟩ := hc.resolve_left (by decide)
      obtain ⟨d, ds, rfl⟩ := List.exists_cons_of_ne_nil hne
      have hd := hds d List.mem_cons_self
      obtain rfl : d = '-' := by simpa using hhead
      cases hd
    · rw [readToken_number hds hc hrest, ← hlit, String.ofList_toList]
      rfl
  | float v => cases hv
  | text s =>
    refine ⟨'\'', escapeQuotes s.toList ++ ['\''], rfl, by decide, by decide, by decide,
      fun rest hrest => ⟨by simp, ?_⟩⟩
    have hhead : rest.head? ≠ some '\'' := fun h => absurd (hrest _ h) (by decide)
    rw [List.append_assoc, List.singleton_append, readToken, if_pos (.inl rfl),
      readString_escape _ hhead]
    simp [literalToken]
  | bool b =>
    cases b with
    | false =>
      exact ⟨'F', "ALSE".toList, rfl, by decide, by decide, by decide,
        fun rest hrest => ⟨by simp, readToken_word (by decide)
          (List.all_iff_forall_prop.mp (by decide)) hrest⟩⟩
    | true =>
      exact ⟨'T', "RUE".toList, rfl, by decide, by decide, by decide,
        fun rest hrest => ⟨by simp, readToken_word (by decide)
          (List.all_iff_forall_prop.mp (by decide)) hrest⟩⟩
  | dateTime v => cases hv

/-! ## Markers between delimiters -/

/-- Between the pieces of a text, the character before it given, there are delimiters. -/
def Delimited : Option Char → List Char → List (List Char) → Prop
  | _, _, [] => True
  | prev, p, p' :: ps =>
    (p.getLast?.or prev).all isDelimiter = true ∧ p'.head?.all isDelimiter = true ∧
      Delimited (some '?') p' ps

/-- What is in front of the first piece is only read where that is empty. -/
theorem delimited_append (prev : Option Char) (xs : List Char) (hxs : xs ≠ []) (p : List Char)
    (ps : List (List Char)) : Delimited prev (xs ++ p) ps ↔ Delimited xs.getLast? p ps := by
  cases ps with
  | nil => rfl
  | cons p' ps =>
    obtain ⟨d, hd⟩ : ∃ d, xs.getLast? = some d := by
      rw [← Option.isSome_iff_exists, List.getLast?_isSome]
      exact hxs
    have hlast : ((xs ++ p).getLast?.or prev) = p.getLast?.or xs.getLast? := by
      rw [List.getLast?_append, hd]
      cases p.getLast? <;> rfl
    rw [Delimited, Delimited, hlast]

/-- Where every marker of a text is between delimiters, so are its pieces. -/
theorem delimited_pieces (sql : List Char) {z : Zone} {prev : Option Char} (hcs : sql.drop i = cs)
    (hprev : prev = if i = 0 then none else sql[i - 1]?)
    (h : ∀ j ∈ marks '?' z i cs,
      ((j = 0 || sql[j - 1]?.all isDelimiter) && sql[j + 1]?.all isDelimiter) = true) :
    Delimited prev (pieces '?' z cs).1 (pieces '?' z cs).2 := by
  induction cs generalizing z i prev with
  | nil => trivial
  | cons c cs ih =>
    have hnext : sql.drop (i + 1) = cs := by
      rw [← List.drop_drop, hcs, List.drop_one, List.tail_cons]
    have hc : sql[i]? = some c := by rw [← List.head?_drop, hcs]; rfl
    by_cases hmark : z = .top ∧ c = '?'
    · rw [marks, if_pos hmark] at h
      rw [pieces_mark hmark]
      obtain ⟨hleft, hright⟩ := Bool.and_eq_true_iff.mp (h i List.mem_cons_self)
      refine ⟨?_, ?_, ?_⟩
      · rw [hprev]
        split
        · rfl
        · next hi => simpa [hi] using hleft
      · rw [← List.head?_drop, hnext] at hright
        cases hp : (pieces '?' (z.next c cs) cs).1.head? with
        | none => rfl
        | some d => rwa [head?_piece hp] at hright
      · exact ih hnext (by simp [hc, hmark.2]) fun j hj => h j (List.mem_cons_of_mem _ hj)
    · rw [marks, if_neg hmark] at h
      rw [pieces_char hmark, ← List.singleton_append, delimited_append _ _ (by simp)]
      exact ih hnext (by simp [hc]) h

/-! ## The tokens of a bound text -/

theorem symbols_mark_dash : '-' ∉ '?' :: symbols := by decide

theorem symbols_mark_backtick : '`' ∉ '?' :: symbols := by decide

/-- The mark makes a difference to the token it begins only. -/
theorem readToken_mark (hc : c ≠ '?') : readToken ('?' :: symbols) c cs = readToken symbols c cs := by
  simp only [readToken, List.mem_cons, hc, false_or]

theorem isSym_of_readOperator (h : readOperator c cs = .ok (t, rest)) :
    ∃ s, t = .sym s := by
  rw [readOperator.eq_def] at h
  split at h <;> cases h <;> exact ⟨_, rfl⟩

theorem isSym_of_delimiter {lex : List Char} (hwhite : ¬isWhite c)
    (ht : readToken symbols c (lex ++ rest) = .ok (t, rest)) (hlexeme : Lexeme t c lex)
    (hlast : (c :: lex).getLast?.all isDelimiter = true) : ∃ s, t = .sym s := by
  by_contra hne
  rw [not_exists] at hne
  cases hlex : lex.getLast? with
  | some d =>
    rw [List.getLast?_cons, hlex] at hlast
    have hcont := hlexeme.last d hlex
    rw [isDelimiter_continues (by simpa using hlast) hne] at hcont
    cases hcont
  | none =>
    obtain rfl := List.getLast?_eq_none_iff.mp hlex
    have hc : isDelimiter c := by simpa using hlast
    rw [isDelimiter, Bool.eq_false_iff.mpr hwhite, Bool.false_or, decide_eq_true_iff] at hc
    have hplain : ∀ e ∈ [',', '(', ')', '=', '<', '>', '!'], ¬(e = '\'' ∨ e = '"') ∧ ¬e.isDigit ∧
        ¬(e.isAlpha ∨ e = '_') ∧ e ≠ '-' := List.all_iff_forall_prop.mp (by decide)
    obtain ⟨hquote, hdigit, halpha, hdash⟩ := hplain c hc
    rw [readToken, if_neg hquote, if_neg hdigit, if_neg halpha, if_neg fun h => hdash h.1] at ht
    split at ht
    · cases ht
      exact hne c rfl
    · obtain ⟨s, hs⟩ := isSym_of_readOperator ht
      exact hne s hs

/-- No token begins with a character where none did, if what decides there has not changed. -/
theorem readToken_error {e : Error} (hquote : ¬(c = '\'' ∨ c = '"'))
    (h : readToken symbols c cs = .error e) (hdash : c = '-' → rest.head? = cs.head?)
    (hbang : c = '!' → rest.head? ≠ some '=') : ∃ e, readToken symbols c rest = .error e := by
  rw [readToken, if_neg hquote] at h ⊢
  by_cases hdigit : c.isDigit
  · rw [if_pos hdigit] at h
    cases h
  rw [if_neg hdigit] at h ⊢
  by_cases halpha : c.isAlpha ∨ c = '_'
  · rw [if_pos halpha] at h
    cases h
  rw [if_neg halpha] at h ⊢
  by_cases hminus : c = '-' ∧ (cs.head?.any Char.isDigit) = true
  · rw [if_pos hminus] at h
    cases h
  have hminus' : ¬(c = '-' ∧ (rest.head?.any Char.isDigit) = true) := by
    rintro ⟨hc, hd⟩
    exact hminus ⟨hc, by rwa [← hdash hc]⟩
  rw [if_neg hminus] at h
  rw [if_neg hminus']
  by_cases hsym : c ∈ symbols
  · rw [if_pos hsym] at h
    cases h
  rw [if_neg hsym] at h ⊢
  rw [readOperator.eq_def] at h
  split at h <;> cases h
  · rw [readOperator.eq_def]
    split <;> simp_all
  · rw [readOperator.eq_def]
    split <;> simp_all

section

variable {syms : List Char} (hsyms : '-' ∉ syms) (hwhite : ¬isWhite c)
  (hcomment : ¬(c = '-' ∧ cs.head? = some '-'))

include hsyms hwhite hcomment

theorem toOption_token {t : Token} (h : readToken syms c cs = .ok (t, rest)) :
    (tokenizeWith syms (c :: cs)).toOption = (tokenizeWith syms rest).toOption.map (t :: ·) := by
  rw [tokenizeWith_token hsyms hwhite hcomment, h]
  cases hrest : tokenizeWith syms rest with
  | error e =>
    simp only [bind, Except.bind, hrest]
    rfl
  | ok ts =>
    simp only [bind, Except.bind, hrest]
    rfl

theorem toOption_error {e : Error} (h : readToken syms c cs = .error e) :
    (tokenizeWith syms (c :: cs)).toOption = none := by
  rw [tokenizeWith_token hsyms hwhite hcomment, h]
  rfl

end

/-- The bound text of the rest of a template. -/
def filled (fmt : FloatText) (cs : List Char) (vs : List Datum) : List Char :=
  weave (pieces '?' .top cs).1 (pieces '?' .top cs).2 (vs.map (datumLiteral fmt))

/-- A bound text begins as the template does or with a literal. -/
theorem head?_filled {fmt : FloatText} {vs : List Datum} (hvs : ∀ v ∈ vs, bindable v)
    (hlen : vs.length = (pieces '?' .top cs).2.length) :
    cs.head? ≠ some '?' ∧ (filled fmt cs vs).head? = cs.head? ∨
      cs.head? = some '?' ∧ ∃ d, (filled fmt cs vs).head? = some d ∧ d ≠ '=' ∧ d ≠ '>' := by
  cases cs with
  | nil => exact .inl ⟨by simp, rfl⟩
  | cons c cs =>
    by_cases hc : c = '?'
    · subst hc
      rw [pieces_mark ⟨rfl, rfl⟩] at hlen
      obtain ⟨v, vs, rfl⟩ := List.exists_of_length_succ vs hlen
      obtain ⟨d, lex, hlit, -, heq, hgt, -⟩ := readToken_literal fmt (hvs v List.mem_cons_self)
      refine .inr ⟨rfl, d, ?_, heq, hgt⟩
      rw [filled, pieces_mark ⟨rfl, rfl⟩, List.map_cons, hlit]
      rfl
    · refine .inl ⟨by simpa using hc, ?_⟩
      rw [filled, pieces_char fun h => hc h.2, ← List.singleton_append, weave_append]
      rfl

/-- A string that does not end holds no marker. -/
theorem pieces_unterminated {quote : Char} (hquote : isQuote quote) (h : readString quote cs = none) :
    pieces '?' (.quoted quote) cs = (cs, []) := by
  induction cs using readString.induct quote with
  | case1 => rfl
  | case2 => simp [readString] at h
  | case3 c hc => rfl
  | case4 cs ih =>
    rw [readString, if_pos rfl, if_pos rfl, Option.map_eq_none_iff] at h
    have hne : quote ≠ '?' := by rintro rfl; cases hquote
    have hclose : Zone.next (.quoted quote) quote (quote :: cs) = .top := by simp [Zone.next]
    have hopen : Zone.next .top quote cs = .quoted quote := by simp [Zone.next, hquote]
    rw [pieces_char (by simp), hclose, pieces_char fun h => hne h.2, hopen, ih h]
  | case5 c' cs hc' => simp [readString, hc'] at h
  | case6 c c' cs hc ih =>
    rw [readString, if_neg hc, Option.map_eq_none_iff] at h
    have hnext : Zone.next (.quoted quote) c (c' :: cs) = .quoted quote := by simp [Zone.next, hc]
    rw [pieces_char (by simp), hnext, ih h]

/-- The delimiter behind a marker is still there. -/
theorem delimiter_filled {fmt : FloatText}
    (hdelimited : Delimited (some '?') (pieces '?' .top cs).1 (pieces '?' .top cs).2)
    (hright : (pieces '?' .top cs).1.head?.all isDelimiter = true) {d : Char}
    (hd : (filled fmt cs vs).head? = some d) : isDelimiter d := by
  cases cs with
  | nil => cases hd
  | cons c cs =>
    by_cases hc : c = '?'
    · rw [pieces_mark ⟨rfl, hc⟩] at hdelimited
      exact absurd (show isDelimiter '?' = true from hdelimited.1) (by decide)
    · rw [filled, pieces_char fun h => hc h.2, ← List.singleton_append, weave_append] at hd
      rw [pieces_char fun h => hc h.2] at hright
      cases hd
      simpa using hright

/-- The character in front of a marker is a delimiter. -/
theorem delimiter_before {last : Option Char} (hcs : cs.head? = some '?')
    (hdelimited : Delimited last (pieces '?' .top cs).1 (pieces '?' .top cs).2) :
    last.all isDelimiter = true := by
  obtain ⟨ds, rfl⟩ := List.head?_eq_some_iff.mp hcs
  rw [pieces_mark ⟨rfl, rfl⟩] at hdelimited
  exact hdelimited.1

theorem bindTokens_cons (fmt : FloatText) (ht : t ≠ .sym '?') (ts : List Token) (vs : List Datum) :
    bindTokens fmt (t :: ts) vs = t :: bindTokens fmt ts vs := by
  rw [bindTokens.eq_def]
  split <;> simp_all

section

variable (fmt : FloatText) {vs : List Datum} (hvs : ∀ v ∈ vs, bindable v)

include hvs

/-- A comment ends where it did. -/
theorem dropWhile_filled (hlen : vs.length = (pieces '?' .top cs).2.length)
    (hline : ∀ d, cs.head? = some d → d = '\n') :
    (filled fmt cs vs).dropWhile (· ≠ '\n') = filled fmt cs vs := by
  rcases @head?_filled _ fmt _ hvs hlen with ⟨-, h⟩ | ⟨h, -⟩
  · cases hfilled : filled fmt cs vs with
    | nil => rfl
    | cons d ds =>
      rw [hfilled] at h
      obtain rfl := hline d h.symm
      rfl
  · exact absurd (hline _ h) (by decide)

/-- In front of a literal the same token is read. -/
theorem readToken_filled {lex : List Char} {last : Option Char} (hlast : last = (c :: lex).getLast?)
    (hlen : vs.length = (pieces '?' .top rest).2.length)
    (hdelimited : Delimited last (pieces '?' .top rest).1 (pieces '?' .top rest).2)
    (hc : c ≠ '?') (hwhite : ¬isWhite c) (hcomment : ¬(c = '-' ∧ (lex ++ rest).head? = some '-'))
    (ht : readToken ('?' :: symbols) c (lex ++ rest) = .ok (t, rest)) (hlexeme : Lexeme t c lex)
    (hlocal : ∀ rest', Follows t rest rest' →
      readToken ('?' :: symbols) c (lex ++ rest') = .ok (t, rest')) :
    ¬(c = '-' ∧ (lex ++ filled fmt rest vs).head? = some '-') ∧
      readToken symbols c (lex ++ filled fmt rest vs) = .ok (t, filled fmt rest vs) := by
  rw [← readToken_mark hc]
  rcases @head?_filled _ fmt _ hvs hlen with ⟨-, h⟩ | ⟨h, d, hd, heq, hgt⟩
  · refine ⟨?_, hlocal _ (follows_of_head h)⟩
    rwa [List.head?_append, h, ← List.head?_append]
  · have hall := delimiter_before h hdelimited
    rw [hlast] at hall
    refine ⟨?_, hlocal _ ?_⟩
    · rintro ⟨rfl, hdash⟩
      cases lex with
      | nil => exact absurd (show isDelimiter '-' = true from hall) (by decide)
      | cons e es => exact hcomment ⟨rfl, hdash⟩
    · rw [readToken_mark hc] at ht
      obtain ⟨s, rfl⟩ := isSym_of_delimiter hwhite ht hlexeme hall
      intro e he
      rw [hd, Option.some.injEq] at he
      subst he
      exact .inr (by simp [continues, heq, hgt])

/-- Where the template has no token, the bound text has none. -/
theorem tokenize_filled_error {prev : Option Char} {e : Error}
    (hlen : vs.length = (pieces '?' .top (c :: cs)).2.length)
    (hdelimited : Delimited prev (pieces '?' .top (c :: cs)).1 (pieces '?' .top (c :: cs)).2)
    (hc : c ≠ '?') (hwhite : ¬isWhite c) (hcomment : ¬(c = '-' ∧ cs.head? = some '-'))
    (ht : readToken symbols c cs = .error e) :
    (tokenize (filled fmt (c :: cs) vs)).toOption = none := by
  have hchar : pieces '?' .top (c :: cs) = _ := pieces_char fun h => hc h.2
  by_cases hq : c = '\'' ∨ c = '"'
  · -- The string runs to the end of the template, where there is no marker.
    have hquote : isQuote c := isQuote_iff.mpr (by tauto)
    have hs : readString c cs = none := by
      rw [readToken, if_pos hq] at ht
      cases hs : readString c cs with
      | none => rfl
      | some r =>
        rw [hs] at ht
        cases ht
    have hnext : Zone.next .top c cs = .quoted c := by simp [Zone.next, hquote]
    have hfilled : filled fmt (c :: cs) vs = c :: cs := by
      rw [filled, hchar, hnext, pieces_unterminated hquote hs]
      rfl
    rw [hfilled, tokenize, toOption_error symbols_dash hwhite hcomment ht]
  by_cases hback : c = '`'
  · subst hback
    obtain ⟨e, he⟩ := readToken_backtick symbols_backtick
      (weave (pieces '?' (Zone.next .top '`' cs) cs).1 (pieces '?' (Zone.next .top '`' cs) cs).2
        (vs.map (datumLiteral fmt)))
    have hfilled : filled fmt ('`' :: cs) vs = '`' :: weave (pieces '?' (Zone.next .top '`' cs) cs).1
        (pieces '?' (Zone.next .top '`' cs) cs).2 (vs.map (datumLiteral fmt)) := by
      rw [filled, hchar, ← List.singleton_append, weave_append]
      rfl
    rw [hfilled, tokenize, toOption_error symbols_dash hwhite (by simp) he]
  · have hquote : ¬isQuote c := fun h => by
      rcases isQuote_iff.mp h with h | h | h <;> tauto
    have hnext : Zone.next .top c cs = .top := by
      rw [Zone.next, if_neg hquote, if_neg hcomment]
    have hfilled : filled fmt (c :: cs) vs = c :: filled fmt cs vs := by
      rw [filled, hchar, hnext, ← List.singleton_append, weave_append]
      rfl
    rw [hchar, hnext] at hlen hdelimited
    rw [← List.singleton_append, delimited_append _ _ (by simp)] at hdelimited
    have hdash : c = '-' → (filled fmt cs vs).head? = cs.head? := by
      rintro rfl
      rcases @head?_filled _ fmt _ hvs hlen with ⟨-, h⟩ | ⟨h, -⟩
      · exact h
      · exact absurd (show isDelimiter '-' = true from delimiter_before h hdelimited) (by decide)
    have hbang : c = '!' → (filled fmt cs vs).head? ≠ some '=' := by
      rintro rfl
      rcases @head?_filled _ fmt _ hvs hlen with ⟨-, h⟩ | ⟨-, d, hd, heq, -⟩
      · rw [h]
        intro hhead
        obtain ⟨ds, rfl⟩ := List.head?_eq_some_iff.mp hhead
        cases ht
      · rw [hd]
        simpa using heq
    obtain ⟨e', he'⟩ := readToken_error hq ht hdash hbang
    have hcomment' : ¬(c = '-' ∧ (filled fmt cs vs).head? = some '-') := fun h =>
      hcomment ⟨h.1, by rw [← hdash h.1]; exact h.2⟩
    rw [hfilled, tokenize, toOption_error symbols_dash hwhite hcomment' he']

end

/-- The tokens of a bound text are those of its template with the values bound. -/
theorem tokenize_filled (fmt : FloatText) (hvs : ∀ v ∈ vs, bindable v)
    (hlen : vs.length = (pieces '?' .top cs).2.length) {prev : Option Char}
    (hdelimited : Delimited prev (pieces '?' .top cs).1 (pieces '?' .top cs).2) :
    (tokenize (filled fmt cs vs)).toOption =
      (templateTokens cs).toOption.map fun ts => bindTokens fmt ts vs := by
  induction cs using lex_induction symbols_mark_dash generalizing vs prev with
  | nil => rfl
  | white c cs hc ih =>
    rw [pieces_white hc (by decide)] at hlen hdelimited
    rw [← List.singleton_append, delimited_append _ _ (by simp)] at hdelimited
    rw [templateTokens, tokenizeWith_white symbols_mark_dash hc, filled, pieces_white hc (by decide),
      ← List.singleton_append, weave_append, List.singleton_append, tokenize,
      tokenizeWith_white symbols_dash hc]
    exact ih hvs hlen hdelimited
  | comment cs ih =>
    rw [pieces_comment (by decide) (by decide)] at hlen hdelimited
    rw [delimited_append _ _ (by simp)] at hdelimited
    rw [templateTokens, tokenizeWith_comment symbols_mark_dash, filled,
      pieces_comment (by decide) (by decide), weave_append, List.cons_append, List.cons_append,
      tokenize, tokenizeWith_comment symbols_dash]
    have hbody : ∀ d ∈ cs.takeWhile (· ≠ '\n'), decide (d ≠ '\n') = true := fun d hd => by
      simpa using List.mem_takeWhile_imp hd
    have hend := dropWhile_filled fmt hvs hlen fun d hd => by
      have hhead := List.head?_dropWhile_not (· ≠ '\n') cs
      rw [hd] at hhead
      simpa using hhead
    rw [List.dropWhile_append_of_pos hbody]
    exact (congrArg (fun S => (tokenize S).toOption) hend).trans (ih hvs hlen hdelimited)
  | token c cs hwhite hcomment ih =>
    by_cases hc : c = '?'
    · subst hc
      have hmark : readToken ('?' :: symbols) '?' cs = .ok (.sym '?', cs) := rfl
      rw [pieces_mark ⟨rfl, rfl⟩] at hlen hdelimited
      obtain ⟨v, vs, rfl⟩ := List.exists_of_length_succ vs hlen
      have hvs' : ∀ v ∈ vs, bindable v := fun w hw => hvs w (List.mem_cons_of_mem _ hw)
      have hlen' : vs.length = (pieces '?' .top cs).2.length := Nat.succ.inj hlen
      obtain ⟨-, hright, hrest⟩ := hdelimited
      obtain ⟨d, lex, hlit, hdwhite, -, -, hread⟩ :=
        readToken_literal fmt (hvs v List.mem_cons_self)
      obtain ⟨hdcomment, hdread⟩ := hread (filled fmt cs vs) fun e he =>
        delimiter_filled hrest hright he
      have hfilled : filled fmt ('?' :: cs) (v :: vs) = d :: (lex ++ filled fmt cs vs) := by
        rw [filled, pieces_mark ⟨rfl, rfl⟩, List.map_cons, hlit]
        rfl
      rw [hfilled, tokenize, toOption_token symbols_dash hdwhite hdcomment hdread, templateTokens,
        toOption_token symbols_mark_dash hwhite hcomment hmark]
      have := ih _ _ hmark hvs' hlen' hrest
      rw [tokenize, templateTokens] at this
      rw [this, Option.map_map, Option.map_map]
      rfl
    · cases ht : readToken ('?' :: symbols) c cs with
      | ok r =>
        obtain ⟨t, rest⟩ := r
        obtain ⟨lex, rfl, hlexeme, hlocal⟩ := readToken_local symbols_mark_dash ht
        have hpieces : pieces '?' .top (c :: lex ++ rest) = _ :=
          pieces_token (by decide) symbols_mark_dash symbols_mark_backtick hcomment hc ht
        rw [← List.cons_append, hpieces, delimited_append _ _ (by simp)] at hdelimited
        rw [← List.cons_append, hpieces] at hlen
        have hfilled : filled fmt (c :: (lex ++ rest)) vs = c :: (lex ++ filled fmt rest vs) := by
          rw [filled, ← List.cons_append, hpieces, weave_append]
          rfl
        have hnotSym : t ≠ .sym '?' := by
          rintro rfl
          rcases readToken_sym ht with ⟨h, -⟩ | h | h | h
          · exact hc h.symm
          all_goals exact absurd h (by decide)
        obtain ⟨hdash, hread⟩ := readToken_filled fmt hvs rfl hlen hdelimited hc hwhite
          hcomment ht hlexeme hlocal
        rw [hfilled, tokenize, toOption_token symbols_dash hwhite hdash hread, templateTokens,
          toOption_token symbols_mark_dash hwhite hcomment ht]
        have := ih t rest ht hvs hlen hdelimited
        rw [tokenize, templateTokens] at this
        rw [this, Option.map_map, Option.map_map]
        congr 1
        funext ts
        exact (bindTokens_cons fmt hnotSym ts vs).symm
      | error e =>
        rw [templateTokens, toOption_error symbols_mark_dash hwhite hcomment ht]
        exact tokenize_filled_error fmt hvs hlen hdelimited hc hwhite hcomment (readToken_mark hc ▸ ht)

/-! ## The number of parts -/

/-- The number of parts the splitter still makes; the flag says that the part it is in
is not white space only. -/
def partCount : Option Char → Bool → List Char → Nat
  | _, b, [] => b.toNat
  | quote, b, c :: cs =>
    if quote = none ∧ c = ';' then b.toNat + partCount none false cs
    else partCount (splitQuote quote c) (b || !isWhite c) cs

variable {z : Zone} {quote : Option Char} {b : Bool}

theorem length_keepPart (cur : List Char) :
    (keepPart cur).length = (cur.any fun d => !isWhite d).toNat := by
  rw [keepPart]
  cases h : cur.any fun d => !isWhite d with
  | false =>
    rw [if_pos (trim_eq_nil_iff.mpr (by simpa using h))]
    rfl
  | true =>
    rw [if_neg fun hnil => ?_]
    · rfl
    · have hall := trim_eq_nil_iff.mp hnil
      obtain ⟨d, hd, hne⟩ := List.any_eq_true.mp h
      rw [hall d hd] at hne
      cases hne

theorem partCount_next (hc : ¬(quote = none ∧ c = ';')) :
    partCount quote b (c :: cs) = partCount (splitQuote quote c) (b || !isWhite c) cs := by
  rw [partCount, if_neg hc]

theorem length_splitLoop (cur : List Char) (hquote : ∀ q, quote = some q → isQuote q) :
    (splitLoop quote cur cs).length = partCount quote (cur.any fun d => !isWhite d) cs := by
  induction quote, cur, cs using splitLoop.induct with
  | case1 => simp [splitLoop, partCount, length_keepPart]
  | case2 cur q c => simp [splitLoop, partCount, length_keepPart]
  | case3 cur q cs ih =>
    have hq : splitQuote (splitQuote (some q) q) q = some q := by simp [splitQuote, hquote q rfl]
    have hne : q ≠ ';' := by rintro rfl; cases hquote _ rfl
    rw [splitLoop, if_pos rfl, if_pos rfl, ih hquote, partCount_next (by simp),
      partCount_next fun h => hne h.2, hq]
    simp
  | case4 cur q c' cs hc' ih =>
    rw [splitLoop, if_pos rfl, if_neg hc', ih (by simp), partCount_next (c := q) (by simp)]
    simp [splitQuote]
  | case5 q cur c c' cs hc ih =>
    rw [splitLoop, if_neg hc, ih hquote, partCount_next (c := c) (by simp)]
    simp [splitQuote, hc]
  | case6 cur c cs hc ih =>
    have hne : c ≠ ';' := by rintro rfl; cases hc
    rw [splitLoop, if_pos hc, ih (by rintro q ⟨⟩; exact hc), partCount_next fun h => hne h.2]
    simp [splitQuote, hc]
  | case7 cur cs hc ih =>
    rw [splitLoop, if_neg hc, if_pos rfl, List.length_append, ih (by simp), length_keepPart, partCount,
      if_pos ⟨rfl, rfl⟩]
    rfl
  | case8 cur c cs hc hne ih =>
    rw [splitLoop, if_neg hc, if_neg hne, ih (by simp), partCount_next fun h => hne h.2]
    simp [splitQuote, hc]

theorem partCount_plain {xs : List Char} (hquote : ∀ q, quote = some q → isQuote q)
    (hxs : ∀ d ∈ xs, isQuote d = false ∧ d ≠ ';') :
    partCount quote b (xs ++ rest) = partCount quote (b || xs.any fun d => !isWhite d) rest := by
  induction xs generalizing b with
  | nil => simp
  | cons d xs ih =>
    obtain ⟨hd, hne⟩ := hxs d List.mem_cons_self
    have hstay : splitQuote quote d = quote := by
      cases quote with
      | none => simp [splitQuote, hd]
      | some q =>
        have : d ≠ q := by
          rintro rfl
          rw [hquote d rfl] at hd
          cases hd
        simp [splitQuote, this]
    rw [List.cons_append, partCount_next fun h => hne h.2, hstay,
      ih fun e he => hxs e (List.mem_cons_of_mem _ he)]
    simp [Bool.or_assoc]

theorem partCount_mark (hquote : ∀ q, quote = some q → isQuote q) :
    partCount quote b ('?' :: cs) = partCount quote true cs := by
  have hmark : ∀ e ∈ ['?'], isQuote e = false ∧ e ≠ ';' :=
    List.all_iff_forall_prop.mp (by decide)
  have h : partCount quote b (['?'] ++ cs) = _ := partCount_plain hquote hmark
  simpa [isWhite] using h

theorem partCount_null (hquote : ∀ q, quote = some q → isQuote q) :
    partCount quote b ("NULL".toList ++ rest) = partCount quote true rest := by
  rw [partCount_plain hquote (List.all_iff_forall_prop.mp (by decide))]
  congr 1
  rw [show ("NULL".toList.any fun d => !isWhite d) = true by decide, Bool.or_true]

theorem partCount_escape (s : List Char) :
    partCount (some '\'') true (escapeQuotes s ++ rest) = partCount (some '\'') true rest := by
  induction s with
  | nil => rfl
  | cons d s ih =>
    rw [escapeQuotes_cons, List.append_assoc]
    split
    · next hd =>
      subst hd
      exact ih
    · next hd =>
      rw [List.singleton_append, partCount_next (by simp)]
      simpa [splitQuote, hd] using ih

theorem partCount_literal (fmt : FloatText) {v : Datum} (hv : bindable v) :
    partCount none b (datumLiteral fmt v ++ rest) = partCount none true rest := by
  have hplain : (∀ d ∈ datumLiteral fmt v, isQuote d = false ∧ d ≠ ';') →
      partCount none b (datumLiteral fmt v ++ rest) = partCount none true rest := by
    intro hall
    obtain ⟨c, lex, hlit, hwhite, -⟩ := readToken_literal fmt hv
    rw [partCount_plain (by simp) hall, hlit, List.any_cons, Bool.eq_false_iff.mpr hwhite]
    simp
  cases v with
  | null => exact hplain (show ∀ d ∈ "NULL".toList, _ from List.all_iff_forall_prop.mp (by decide))
  | int n =>
    refine hplain fun d hd => ?_
    obtain ⟨c, ds, hlit, hds, hc⟩ := toList_toString_int n.toInt
    have hnumber : d.isDigit ∨ d = '-' := by
      rw [datumLiteral, hlit] at hd
      rcases List.mem_cons.mp hd with rfl | hd
      · exact hc.imp_right And.left
      · exact .inl (hds d hd)
    have hnot : ∀ e ∈ ['\'', '"', '`', ';'], ¬(e.isDigit ∨ e = '-') :=
      List.all_iff_forall_prop.mp (by decide)
    have hne : ∀ e ∈ ['\'', '"', '`', ';'], d ≠ e := by
      rintro e he rfl
      exact hnot d he hnumber
    exact ⟨by simp [isQuote, hne '\'' (by simp), hne '"' (by simp), hne '`' (by simp)],
      hne ';' (by simp)⟩
  | float v => cases hv
  | text s =>
    have hopen : splitQuote none '\'' = some '\'' := rfl
    have hclose : splitQuote (some '\'') '\'' = none := rfl
    rw [datumLiteral, List.append_assoc, List.cons_append, partCount_next (by decide), hopen,
      Bool.or_eq_true_iff.mpr (.inr (by decide)), partCount_escape, List.singleton_append,
      partCount_next (by decide), hclose]
    rfl
  | bool b =>
    cases b with
    | false => exact hplain (show ∀ d ∈ "FALSE".toList, _ from List.all_iff_forall_prop.mp (by decide))
    | true => exact hplain (show ∀ d ∈ "TRUE".toList, _ from List.all_iff_forall_prop.mp (by decide))
  | dateTime v => cases hv

def quoteAfter (cs : List Char) : Option Char := cs.foldl splitQuote none

/-- A text value that cuts the statement inside a quote. -/
def cuttingText (quote : Char) : Datum :=
  .text (String.ofList (if quote = '\'' then [';'] else [quote, ';', quote]))

theorem partCount_cutting (fmt : FloatText) {q : Char} (hq : isQuote q) :
    partCount (some q) b (datumLiteral fmt (cuttingText q) ++ rest) =
      partCount (some q) true rest + 1 := by
  rcases isQuote_iff.mp hq with rfl | rfl | rfl <;>
    simp [datumLiteral, cuttingText, escapeQuotes, partCount, splitQuote, isQuote, isWhite,
      Nat.add_comm]

theorem weave_char (h : ¬(z = .top ∧ c = '?')) (lits : List (List Char)) :
    weave (pieces '?' z (c :: cs)).1 (pieces '?' z (c :: cs)).2 lits =
      c :: weave (pieces '?' (z.next c cs) cs).1 (pieces '?' (z.next c cs) cs).2 lits := by
  rw [pieces_char h, ← List.singleton_append, weave_append]
  rfl

theorem splitQuote_isQuote (hquote : ∀ q, quote = some q → isQuote q) :
    ∀ q, splitQuote quote c = some q → isQuote q := by
  intro q hq
  cases quote with
  | none =>
    by_cases hc : isQuote c
    · simp only [splitQuote, if_pos hc, Option.some.injEq] at hq
      exact hq ▸ hc
    · simp [splitQuote, hc] at hq
  | some r =>
    rw [splitQuote] at hq
    split at hq
    · cases hq
    · exact hquote q hq

/-- A character in front changes both counts the same way. -/
theorem partCount_char {cs' : List Char} {n : Nat}
    (h : ∀ b, partCount (splitQuote quote c) b cs = partCount (splitQuote quote c) b cs' + n) :
    partCount quote b (c :: cs) = partCount quote b (c :: cs') + n := by
  rw [partCount, partCount]
  split
  · next hc =>
    have hnone : splitQuote quote c = none := by
      rw [hc.1, hc.2]
      rfl
    rw [hnone] at h
    rw [h, Nat.add_assoc]
  · exact h _

/-- With `NULL` for every marker a text has the parts of its template. -/
theorem partCount_nulls (fmt : FloatText) (hquote : ∀ q, quote = some q → isQuote q) :
    partCount quote b (weave (pieces '?' z cs).1 (pieces '?' z cs).2
        (List.replicate (pieces '?' z cs).2.length (datumLiteral fmt .null))) =
      partCount quote b cs := by
  induction cs generalizing z quote b with
  | nil => rfl
  | cons c cs ih =>
    by_cases hmark : z = .top ∧ c = '?'
    · rw [pieces_mark hmark, List.length_cons, List.replicate_succ, weave, List.nil_append, hmark.2,
        partCount_mark hquote]
      exact (partCount_null hquote).trans (ih hquote)
    · rw [weave_char hmark, pieces_char hmark]
      exact partCount_char (n := 0) fun b => ih (splitQuote_isQuote hquote)

theorem quoteAfter_take (sql : List Char) (hcs : sql.drop i = c :: cs) :
    quoteAfter (sql.take (i + 1)) = splitQuote (quoteAfter (sql.take i)) c := by
  have hc : sql[i]? = some c := by rw [← List.head?_drop, hcs]; rfl
  rw [List.take_add_one, hc, quoteAfter, List.foldl_append]
  rfl

theorem quoteAfter_isQuote (cs : List Char) : ∀ q, quoteAfter cs = some q → isQuote q := by
  have : ∀ (cs : List Char) (quote : Option Char), (∀ q, quote = some q → isQuote q) →
      ∀ q, cs.foldl splitQuote quote = some q → isQuote q := by
    intro cs
    induction cs with
    | nil => exact fun quote h => h
    | cons c cs ih => exact fun quote h => ih _ (splitQuote_isQuote h)
  exact this cs none (by simp)

/-- Outside quotes at every marker, a bound text has the parts of its template. -/
theorem partCount_outside (fmt : FloatText) (sql : List Char) (hcs : sql.drop i = cs)
    (hquote : quote = quoteAfter (sql.take i))
    (hout : ∀ j ∈ marks '?' z i cs, quoteAfter (sql.take j) = none) (hvs : ∀ v ∈ vs, bindable v)
    (hlen : vs.length = (pieces '?' z cs).2.length) :
    partCount quote b (weave (pieces '?' z cs).1 (pieces '?' z cs).2 (vs.map (datumLiteral fmt))) =
      partCount quote b cs := by
  induction cs generalizing z i quote b vs with
  | nil => rfl
  | cons c cs ih =>
    have hnext : sql.drop (i + 1) = cs := by
      rw [← List.drop_drop, hcs, List.drop_one, List.tail_cons]
    have hstep := quoteAfter_take sql hcs
    by_cases hmark : z = .top ∧ c = '?'
    · obtain ⟨rfl, rfl⟩ := hmark
      rw [marks, if_pos ⟨rfl, rfl⟩] at hout
      have hnone : quote = none := hquote.trans (hout i List.mem_cons_self)
      have hafter : quoteAfter (sql.take (i + 1)) = none := by
        rw [hstep, ← hquote, hnone]
        rfl
      rw [pieces_mark ⟨rfl, rfl⟩] at hlen ⊢
      obtain ⟨v, vs, rfl⟩ := List.exists_of_length_succ vs hlen
      rw [List.map_cons, weave, List.nil_append, hnone, partCount_mark (by simp),
        partCount_literal fmt (hvs v List.mem_cons_self)]
      exact ih hnext hafter.symm (fun j hj => hout j (List.mem_cons_of_mem _ hj))
        (fun w hw => hvs w (List.mem_cons_of_mem _ hw)) (Nat.succ.inj hlen)
    · rw [marks, if_neg hmark] at hout
      rw [pieces_char hmark] at hlen
      rw [weave_char hmark]
      exact partCount_char (n := 0) fun b =>
        ih hnext (by rw [hstep, hquote]) hout hvs hlen

/-- Inside a quote at some marker, values can be bound that make one part more. -/
theorem partCount_inside (fmt : FloatText) (sql : List Char) (hcs : sql.drop i = cs)
    (hquote : quote = quoteAfter (sql.take i)) {j : Nat} (hj : j ∈ marks '?' z i cs)
    (hin : quoteAfter (sql.take j) ≠ none) :
    ∃ vs : List Datum, (∀ v ∈ vs, bindable v) ∧ vs.length = (pieces '?' z cs).2.length ∧
      ∀ b, partCount quote b
          (weave (pieces '?' z cs).1 (pieces '?' z cs).2 (vs.map (datumLiteral fmt))) =
        partCount quote b cs + 1 := by
  induction cs generalizing z i quote with
  | nil => cases hj
  | cons c cs ih =>
    have hnext : sql.drop (i + 1) = cs := by
      rw [← List.drop_drop, hcs, List.drop_one, List.tail_cons]
    have hstep := quoteAfter_take sql hcs
    have hisQuote : ∀ q, quote = some q → isQuote q := hquote ▸ quoteAfter_isQuote _
    by_cases hmark : z = .top ∧ c = '?'
    · rw [marks, if_pos hmark] at hj
      have hstay : splitQuote quote '?' = quote := by
        cases hq : quote with
        | none => rfl
        | some q =>
          have hne : '?' ≠ q := by
            rintro rfl
            cases hisQuote _ hq
          simp [splitQuote, hne]
      rw [pieces_mark hmark, hmark.2]
      rcases List.mem_cons.mp hj with rfl | hj
      · obtain ⟨q, hq⟩ := Option.ne_none_iff_exists'.mp (hquote ▸ hin)
        refine ⟨cuttingText q :: List.replicate (pieces '?' (z.next c cs) cs).2.length .null, ?_, ?_,
          fun b => ?_⟩
        · intro v hv
          rcases List.mem_cons.mp hv with rfl | hv
          · rfl
          · rw [List.eq_of_mem_replicate hv]
            rfl
        · rw [List.length_cons, List.length_replicate, hmark.2]
          rfl
        · rw [List.map_cons, List.map_replicate, weave, List.nil_append, hq,
            partCount_cutting fmt (hisQuote q hq), partCount_mark (hq ▸ hisQuote), hmark.2,
            partCount_nulls fmt (hq ▸ hisQuote)]
      · obtain ⟨vs, hvs, hlen, hcount⟩ := ih hnext (by rw [hstep, ← hquote]) hj
        rw [hmark.2, hstay] at hcount
        refine ⟨.null :: vs, ?_, by rw [List.length_cons, hlen, hmark.2]; rfl, fun b => ?_⟩
        · intro v hv
          rcases List.mem_cons.mp hv with rfl | hv
          · rfl
          · exact hvs v hv
        · rw [List.map_cons, weave, List.nil_append, partCount_mark hisQuote]
          exact (partCount_null hisQuote).trans (hcount true)
    · rw [marks, if_neg hmark] at hj
      obtain ⟨vs, hvs, hlen, hcount⟩ := ih hnext (by rw [hstep, ← hquote]) hj
      refine ⟨vs, hvs, by rw [pieces_char hmark]; exact hlen, fun b => ?_⟩
      rw [weave_char hmark]
      exact partCount_char hcount

/-! ## The law -/

theorem length_splitStatements (cs : List Char) :
    (splitStatements cs).length = partCount none false cs := length_splitLoop [] (by simp)

theorem bindText_eq (fmt : FloatText) (sql : List Char)
    (hlen : vs.length = (findPlaceholders sql).length) :
    bindText fmt sql vs = .ok (filled fmt sql vs) := by
  rw [length_findPlaceholders] at hlen
  exact substitute_findPlaceholders sql (by rw [List.length_map, hlen])

/-- What the law asks of a template and of the values bound to it. -/
structure KeepsStructure (fmt : FloatText) (sql : List Char) (vs : List Datum) (out : List Char) :
    Prop where
  tokens : (tokenize out).toOption = (templateTokens sql).toOption.map fun ts => bindTokens fmt ts vs
  parts : (splitStatements out).length = (splitStatements sql).length

/-- Binding keeps the structure of a delimited template whatever the values are exactly
if the splitter is outside quotes at every marker. -/
theorem bind_keeps_iff (fmt : FloatText) {sql : List Char} (hsql : delimited sql) :
    (∀ vs : List Datum, (∀ v ∈ vs, bindable v) → vs.length = (findPlaceholders sql).length →
      ∃ out, bindText fmt sql vs = .ok out ∧ KeepsStructure fmt sql vs out) ↔
    ∀ i ∈ findPlaceholders sql, quoteAfter (sql.take i) = none := by
  have hmarks : findPlaceholders sql = marks '?' .top 0 sql :=
    findPlaceholdersFrom_eq .top 0 sql (by simp)
  have hdelimited := delimited_pieces sql List.drop_zero rfl (z := .top) (i := 0) (by
    rw [delimited, List.all_eq_true, hmarks] at hsql
    exact hsql)
  constructor
  · intro h
    by_contra hne
    obtain ⟨j, hj, hin⟩ : ∃ j ∈ findPlaceholders sql, quoteAfter (sql.take j) ≠ none := by
      simpa using hne
    obtain ⟨vs, hvs, hlen, hcount⟩ := partCount_inside fmt sql List.drop_zero rfl (hmarks ▸ hj) hin
    rw [← length_findPlaceholders] at hlen
    obtain ⟨out, hout, hkeeps⟩ := h vs hvs hlen
    rw [bindText_eq fmt sql hlen, Except.ok.injEq] at hout
    have hparts := hkeeps.parts
    rw [← hout, length_splitStatements, length_splitStatements] at hparts
    have := hcount false
    rw [filled] at hparts
    rw [List.take_zero] at this
    change partCount none _ _ = partCount none _ _ + 1 at this
    omega
  · intro hout vs hvs hlen
    refine ⟨_, bindText_eq fmt sql hlen, ?_, ?_⟩
    · rw [length_findPlaceholders] at hlen
      exact tokenize_filled fmt hvs hlen hdelimited
    · rw [length_findPlaceholders] at hlen
      rw [length_splitStatements, length_splitStatements]
      exact partCount_outside fmt sql List.drop_zero rfl (hmarks ▸ hout) hvs hlen

/-- A quote in a comment in front of the marker: the text `;` cuts the statement. -/
theorem bind_cuts :
    ¬∀ (fmt : FloatText) (sql : List Char) (vs : List Datum), delimited sql →
      (∀ v ∈ vs, bindable v) → vs.length = (findPlaceholders sql).length →
        ∃ out, bindText fmt sql vs = .ok out ∧ KeepsStructure fmt sql vs out := by
  intro h
  let fmt : FloatText := ⟨fun _ => "0", fun _ => "0"⟩
  obtain ⟨out, hout, hkeeps⟩ := h fmt "a -- it's\n= ?".toList [.text ";"] (by decide) (by decide) (by decide)
  have hvalue : bindText fmt "a -- it's\n= ?".toList [.text ";"] = .ok "a -- it's\n= ';'".toList := by
    decide
  rw [hvalue, Except.ok.injEq] at hout
  have hparts := hkeeps.parts
  rw [← hout] at hparts
  exact absurd hparts (by decide)

/-- A template without comments. -/
theorem bind_keeps_a :
    ∃ out, bindText ⟨fun _ => "0", fun _ => "0"⟩ "a = ?".toList [.text "b';c"] = .ok out ∧
      KeepsStructure ⟨fun _ => "0", fun _ => "0"⟩ "a = ?".toList [.text "b';c"] out :=
  (bind_keeps_iff _ (by decide)).mpr (by decide) _ (by decide) (by decide)

end HenchDB
