import HenchDB.Validate
import Mathlib.Data.List.TakeWhile

/-!
# The lexer

`tokenize` cuts a text into tokens.  Between tokens it skips white space and
comments, which run from `--` to the end of the line.  A string runs from a
quote, single or double, to the next one of its kind; a doubled quote stands for
the quote.

The tokens of one character are a parameter (`tokenizeWith`), so that a text
with further marks can be cut the same way.  `lex_induction` follows the lexer
through a text: white space, a comment, a token, or the failure of one.
-/

namespace HenchDB

inductive Token where
  | ident (s : String)
  | number (s : String)
  | str (s : String)
  | sym (c : Char)
  | eof
deriving DecidableEq, Repr

namespace Lexer

/-- `skip_ws`; the first argument says that a comment is being skipped. -/
def skipWs : Bool → List Char → List Char
  | _, [] => []
  | true, c :: cs => skipWs (c ≠ '\n') cs
  | false, c :: cs =>
    if DateTime.isWhite c then skipWs false cs
    else if c = '-' ∧ cs.head? = some '-' then skipWs true cs
    else c :: cs

/-- The characters of a string behind its opening quote, and what follows it. -/
def readString (quote : Char) : List Char → Option (List Char × List Char)
  | [] => none
  | [c] => if c = quote then some ([], []) else none
  | c :: c' :: cs =>
    if c = quote then
      if c' = quote then (readString quote cs).map fun (s, rest) => (quote :: s, rest)
      else some ([], c' :: cs)
    else (readString quote (c' :: cs)).map fun (s, rest) => (c :: s, rest)

def readDigits : Bool → List Char → List Char × List Char
  | _, [] => ([], [])
  | isFloat, c :: cs =>
    if c.isDigit then
      let (s, rest) := readDigits isFloat cs
      (c :: s, rest)
    else if c = '.' ∧ isFloat = false then
      let (s, rest) := readDigits true cs
      (c :: s, rest)
    else ([], c :: cs)

/-- A character of an identifier. -/
def isIdent (c : Char) : Bool := c.isAlphanum || c = '_'

/-- `read_number`, from its first character. -/
def readNumber (c : Char) (cs : List Char) : Token × List Char :=
  let (s, rest) := readDigits false cs
  (.number (String.ofList (c :: s)), rest)

/-- `read_ident`, from its first character. -/
def readIdent (c : Char) (cs : List Char) : Token × List Char :=
  (.ident (String.ofList (c :: cs.takeWhile isIdent)), cs.dropWhile isIdent)

/-- The comparison that begins with a character. -/
def readOperator (c : Char) (cs : List Char) : Except Error (Token × List Char) :=
  match c, cs with
  | '<', '=' :: cs => .ok (.sym '≤', cs)
  | '<', '>' :: cs => .ok (.sym '≠', cs)
  | '<', cs => .ok (.sym '<', cs)
  | '>', '=' :: cs => .ok (.sym '≥', cs)
  | '>', cs => .ok (.sym '>', cs)
  | '!', '=' :: cs => .ok (.sym '≠', cs)
  | '!', _ => .error (.parseError "expected '!='")
  | other, _ => .error (.parseError s!"unexpected character '{other}'")

def readToken (symbols : List Char) (c : Char) (cs : List Char) :
    Except Error (Token × List Char) :=
  if c = '\'' ∨ c = '"' then
    match readString c cs with
    | some (s, rest) => .ok (.str (String.ofList s), rest)
    | none => .error (.parseError "unterminated string")
  else if c.isDigit then .ok (readNumber c cs)
  else if c.isAlpha ∨ c = '_' then .ok (readIdent c cs)
  else if c = '-' ∧ (cs.head?.any Char.isDigit) = true then .ok (readNumber c cs)
  else if c ∈ symbols then .ok (.sym c, cs)
  else readOperator c cs

/-- The loop of `tokenize`; every round takes a character, so it never uses up a
count that exceeds the length of the text. -/
def tokenizeLoop (symbols : List Char) : Nat → List Char → Except Error (List Token)
  | 0, _ => .ok [.eof]
  | n + 1, cs =>
    match skipWs false cs with
    | [] => .ok [.eof]
    | c :: cs => do
      let (t, rest) ← readToken symbols c cs
      return t :: (← tokenizeLoop symbols n rest)

/-- `tokenize` with the given tokens of one character. -/
def tokenizeWith (symbols : List Char) (cs : List Char) : Except Error (List Token) :=
  tokenizeLoop symbols (cs.length + 1) cs

/-- The tokens of one character. -/
def symbols : List Char := [',', '(', ')', '*', ';', '=', '.', ':', '@']

def tokenize (sql : List Char) : Except Error (List Token) := tokenizeWith symbols sql

/-! ## One token -/

/-- Whether a character can belong to a token in front of it. -/
def continues : Token → Char → Bool
  | .ident _, c => isIdent c
  | .number _, c => c.isDigit || c = '.'
  | .str _, c => c = '\'' || c = '"'
  | .sym _, c => c = '=' || c = '>'
  | .eof, _ => false

/-- What may follow a token in place of `rest`: the same character, none, or one that
cannot belong to the token. -/
def Follows (t : Token) (rest rest' : List Char) : Prop :=
  ∀ d, rest'.head? = some d → rest.head? = some d ∨ continues t d = false

variable {t : Token} {d : Char}

theorem follows_of_head {rest rest' : List Char} (h : rest'.head? = rest.head?) :
    Follows t rest rest' := fun _ hd => Or.inl (h ▸ hd)

/-- What is read behind the first character of a token: its last character could belong
to the token, and so could all of them where it is no string. -/
structure Lexeme (t : Token) (c : Char) (lex : List Char) : Prop where
  last : ∀ d, lex.getLast? = some d → continues t d = true
  plain : ¬(c = '\'' ∨ c = '"') → (∀ s, t ≠ .str s) ∧ ∀ d ∈ lex, continues t d = true

theorem Lexeme.of_plain {c : Char} {lex : List Char} (ht : ∀ s, t ≠ .str s)
    (h : ∀ d ∈ lex, continues t d = true) : Lexeme t c lex :=
  ⟨fun d hd => h d (List.mem_of_getLast? hd), fun _ => ⟨ht, h⟩⟩

variable {c : Char} {cs rest : List Char}

/-- A string is followed by another character than its quote. -/
theorem readString_local {quote : Char} {s : List Char}
    (h : readString quote cs = some (s, rest)) :
    ∃ lex, cs = lex ++ rest ∧ lex.getLast? = some quote ∧ rest.head? ≠ some quote ∧
      ∀ rest' : List Char, rest'.head? ≠ some quote →
        readString quote (lex ++ rest') = some (s, rest') := by
  induction cs using readString.induct quote generalizing s with
  | case1 => simp [readString] at h
  | case2 =>
    simp only [readString, if_true, Option.some.injEq, Prod.mk.injEq] at h
    obtain ⟨rfl, rfl⟩ := h
    refine ⟨[quote], rfl, rfl, by simp, ?_⟩
    intro rest' hrest'
    cases rest' with
    | nil => simp [readString]
    | cons d ds =>
      have hd : d ≠ quote := by simpa using hrest'
      simp [readString, hd]
  | case3 c hc => simp [readString, hc] at h
  | case4 cs ih =>
    simp only [readString, if_true, Option.map_eq_some_iff, Prod.exists, Prod.mk.injEq] at h
    obtain ⟨s', rest'', hs, rfl, rfl⟩ := h
    obtain ⟨lex, hlex, hlast, hhead, hall⟩ := ih hs
    refine ⟨quote :: quote :: lex, by simp [hlex], by simp [List.getLast?_cons, hlast], hhead, ?_⟩
    intro rest' hrest'
    simp [readString, hall rest' hrest']
  | case5 c' cs hc' =>
    simp only [readString, if_true, hc', if_false, Option.some.injEq, Prod.mk.injEq] at h
    obtain ⟨rfl, rfl⟩ := h
    refine ⟨[quote], rfl, rfl, by simpa using hc', ?_⟩
    intro rest' hrest'
    cases rest' with
    | nil => simp [readString]
    | cons d ds =>
      have hd : d ≠ quote := by simpa using hrest'
      simp [readString, hd]
  | case6 c c' cs hc ih =>
    simp only [readString, hc, if_false, Option.map_eq_some_iff, Prod.exists,
      Prod.mk.injEq] at h
    obtain ⟨s', rest'', hs, rfl, rfl⟩ := h
    obtain ⟨lex, hlex, hlast, hhead, hall⟩ := ih hs
    refine ⟨c :: lex, by simp [hlex], by simp [List.getLast?_cons, hlast], hhead, ?_⟩
    intro rest' hrest'
    obtain ⟨d, ds, rfl⟩ : ∃ d ds, lex = d :: ds :=
      List.exists_cons_of_ne_nil (by rintro rfl; cases hlast)
    simp only [List.cons_append, readString, hc, if_false]
    rw [← List.cons_append, hall rest' hrest']
    rfl

theorem mem_readDigits (isFloat : Bool) (cs : List Char) (h : d ∈ (readDigits isFloat cs).1) :
    (d.isDigit || d = '.') = true := by
  induction cs generalizing isFloat with
  | nil => cases h
  | cons c cs ih =>
    rw [readDigits] at h
    split at h
    · next hc =>
      rcases List.mem_cons.mp h with rfl | h
      · rw [hc]
        rfl
      · exact ih _ h
    · split at h
      · next hdot =>
        rcases List.mem_cons.mp h with rfl | h
        · simp [hdot.1]
        · exact ih _ h
      · cases h

/-- A number takes the digits in front of another character. -/
theorem readDigits_local {isFloat : Bool} {s : List Char} (h : readDigits isFloat cs = (s, rest)) :
    cs = s ++ rest ∧ ∀ rest' : List Char,
      (∀ d, rest'.head? = some d → rest.head? = some d ∨ (d.isDigit || d = '.') = false) →
        readDigits isFloat (s ++ rest') = (s, rest') := by
  induction cs generalizing isFloat s with
  | nil =>
    simp only [readDigits, Prod.mk.injEq] at h
    obtain ⟨rfl, rfl⟩ := h
    refine ⟨rfl, fun rest' hrest' => ?_⟩
    cases rest' with
    | nil => rfl
    | cons d ds =>
      have hd : (d.isDigit || d = '.') = false := by simpa using hrest' d rfl
      simp only [Bool.or_eq_false_iff, decide_eq_false_iff_not] at hd
      simp [readDigits, hd.1, hd.2]
  | cons c cs ih =>
    rw [readDigits] at h
    split at h
    · next hc =>
      obtain ⟨s', hs'⟩ : ∃ s', readDigits isFloat cs = (s', rest) ∧ c :: s' = s := by
        simp only [Prod.mk.injEq] at h
        exact ⟨_, Prod.ext rfl h.2, h.1⟩
      obtain ⟨hs', rfl⟩ := hs'
      obtain ⟨hcs, hall⟩ := ih hs'
      refine ⟨by rw [hcs, List.cons_append], fun rest' hrest' => ?_⟩
      rw [List.cons_append, readDigits, if_pos hc, hall rest' hrest']
    · next hc =>
      split at h
      · next hdot =>
        obtain ⟨s', hs', rfl⟩ : ∃ s', readDigits true cs = (s', rest) ∧ c :: s' = s := by
          simp only [Prod.mk.injEq] at h
          exact ⟨_, Prod.ext rfl h.2, h.1⟩
        obtain ⟨hcs, hall⟩ := ih hs'
        refine ⟨by rw [hcs, List.cons_append], fun rest' hrest' => ?_⟩
        rw [List.cons_append, readDigits, if_neg hc, if_pos hdot, hall rest' hrest']
      · next hdot =>
        simp only [Prod.mk.injEq] at h
        obtain ⟨rfl, rfl⟩ := h
        refine ⟨rfl, fun rest' hrest' => ?_⟩
        cases rest' with
        | nil => rfl
        | cons d ds =>
          rcases hrest' d rfl with hd | hd
          · have hd : c = d := by simpa using hd
            subst hd
            rw [List.nil_append, readDigits, if_neg hc, if_neg hdot]
          · simp only [Bool.or_eq_false_iff, decide_eq_false_iff_not] at hd
            simp [readDigits, hd.1, hd.2]

/-- An identifier takes the characters in front of another one. -/
theorem takeWhile_local (rest' : List Char)
    (h : ∀ d, rest'.head? = some d → (cs.dropWhile isIdent).head? = some d ∨ isIdent d = false) :
    (cs.takeWhile isIdent ++ rest').takeWhile isIdent = cs.takeWhile isIdent ∧
      (cs.takeWhile isIdent ++ rest').dropWhile isIdent = rest' := by
  have hall : ∀ d ∈ cs.takeWhile isIdent, isIdent d = true := fun d hd =>
    List.mem_takeWhile_imp hd
  have hstop : rest'.takeWhile isIdent = [] ∧ rest'.dropWhile isIdent = rest' := by
    cases rest' with
    | nil => exact ⟨rfl, rfl⟩
    | cons d ds =>
      have hd : isIdent d = false := by
        rcases h d rfl with hhead | hd
        · have := List.head?_dropWhile_not isIdent cs
          rw [hhead] at this
          simpa using this
        · exact hd
      simp [hd]
  rw [List.takeWhile_append_of_pos hall, List.dropWhile_append_of_pos hall, hstop.1, hstop.2]
  simp

theorem readNumber_local (h : readNumber c cs = (t, rest)) :
    ∃ lex, cs = lex ++ rest ∧ Lexeme t c lex ∧
      (∀ d, cs.head? = some d → d.isDigit → lex.head? = some d) ∧
      ∀ rest', Follows t rest rest' → readNumber c (lex ++ rest') = (t, rest') := by
  obtain ⟨s, rest'', hs⟩ : ∃ s r, readDigits false cs = (s, r) := ⟨_, _, rfl⟩
  simp only [readNumber, hs, Prod.mk.injEq] at h
  obtain ⟨rfl, rfl⟩ := h
  obtain ⟨hcs, hall⟩ := readDigits_local hs
  refine ⟨s, hcs, .of_plain (by simp) fun d hd => ?_, fun d hd hdigit => ?_,
    fun rest' hfollows => ?_⟩
  · refine mem_readDigits false cs ?_
    rw [hs]
    exact hd
  · cases cs with
    | nil => cases hd
    | cons e es =>
      cases hd
      rw [readDigits, if_pos hdigit] at hs
      simp only [Prod.mk.injEq] at hs
      rw [← hs.1]
      rfl
  · rw [readNumber, hall rest' hfollows]

theorem readIdent_local (h : readIdent c cs = (t, rest)) :
    ∃ lex, cs = lex ++ rest ∧ Lexeme t c lex ∧
      ∀ rest', Follows t rest rest' → readIdent c (lex ++ rest') = (t, rest') := by
  simp only [readIdent, Prod.mk.injEq] at h
  obtain ⟨rfl, rfl⟩ := h
  refine ⟨cs.takeWhile isIdent, List.takeWhile_append_dropWhile.symm,
    .of_plain (by simp) fun d hd => List.mem_takeWhile_imp hd, fun rest' hfollows => ?_⟩
  obtain ⟨htake, hdrop⟩ := takeWhile_local rest' hfollows
  rw [readIdent, htake, hdrop]

/-- A character that may belong to a comparison follows it only where it did. -/
theorem follows_sym {s : Char} {rest' : List Char} (h : Follows (.sym s) rest rest') (d : Char)
    (hd : continues (.sym s) d = true) (hrest : ∀ ds, rest ≠ d :: ds) (ds : List Char) :
    rest' ≠ d :: ds := by
  rintro rfl
  rcases h d rfl with hhead | hcont
  · obtain ⟨es, hes⟩ := List.head?_eq_some_iff.mp hhead
    exact hrest es hes
  · rw [hd] at hcont
    cases hcont

theorem readOperator_local (h : readOperator c cs = .ok (t, rest)) :
    c ≠ '-' ∧ ∃ lex, cs = lex ++ rest ∧ Lexeme t c lex ∧
      ∀ rest', Follows t rest rest' →
      readOperator c (lex ++ rest') = .ok (t, rest') := by
  unfold readOperator at h
  split at h <;> cases h
  · exact ⟨by decide, ['='], rfl, .of_plain (by simp) (by simp [continues]), fun _ _ => rfl⟩
  · exact ⟨by decide, ['>'], rfl, .of_plain (by simp) (by simp [continues]), fun _ _ => rfl⟩
  · next hne hne' =>
    refine ⟨by decide, [], rfl, .of_plain (by simp) (by simp), fun rest' hfollows => ?_⟩
    have heq := follows_sym hfollows '=' rfl hne
    have hgt := follows_sym hfollows '>' rfl hne'
    rw [List.nil_append]
    unfold readOperator
    split <;> simp_all
  · exact ⟨by decide, ['='], rfl, .of_plain (by simp) (by simp [continues]), fun _ _ => rfl⟩
  · next hne =>
    refine ⟨by decide, [], rfl, .of_plain (by simp) (by simp), fun rest' hfollows => ?_⟩
    have heq := follows_sym hfollows '=' rfl hne
    rw [List.nil_append]
    unfold readOperator
    split <;> simp_all
  · exact ⟨by decide, ['='], rfl, .of_plain (by simp) (by simp [continues]), fun _ _ => rfl⟩

/-- A token depends on its own characters and on the next one, and only where that
could belong to it. -/
theorem readToken_local {syms : List Char} (hsyms : '-' ∉ syms)
    (h : readToken syms c cs = .ok (t, rest)) :
    ∃ lex, cs = lex ++ rest ∧ Lexeme t c lex ∧
      ∀ rest', Follows t rest rest' → readToken syms c (lex ++ rest') = .ok (t, rest') := by
  rw [readToken] at h
  by_cases hq : c = '\'' ∨ c = '"'
  · rw [if_pos hq] at h
    cases hs : readString c cs with
    | none => simp [hs] at h
    | some r =>
      simp only [hs, Except.ok.injEq, Prod.mk.injEq] at h
      obtain ⟨rfl, rfl⟩ := h
      obtain ⟨lex, hlex, hlast, hhead, hall⟩ := readString_local hs
      refine ⟨lex, hlex, ⟨fun d hd => ?_, fun h => absurd hq h⟩, fun rest' hfollows => ?_⟩
      · rw [hlast] at hd
        cases hd
        simpa [continues] using hq
      have hne : rest'.head? ≠ some c := fun hc => by
        rcases hfollows c hc with hd | hd
        · exact hhead hd
        · simp only [continues, Bool.or_eq_false_iff, decide_eq_false_iff_not] at hd
          exact hq.elim hd.1 hd.2
      rw [readToken, if_pos hq, hall rest' hne]
  rw [if_neg hq] at h
  by_cases hdigit : c.isDigit
  · rw [if_pos hdigit, Except.ok.injEq] at h
    obtain ⟨lex, hlex, hlast, -, hall⟩ := readNumber_local h
    refine ⟨lex, hlex, hlast, fun rest' hfollows => ?_⟩
    rw [readToken, if_neg hq, if_pos hdigit, hall rest' hfollows]
  rw [if_neg hdigit] at h
  by_cases halpha : c.isAlpha ∨ c = '_'
  · rw [if_pos halpha, Except.ok.injEq] at h
    obtain ⟨lex, hlex, hlast, hall⟩ := readIdent_local h
    refine ⟨lex, hlex, hlast, fun rest' hfollows => ?_⟩
    rw [readToken, if_neg hq, if_neg hdigit, if_pos halpha, hall rest' hfollows]
  rw [if_neg halpha] at h
  by_cases hminus : c = '-' ∧ (cs.head?.any Char.isDigit) = true
  · rw [if_pos hminus, Except.ok.injEq] at h
    obtain ⟨lex, hlex, hlast, hhead, hall⟩ := readNumber_local h
    refine ⟨lex, hlex, hlast, fun rest' hfollows => ?_⟩
    obtain ⟨d, hd, hdd⟩ : ∃ d, cs.head? = some d ∧ d.isDigit := by
      simpa [Option.any_eq_true] using hminus.2
    have hlexd : (lex ++ rest').head? = some d := by
      rw [List.head?_append, hhead d hd hdd]
      rfl
    rw [readToken, if_neg hq, if_neg hdigit, if_neg halpha,
      if_pos ⟨hminus.1, by rw [hlexd]; exact hdd⟩, hall rest' hfollows]
  rw [if_neg hminus] at h
  by_cases hsym : c ∈ syms
  · rw [if_pos hsym] at h
    cases h
    refine ⟨[], rfl, .of_plain (by simp) (by simp), fun rest' _ => ?_⟩
    have hc : c ≠ '-' := fun hc => hsyms (hc ▸ hsym)
    rw [List.nil_append, readToken, if_neg hq, if_neg hdigit, if_neg halpha,
      if_neg fun h => hc h.1, if_pos hsym]
  rw [if_neg hsym] at h
  have hother : c ≠ '-' → ∀ cs, readToken syms c cs = readOperator c cs := fun hc cs => by
    rw [readToken, if_neg hq, if_neg hdigit, if_neg halpha, if_neg fun h => hc h.1, if_neg hsym]
  obtain ⟨hc, lex, hlex, hlast, hall⟩ := readOperator_local h
  refine ⟨lex, hlex, hlast, fun rest' hfollows => ?_⟩
  rw [hother hc, hall rest' hfollows]

theorem isAlpha_eq (c : Char) :
    c.isAlpha = (decide (c.val ≥ 'A'.val ∧ c.val ≤ 'Z'.val) || c.val ≥ 'a'.val && c.val ≤ 'z'.val) :=
  rfl

theorem isIdent_toNat (h : isIdent d) : 48 ≤ d.toNat ∧ d.toNat ≤ 122 := by
  simp only [isIdent, Char.isAlphanum, isAlpha_eq, Char.isDigit,
    Bool.or_eq_true, Bool.and_eq_true, decide_eq_true_eq, UInt32.le_iff_toNat_le, ge_iff_le] at h
  rcases h with ((h | h) | h) | rfl
  · exact ⟨le_trans (by decide) h.1, le_trans h.2 (by decide)⟩
  · exact ⟨le_trans (by decide) h.1, le_trans h.2 (by decide)⟩
  · exact ⟨le_trans (by decide) h.1, le_trans h.2 (by decide)⟩
  · decide

theorem not_isWhite (hlow : 33 ≤ d.toNat) (hhigh : d.toNat ≤ 122) :
    DateTime.isWhite d = false := by
  simp only [DateTime.isWhite, Bool.or_eq_false_iff, Bool.and_eq_false_iff, decide_eq_false_iff_not]
  omega

/-- White space is in no token but a string. -/
theorem not_isWhite_of_continues (h : continues t d = true) :
    DateTime.isWhite d = false := by
  cases t with
  | ident s =>
    obtain ⟨hlow, hhigh⟩ := isIdent_toNat h
    exact not_isWhite (by omega) hhigh
  | number s =>
    simp only [continues, Bool.or_eq_true, decide_eq_true_eq] at h
    rcases h with h | rfl
    · obtain ⟨hlow, hhigh⟩ := isIdent_toNat (d := d) (by simp [isIdent, Char.isAlphanum, h])
      exact not_isWhite (by omega) hhigh
    · decide
  | str s =>
    simp only [continues, Bool.or_eq_true, decide_eq_true_eq] at h
    rcases h with rfl | rfl <;> decide
  | sym s =>
    simp only [continues, Bool.or_eq_true, decide_eq_true_eq] at h
    rcases h with rfl | rfl <;> decide
  | eof => cases h

/-! ## A text -/

/-- `skip_ws` from the inside of a comment. -/
theorem skipWs_true (cs : List Char) : skipWs true cs = skipWs false (cs.dropWhile (· ≠ '\n')) := by
  induction cs with
  | nil => rfl
  | cons c cs ih =>
    by_cases hc : c = '\n'
    · subst hc
      rfl
    · simpa [skipWs, hc] using ih

theorem skipWs_white (h : DateTime.isWhite c) : skipWs false (c :: cs) = skipWs false cs := by
  rw [skipWs, if_pos h]

theorem skipWs_comment (cs : List Char) :
    skipWs false ('-' :: '-' :: cs) = skipWs false (cs.dropWhile (· ≠ '\n')) := by
  rw [← skipWs_true]
  rfl

theorem skipWs_token (hwhite : ¬DateTime.isWhite c) (hcomment : ¬(c = '-' ∧ cs.head? = some '-')) :
    skipWs false (c :: cs) = c :: cs := by
  rw [skipWs, if_neg hwhite, if_neg hcomment]

theorem length_skipWs_le (b : Bool) (cs : List Char) : (skipWs b cs).length ≤ cs.length := by
  induction cs generalizing b with
  | nil => simp [skipWs]
  | cons c cs ih =>
    cases b with
    | true => exact Nat.le_succ_of_le (ih _)
    | false =>
      rw [skipWs]
      split
      · exact Nat.le_succ_of_le (ih _)
      · split
        · exact Nat.le_succ_of_le (ih _)
        · exact Nat.le_refl _

variable {syms : List Char} (hsyms : '-' ∉ syms)

include hsyms

theorem length_readToken_le {r : Token × List Char} (h : readToken syms c cs = .ok r) :
    r.2.length ≤ cs.length := by
  obtain ⟨lex, rfl, -, -⟩ := readToken_local hsyms h
  simp

omit hsyms in
/-- The last token is the end of the text. -/
theorem tokenizeLoop_eof {n : Nat} {ts : List Token} (h : tokenizeLoop syms n cs = .ok ts) :
    ∃ body, ts = body ++ [.eof] := by
  induction n generalizing cs ts with
  | zero =>
    cases h
    exact ⟨[], rfl⟩
  | succ n ih =>
    rw [tokenizeLoop] at h
    cases hs : skipWs false cs with
    | nil =>
      simp only [hs] at h
      cases h
      exact ⟨[], rfl⟩
    | cons c ds =>
      cases ht : readToken syms c ds with
      | error e =>
        simp only [hs, ht] at h
        cases h
      | ok r =>
        cases hr : tokenizeLoop syms n r.2 with
        | error e =>
          simp only [hs, ht, bind, Except.bind, hr] at h
          cases h
        | ok ts' =>
          simp only [hs, ht, bind, Except.bind, hr] at h
          cases h
          obtain ⟨body, rfl⟩ := ih hr
          exact ⟨r.1 :: body, rfl⟩

/-- A count that exceeds the length of the text makes no difference. -/
theorem tokenizeLoop_eq {n m : Nat} (hn : cs.length < n) (hm : cs.length < m) :
    tokenizeLoop syms n cs = tokenizeLoop syms m cs := by
  induction n generalizing m cs with
  | zero => exact absurd hn (Nat.not_lt_zero _)
  | succ n ih =>
    obtain ⟨m, rfl⟩ : ∃ m', m = m' + 1 := ⟨m - 1, by omega⟩
    rw [tokenizeLoop, tokenizeLoop]
    have hlen := length_skipWs_le false cs
    cases hs : skipWs false cs with
    | nil => rfl
    | cons c ds =>
      rw [hs, List.length_cons] at hlen
      cases ht : readToken syms c ds with
      | error e =>
        simp only [ht]
        rfl
      | ok r =>
        have hrest := length_readToken_le hsyms ht
        simp only [ht, bind, Except.bind]
        rw [ih (by omega) (by omega : r.2.length < m)]

theorem tokenizeWith_skipWs {ds : List Char} (h : skipWs false cs = skipWs false ds)
    (hlen : ds.length ≤ cs.length) : tokenizeWith syms cs = tokenizeWith syms ds := by
  rw [tokenizeWith, tokenizeWith, tokenizeLoop_eq hsyms (Nat.lt_succ_of_le hlen) (Nat.lt_succ_self _)
    |>.symm, tokenizeLoop, tokenizeLoop, h]

theorem tokenizeWith_white (h : DateTime.isWhite c) :
    tokenizeWith syms (c :: cs) = tokenizeWith syms cs :=
  tokenizeWith_skipWs hsyms (skipWs_white h) (Nat.le_succ _)

theorem tokenizeWith_comment (cs : List Char) :
    tokenizeWith syms ('-' :: '-' :: cs) = tokenizeWith syms (cs.dropWhile (· ≠ '\n')) := by
  refine tokenizeWith_skipWs hsyms (skipWs_comment cs) ?_
  have := (List.dropWhile_suffix (· ≠ '\n') (l := cs)).length_le
  simp only [List.length_cons]
  omega

theorem tokenizeWith_token (hwhite : ¬DateTime.isWhite c)
    (hcomment : ¬(c = '-' ∧ cs.head? = some '-')) :
    tokenizeWith syms (c :: cs) = do
      let (t, rest) ← readToken syms c cs
      return t :: (← tokenizeWith syms rest) := by
  rw [tokenizeWith, tokenizeLoop, skipWs_token hwhite hcomment]
  cases ht : readToken syms c cs with
  | error e =>
    simp only [ht]
    rfl
  | ok r =>
    have hrest := length_readToken_le hsyms ht
    simp only [ht, bind, Except.bind, List.length_cons]
    rw [tokenizeWith, tokenizeLoop_eq hsyms (by omega) (Nat.lt_succ_self r.2.length)]

/-- The lexer through a text: white space, a comment, or a token with what follows it. -/
theorem lex_induction {motive : List Char → Prop} (nil : motive [])
    (white : ∀ c cs, DateTime.isWhite c → motive cs → motive (c :: cs))
    (comment : ∀ cs, motive (cs.dropWhile (· ≠ '\n')) → motive ('-' :: '-' :: cs))
    (token : ∀ c cs, ¬DateTime.isWhite c → ¬(c = '-' ∧ cs.head? = some '-') →
      (∀ t rest, readToken syms c cs = .ok (t, rest) → motive rest) → motive (c :: cs)) :
    ∀ cs, motive cs := by
  intro cs
  induction h : cs.length using Nat.strong_induction_on generalizing cs with
  | _ n ih =>
    subst h
    cases cs with
    | nil => exact nil
    | cons c cs =>
      by_cases hwhite : DateTime.isWhite c
      · exact white c cs hwhite (ih _ (Nat.lt_succ_self _) cs rfl)
      by_cases hcomment : c = '-' ∧ cs.head? = some '-'
      · obtain ⟨rfl, hhead⟩ := hcomment
        obtain ⟨ds, rfl⟩ := List.head?_eq_some_iff.mp hhead
        refine comment ds (ih _ ?_ _ rfl)
        have := (List.dropWhile_suffix (· ≠ '\n') (l := ds)).length_le
        simp only [List.length_cons]
        omega
      · refine token c cs hwhite hcomment fun t rest ht => ih _ ?_ rest rfl
        exact Nat.lt_succ_of_le (length_readToken_le hsyms ht)

end Lexer

end HenchDB
