import HenchDB.Wire.Lexemes
import Mathlib.Data.List.DropRight

/-!
# Splitting a text into statements

A server is sent several statements in one text.  `splitStatements` cuts it at
the `;` outside quotes; the lexer, which reads every part for itself, also
knows comments.  Where the two read a `;` the same way (`agree`), the cuts are
those of `pieces` and every piece has the tokens it has in the whole text.

A piece of nothing but comments is a part too, though there is no statement in
it.
-/

namespace HenchDB

open Lexer DateTime

def trim (s : List Char) : List Char := (s.dropWhile isWhite).rdropWhile isWhite

/-- The part a piece makes: its text without the white space around it, if there is any. -/
def keepPart (cur : List Char) : List (List Char) := if trim cur = [] then [] else [trim cur]

/-- The loop of `split_statements` with its state `quote` and `cur`. -/
def splitLoop : Option Char → List Char → List Char → List (List Char)
  | _, cur, [] => keepPart cur
  | some _, cur, [c] => keepPart (cur ++ [c])
  | some q, cur, c :: c' :: cs =>
    if c = q then
      if c' = q then splitLoop (some q) (cur ++ [c, c']) cs
      else splitLoop none (cur ++ [c]) (c' :: cs)
    else splitLoop (some q) (cur ++ [c]) (c' :: cs)
  | none, cur, c :: cs =>
    if isQuote c then splitLoop (some c) (cur ++ [c]) cs
    else if c = ';' then keepPart cur ++ splitLoop none [] cs
    else splitLoop none (cur ++ [c]) cs

def splitStatements (sql : List Char) : List (List Char) := splitLoop none [] sql

/-! ## The cuts -/

/-- The quote of the splitter behind a character. -/
def splitQuote : Option Char → Char → Option Char
  | some q, c => if c = q then none else some q
  | none, c => if isQuote c then some c else none

/-- The splitter is outside quotes at a `;` exactly if it is outside strings and
comments. -/
def agree : Option Char → Zone → List Char → Bool
  | _, _, [] => true
  | quote, z, c :: cs =>
    (c ≠ ';' || decide (quote = none ↔ z = .top)) && agree (splitQuote quote c) (z.next c cs) cs

variable {quote : Option Char} {z : Zone} {c : Char} {cur cs : List Char}

theorem agree_cons (h : agree quote z (c :: cs)) :
    (c = ';' → (quote = none ↔ z = .top)) ∧ agree (splitQuote quote c) (z.next c cs) cs := by
  rw [agree, Bool.and_eq_true, Bool.or_eq_true, decide_eq_true_iff, decide_eq_true_iff] at h
  exact ⟨fun hc => h.1.resolve_left (by simpa using hc), h.2⟩

theorem splitQuote_none (hc : isQuote c = false) : splitQuote none c = none := by simp [splitQuote, hc]

/-- A character that is no cut goes on with the piece. -/
theorem pieces_next (hc : ¬(z = .top ∧ c = ';')) (cur : List Char) :
    keepPart (cur ++ (pieces ';' z (c :: cs)).1) ++ (pieces ';' z (c :: cs)).2.flatMap keepPart =
      keepPart (cur ++ [c] ++ (pieces ';' (z.next c cs) cs).1) ++
        (pieces ';' (z.next c cs) cs).2.flatMap keepPart := by
  rw [pieces_char hc, List.append_assoc, List.singleton_append]

theorem no_cut (hagree : agree quote z (c :: cs)) (hquote : quote ≠ none) :
    ¬(z = .top ∧ c = ';') := fun ⟨hz, hc⟩ => hquote (((agree_cons hagree).1 hc).mpr hz)

/-- Where they agree the splitter cuts the text into the pieces. -/
theorem splitLoop_eq (hquote : ∀ q, quote = some q → isQuote q) (hagree : agree quote z cs) :
    splitLoop quote cur cs =
      keepPart (cur ++ (pieces ';' z cs).1) ++ (pieces ';' z cs).2.flatMap keepPart := by
  induction quote, cur, cs using splitLoop.induct generalizing z with
  | case1 => simp [splitLoop, pieces]
  | case2 cur q c =>
    rw [pieces_next (no_cut hagree (by simp)), splitLoop]
    simp [pieces]
  | case3 cur q cs ih =>
    have hne : q ≠ ';' := by rintro rfl; cases hquote _ rfl
    have hnext := (agree_cons (agree_cons hagree).2).2
    have hq : splitQuote (splitQuote (some q) q) q = some q := by
      simp [splitQuote, hquote q rfl]
    rw [hq] at hnext
    rw [pieces_next fun h => hne h.2, pieces_next fun h => hne h.2, splitLoop, if_pos rfl,
      if_pos rfl, ih hquote hnext]
    simp
  | case4 cur q c' cs hc' ih =>
    have hnext := (agree_cons hagree).2
    rw [show splitQuote (some q) q = none by simp [splitQuote]] at hnext
    rw [pieces_next (no_cut hagree (by simp)), splitLoop, if_pos rfl, if_neg hc',
      ih (by simp) hnext]
  | case5 q cur c c' cs hc ih =>
    have hnext := (agree_cons hagree).2
    rw [show splitQuote (some q) c = some q by simp [splitQuote, hc]] at hnext
    rw [pieces_next (no_cut hagree (by simp)), splitLoop, if_neg hc, ih hquote hnext]
  | case6 cur c cs hc ih =>
    have hne : c ≠ ';' := by rintro rfl; cases hc
    have hnext := (agree_cons hagree).2
    rw [show splitQuote none c = some c by simp [splitQuote, hc]] at hnext
    rw [pieces_next fun h => hne h.2, splitLoop, if_pos hc, ih (by rintro q ⟨⟩; exact hc) hnext]
  | case7 cur cs hc ih =>
    obtain ⟨htop, hnext⟩ := agree_cons hagree
    obtain rfl := (htop rfl).mp rfl
    rw [splitQuote_none rfl] at hnext
    rw [splitLoop, if_neg hc, if_pos rfl, ih (by simp) hnext, pieces_mark ⟨rfl, rfl⟩]
    simp
  | case8 cur c cs hc hne ih =>
    have hnext := (agree_cons hagree).2
    rw [splitQuote_none (by simpa using hc)] at hnext
    rw [pieces_next fun h => hne h.2, splitLoop, if_neg hc, if_neg hne, ih (by simp) hnext]

/-! ## The tokens of the pieces -/

/-- The runs of tokens between the `;` tokens of a text, without the empty ones. -/
def statementRuns (ts : List Token) : List (List Token) :=
  (ts.dropLast.splitOnP (· = .sym ';')).filter fun run => !run.isEmpty

theorem symbols_dash : '-' ∉ symbols := by decide

theorem symbols_backtick : '`' ∉ symbols := by decide

/-- The tokens of a text with `run` are `run` and the end. -/
def HasTokens (p : List Char) (run : List Token) : Prop := tokenize p = .ok (run ++ [.eof])

variable {p : List Char} {run : List Token}

theorem HasTokens.white (hc : isWhite c) (h : HasTokens p run) :
    HasTokens (c :: p) run := (tokenizeWith_white symbols_dash hc).trans h

theorem HasTokens.comment {body : List Char} (hbody : ∀ d ∈ body, d ≠ '\n')
    (hp : p = [] ∨ p.head? = some '\n') (h : HasTokens p run) :
    HasTokens ('-' :: '-' :: body ++ p) run := by
  have hdrop : (body ++ p).dropWhile (· ≠ '\n') = p := by
    rw [List.dropWhile_append_of_pos (by simpa using hbody)]
    rcases hp with rfl | hp
    · rfl
    · obtain ⟨ds, rfl⟩ := List.head?_eq_some_iff.mp hp
      rfl
  rw [HasTokens, List.cons_append, List.cons_append, tokenize, tokenizeWith_comment symbols_dash, hdrop]
  exact h

theorem HasTokens.token {t : Token} (hwhite : ¬isWhite c)
    (hcomment : ¬(c = '-' ∧ cs.head? = some '-')) (ht : readToken symbols c cs = .ok (t, p))
    (h : HasTokens p run) : HasTokens (c :: cs) (t :: run) := by
  rw [HasTokens, tokenize, tokenizeWith_token symbols_dash hwhite hcomment, ht]
  simp only [bind, Except.bind, show tokenizeWith symbols p = _ from h]
  rfl

theorem HasTokens.unique {run' : List Token} (h : HasTokens p run) (h' : HasTokens p run') :
    run = run' := by
  have heq := h.symm.trans h'
  rw [Except.ok.injEq] at heq
  exact List.append_cancel_right heq

theorem HasTokens.of_token (hwhite : ¬isWhite c) (hcomment : ¬(c = '-' ∧ cs.head? = some '-'))
    (h : HasTokens (c :: cs) run) :
    ∃ t rest run', readToken symbols c cs = .ok (t, rest) ∧ HasTokens rest run' ∧ run = t :: run' := by
  rw [HasTokens, tokenize, tokenizeWith_token symbols_dash hwhite hcomment] at h
  cases ht : readToken symbols c cs with
  | error e =>
    rw [ht] at h
    cases h
  | ok r =>
    rw [ht] at h
    cases hrest : tokenizeWith symbols r.2 with
    | error e =>
      simp only [bind, Except.bind, hrest] at h
      cases h
    | ok ts =>
      simp only [bind, Except.bind, hrest] at h
      obtain ⟨body, rfl⟩ := tokenizeLoop_eof hrest
      have heq : r.1 :: body ++ [.eof] = run ++ [.eof] := Except.ok.inj h
      exact ⟨r.1, r.2, body, rfl, hrest, (List.append_cancel_right heq).symm⟩

/-- The first piece and the first run changed together. -/
theorem forall₂_head {α β : Type} {R : α → β → Prop} {f : β → β} {a a' : α} {as : List α}
    {bs : List β} (h : List.Forall₂ R (a :: as) bs) (himp : ∀ b, R a b → R a' (f b)) :
    List.Forall₂ R (a' :: as) (bs.modifyHead f) := by
  cases h with
  | cons hhead htail => exact .cons (himp _ hhead) htail

/-- Every piece of a text has the tokens between two `;` tokens of the text. -/
theorem hasTokens_pieces {body : List Token} (h : HasTokens cs body) :
    List.Forall₂ HasTokens ((pieces ';' .top cs).1 :: (pieces ';' .top cs).2)
      (body.splitOnP (· = .sym ';')) := by
  induction cs using lex_induction symbols_dash generalizing body with
  | nil =>
    obtain rfl := h.unique (show HasTokens [] [] from rfl)
    exact .cons rfl .nil
  | white c cs hc ih =>
    have hall := ih ((tokenizeWith_white symbols_dash hc).symm.trans h)
    rw [pieces_white hc (by decide)]
    simpa using forall₂_head (f := id) hall fun run => HasTokens.white hc
  | comment cs ih =>
    have hall := ih ((tokenizeWith_comment symbols_dash cs).symm.trans h)
    rw [pieces_comment (by decide) (by decide)]
    have hbody : ∀ d ∈ cs.takeWhile (· ≠ '\n'), d ≠ '\n' := fun d hd => by
      simpa using List.mem_takeWhile_imp hd
    have hend : (pieces ';' .top (cs.dropWhile (· ≠ '\n'))).1 = [] ∨
        (pieces ';' .top (cs.dropWhile (· ≠ '\n'))).1.head? = some '\n' := by
      have hhead := List.head?_dropWhile_not (· ≠ '\n') cs
      cases hdrop : cs.dropWhile (· ≠ '\n') with
      | nil => exact .inl rfl
      | cons d ds =>
        rw [hdrop] at hhead
        obtain rfl : d = '\n' := by simpa using hhead
        exact .inr (by rw [pieces_char (by decide)]; rfl)
    simpa using forall₂_head (f := id) hall fun run => HasTokens.comment hbody hend
  | token c cs hwhite hcomment ih =>
    obtain ⟨t, rest, body', ht, hrest, rfl⟩ := h.of_token hwhite hcomment
    have hall := ih t rest ht hrest
    rw [List.splitOnP_cons_eq_if_modifyHead]
    by_cases hc : c = ';'
    · subst hc
      have hsym : readToken symbols ';' cs = .ok (.sym ';', cs) := rfl
      rw [hsym] at ht
      cases ht
      rw [pieces_mark ⟨rfl, rfl⟩]
      exact .cons rfl hall
    · have htc : ¬(decide (t = .sym ';') = true) := by
        rw [decide_eq_true_iff]
        rintro rfl
        rcases readToken_sym ht with ⟨h, -⟩ | h | h | h
        · exact hc h.symm
        all_goals exact absurd h (by decide)
      obtain ⟨lex, rfl, -, hlocal⟩ := readToken_local symbols_dash ht
      rw [if_neg htc, ← List.cons_append,
        pieces_token (by decide) symbols_dash symbols_backtick hcomment hc ht]
      have hpiece : ¬(c = '-' ∧ (lex ++ (pieces ';' .top rest).1).head? = some '-') := by
        rintro ⟨rfl, hhead⟩
        refine hcomment ⟨rfl, ?_⟩
        cases lex with
        | nil => exact head?_piece hhead
        | cons d ds => exact hhead
      refine forall₂_head hall fun run => HasTokens.token hwhite hpiece (hlocal _ ?_)
      exact fun d hd => .inl (head?_piece hd)

/-! ## The parts -/

theorem hasTokens_white {w : List Char} (hw : ∀ d ∈ w, isWhite d) : HasTokens w [] := by
  induction w with
  | nil => rfl
  | cons d ds ih =>
    exact (ih fun e he => hw e (List.mem_cons_of_mem _ he)).white (hw d List.mem_cons_self)

/-- White space at the end is not read. -/
theorem HasTokens.append_white {w : List Char} (hw : ∀ d ∈ w, isWhite d)
    (h : HasTokens (p ++ w) run) : HasTokens p run := by
  obtain ⟨cs, hcs⟩ : ∃ cs, cs = p ++ w := ⟨_, rfl⟩
  rw [← hcs] at h
  induction cs using lex_induction symbols_dash generalizing p run with
  | nil =>
    obtain ⟨rfl, rfl⟩ := List.append_eq_nil_iff.mp hcs.symm
    exact h
  | white c cs hc ih =>
    have hrest : HasTokens cs run := (tokenizeWith_white symbols_dash hc).symm.trans h
    cases p with
    | nil =>
      rw [hcs] at h
      rw [h.unique (hasTokens_white hw)]
      rfl
    | cons d p =>
      rw [List.cons_append, List.cons.injEq] at hcs
      obtain ⟨rfl, rfl⟩ := hcs
      exact (ih hrest rfl).white hc
  | comment cs ih =>
    have hrest : HasTokens (cs.dropWhile (· ≠ '\n')) run :=
      (tokenizeWith_comment symbols_dash cs).symm.trans h
    have hdash : ¬isWhite '-' := by decide
    cases p with
    | nil => exact absurd (hw '-' (by rw [← List.nil_append w, ← hcs]; simp)) hdash
    | cons d p =>
      rw [List.cons_append, List.cons.injEq] at hcs
      obtain ⟨rfl, hcs⟩ := hcs
      cases p with
      | nil => exact absurd (hw '-' (by rw [← List.nil_append w, ← hcs]; simp)) hdash
      | cons d p =>
        rw [List.cons_append, List.cons.injEq] at hcs
        obtain ⟨rfl, rfl⟩ := hcs
        rw [HasTokens, tokenize, tokenizeWith_comment symbols_dash]
        rw [List.dropWhile_append] at hrest ih
        split at hrest
        · next hempty =>
          rw [List.isEmpty_iff.mp hempty]
          have hsuffix := List.dropWhile_suffix (· ≠ '\n') (l := w)
          rw [hrest.unique (hasTokens_white fun d hd => hw d (hsuffix.subset hd))]
          rfl
        · next hempty =>
          rw [if_neg hempty] at ih
          exact ih hrest rfl
  | token c cs hwhite hcomment ih =>
    obtain ⟨t, rest, run', ht, hrest, rfl⟩ := h.of_token hwhite hcomment
    cases p with
    | nil => exact absurd (hw c (by rw [← List.nil_append w, ← hcs]; simp)) hwhite
    | cons d p =>
      rw [List.cons_append, List.cons.injEq] at hcs
      obtain ⟨rfl, rfl⟩ := hcs
      obtain ⟨lex, hlex, hlexeme, hlocal⟩ := readToken_local symbols_dash ht
      obtain ⟨r, rfl, hr⟩ : ∃ r, p = lex ++ r ∧ rest = r ++ w := by
        rcases List.append_eq_append_iff.mp hlex with ⟨v, rfl, rfl⟩ | ⟨v, rfl, rfl⟩
        · -- A token that ended in the white space would end with white space.
          cases hv : v.getLast? with
          | none =>
            obtain rfl := List.getLast?_eq_none_iff.mp hv
            exact ⟨[], by simp, rfl⟩
          | some d =>
            have hlast := hlexeme.last d (by simp [List.getLast?_append, hv])
            have hwhite := hw d (List.mem_append_left _ (List.mem_of_getLast? hv))
            rw [not_isWhite_of_continues hlast] at hwhite
            cases hwhite
        · exact ⟨v, rfl, rfl⟩
      subst hr
      have hhead : ∀ {d xs}, (xs : List Char).head? = some d → (xs ++ w).head? = some d := by
        intro d xs h
        rw [List.head?_append, h]
        rfl
      refine HasTokens.token hwhite (fun h => hcomment ⟨h.1, hhead h.2⟩) (hlocal r ?_)
        (ih t _ ht hrest rfl)
      exact fun d hd => .inl (hhead hd)

/-- A part has the tokens of the piece it is made from. -/
theorem HasTokens.trim (h : HasTokens p run) :
    HasTokens (trim p) run := by
  have hfront : ∀ {q : List Char}, HasTokens q run → HasTokens (q.dropWhile isWhite) run := by
    intro q hq
    induction q with
    | nil => exact hq
    | cons d q ih =>
      by_cases hd : isWhite d
      · rw [List.dropWhile_cons_of_pos hd]
        exact ih ((tokenizeWith_white symbols_dash hd).symm.trans hq)
      · rwa [List.dropWhile_cons_of_neg hd]
  refine HasTokens.append_white (w := (p.dropWhile isWhite).rtakeWhile isWhite) ?_ ?_
  · exact fun d hd => List.mem_rtakeWhile_imp hd
  · rw [HenchDB.trim, List.rdropWhile_append_rtakeWhile]
    exact hfront h

/-- A text without tokens is white space and comments. -/
theorem HasTokens.skipWs_eq (h : HasTokens p []) : skipWs false p = [] := by
  rw [HasTokens, tokenize, tokenizeWith, tokenizeLoop] at h
  cases hs : skipWs false p with
  | nil => rfl
  | cons c cs =>
    simp only [hs] at h
    cases ht : readToken symbols c cs with
    | error e =>
      rw [ht] at h
      cases h
    | ok r =>
      cases hr : tokenizeLoop symbols p.length r.2 with
      | error e =>
        simp only [ht, bind, Except.bind, hr] at h
        cases h
      | ok ts =>
        obtain ⟨body, rfl⟩ := tokenizeLoop_eof hr
        simp only [ht, bind, Except.bind, hr] at h
        have heq : r.1 :: (body ++ [.eof]) = [.eof] := Except.ok.inj h
        simp at heq

theorem trim_eq_nil_iff : trim p = [] ↔ ∀ d ∈ p, isWhite d := by
  rw [HenchDB.trim, List.rdropWhile_eq_nil_iff]
  constructor
  · intro h
    rw [← List.dropWhile_eq_nil_iff]
    cases hdrop : p.dropWhile isWhite with
    | nil => rfl
    | cons d ds =>
      have hhead := List.head?_dropWhile_not isWhite p
      rw [hdrop] at h hhead
      have hd := h d List.mem_cons_self
      simp [hd] at hhead
  · exact fun h d hd => h d ((List.dropWhile_suffix isWhite).subset hd)

/-- The pieces of a text between the `;` tokens. -/
def statementTexts (sql : List Char) : List (List Char) :=
  (pieces ';' .top sql).1 :: (pieces ';' .top sql).2

/-- The splitter and the lexer read every `;` of the text the same way, and no piece
between two of them holds comments and nothing else. -/
def splitsWell (sql : List Char) : Bool :=
  agree none .top sql &&
    (statementTexts sql).all fun p => !(skipWs false p).isEmpty || p.all isWhite

/-- The parts of a text that splits well have the tokens between its `;` tokens. -/
theorem splitStatements_tokens {sql : List Char} (hwell : splitsWell sql) {ts : List Token}
    (h : tokenize sql = .ok ts) :
    (splitStatements sql).mapM tokenize = .ok ((statementRuns ts).map (· ++ [.eof])) := by
  obtain ⟨body, rfl⟩ := tokenizeLoop_eof h
  obtain ⟨hagree, hcomments⟩ := Bool.and_eq_true_iff.mp hwell
  have hparts : splitStatements sql = (statementTexts sql).flatMap keepPart := by
    rw [splitStatements, splitLoop_eq (by simp) hagree]
    rfl
  have hall : List.Forall₂ HasTokens (statementTexts sql) (body.splitOnP (· = .sym ';')) :=
    hasTokens_pieces h
  rw [hparts, statementRuns, List.dropLast_concat]
  rw [List.all_eq_true] at hcomments
  generalize statementTexts sql = texts at hall hcomments
  generalize body.splitOnP (· = .sym ';') = runs at hall
  induction hall with
  | nil => rfl
  | @cons p run texts runs hp _ ih =>
    have ih := ih fun q hq => hcomments q (List.mem_cons_of_mem _ hq)
    rw [List.flatMap_cons, keepPart]
    split
    · next hempty =>
      obtain rfl : run = [] := hp.unique (hasTokens_white (trim_eq_nil_iff.mp hempty))
      simpa using ih
    · next hempty =>
      have hrun : run ≠ [] := by
        rintro rfl
        have := hcomments p List.mem_cons_self
        rw [hp.skipWs_eq] at this
        exact hempty (trim_eq_nil_iff.mpr (by simpa using this))
      have htrim : tokenize (trim p) = .ok (run ++ [.eof]) := hp.trim
      rw [List.filter_cons_of_pos (by simpa using hrun), List.singleton_append, List.mapM_cons, htrim,
        ih]
      rfl

/-- `--` comments with a quote hide the `;` behind them: `DROP` is not a part. -/
theorem splitStatements_hides :
    ¬∀ sql ts, tokenize sql = .ok ts →
      (splitStatements sql).mapM tokenize = .ok ((statementRuns ts).map (· ++ [.eof])) := by
  intro h
  have htokens : tokenize "GO -- it's\n; DROP t".toList =
      .ok [.ident "GO", .sym ';', .ident "DROP", .ident "t", .eof] := by decide
  have hparts := h _ _ htokens
  revert hparts
  decide

/-- A comment without a quote or a `;` is no harm. -/
theorem splitStatements_tokens_ab :
    (splitStatements "a -- c\n;b".toList).mapM tokenize =
      .ok ((statementRuns [.ident "a", .sym ';', .ident "b", .eof]).map (· ++ [.eof])) :=
  splitStatements_tokens (by decide) (by decide)

end HenchDB
