import HenchDB.Sql.Lexer
import HenchDB.Wire.Statement

/-!
# Tokens do not cross pieces

What the lexer reads as white space, as a comment or as a token lies in one
piece of the text, and behind it the scanner of `pieces` is outside quotes and
comments again.  Only the token that is the mark itself is cut.
-/

namespace HenchDB

open Lexer DateTime

variable {mark c : Char} {cs rest : List Char}

/-- Characters that are no quotes, dashes or marks leave the scanner outside. -/
theorem pieces_plain {xs : List Char} (hxs : ∀ d ∈ xs, isQuote d = false ∧ d ≠ '-' ∧ d ≠ mark) :
    pieces mark .top (xs ++ rest) =
      (xs ++ (pieces mark .top rest).1, (pieces mark .top rest).2) := by
  induction xs with
  | nil => rfl
  | cons d xs ih =>
    obtain ⟨hquote, hdash, hmark⟩ := hxs d List.mem_cons_self
    have htop : Zone.next .top d (xs ++ rest) = .top := by simp [Zone.next, hquote, hdash]
    rw [List.cons_append, pieces_char fun h => hmark h.2, htop,
      ih fun d hd => hxs d (List.mem_cons_of_mem _ hd)]
    rfl

theorem pieces_white (hc : isWhite c) (hmark : ¬isWhite mark) :
    pieces mark .top (c :: cs) = (c :: (pieces mark .top cs).1, (pieces mark .top cs).2) := by
  refine @pieces_plain _ _ [c] ?_
  intro d hd
  cases List.mem_singleton.mp hd
  refine ⟨?_, ?_, ?_⟩
  · rw [← Bool.not_eq_true, isQuote_iff]
    rintro (rfl | rfl | rfl) <;> cases hc
  · rintro rfl
    cases hc
  · rintro rfl
    exact hmark hc

theorem pieces_in_comment (hmark : mark ≠ '\n') (cs : List Char) :
    pieces mark .comment cs =
      (cs.takeWhile (· ≠ '\n') ++ (pieces mark .top (cs.dropWhile (· ≠ '\n'))).1,
        (pieces mark .top (cs.dropWhile (· ≠ '\n'))).2) := by
  induction cs with
  | nil => rfl
  | cons c cs ih =>
    by_cases hc : c = '\n'
    · subst hc
      rw [pieces_char (by simp)]
      have htop : Zone.next .top '\n' cs = .top := rfl
      simp only [ne_eq, not_true_eq_false, decide_false, Bool.false_eq_true, not_false_eq_true,
        List.takeWhile_cons_of_neg, List.dropWhile_cons_of_neg, List.nil_append]
      rw [pieces_char fun h => hmark h.2.symm, htop]
      rfl
    · rw [pieces_char (by simp)]
      have hnext : Zone.next .comment c cs = .comment := by simp [Zone.next, hc]
      simp [hnext, ih, hc]

theorem pieces_comment (hmark : mark ≠ '\n') (hdash : mark ≠ '-') (cs : List Char) :
    pieces mark .top ('-' :: '-' :: cs) =
      ('-' :: '-' :: cs.takeWhile (· ≠ '\n') ++ (pieces mark .top (cs.dropWhile (· ≠ '\n'))).1,
        (pieces mark .top (cs.dropWhile (· ≠ '\n'))).2) := by
  have hnext : Zone.next .top '-' ('-' :: cs) = .comment := rfl
  have hnext' : Zone.next .comment '-' cs = .comment := rfl
  rw [pieces_char fun h => hdash h.2.symm, hnext, pieces_char (by simp), hnext',
    pieces_in_comment hmark]
  rfl

theorem pieces_string {quote : Char} (hmark : mark ≠ quote) (hquote : isQuote quote) {s : List Char}
    (h : readString quote cs = some (s, rest)) :
    ∃ lex, cs = lex ++ rest ∧ pieces mark (.quoted quote) cs =
      (lex ++ (pieces mark .top rest).1, (pieces mark .top rest).2) := by
  have hclose : ∀ ds, Zone.next (.quoted quote) quote ds = .top := fun ds => by simp [Zone.next]
  have hopen : ∀ ds, Zone.next .top quote ds = .quoted quote := fun ds => by simp [Zone.next, hquote]
  induction cs using readString.induct quote generalizing s with
  | case1 => simp [readString] at h
  | case2 =>
    simp only [readString, if_true, Option.some.injEq, Prod.mk.injEq] at h
    obtain ⟨rfl, rfl⟩ := h
    exact ⟨[quote], rfl, by rw [pieces_char (by simp), hclose]; rfl⟩
  | case3 c hc => simp [readString, hc] at h
  | case4 cs ih =>
    simp only [readString, if_true, Option.map_eq_some_iff, Prod.exists, Prod.mk.injEq] at h
    obtain ⟨s', rest'', hs, rfl, rfl⟩ := h
    obtain ⟨lex, rfl, hpieces⟩ := ih hs
    refine ⟨quote :: quote :: lex, rfl, ?_⟩
    rw [pieces_char (by simp), hclose, pieces_char fun h => hmark h.2.symm, hopen, hpieces]
    rfl
  | case5 c' cs hc' =>
    simp only [readString, if_true, hc', if_false, Option.some.injEq, Prod.mk.injEq] at h
    obtain ⟨rfl, rfl⟩ := h
    exact ⟨[quote], rfl, by rw [pieces_char (by simp), hclose]; rfl⟩
  | case6 c c' cs hc ih =>
    simp only [readString, hc, if_false, Option.map_eq_some_iff, Prod.exists,
      Prod.mk.injEq] at h
    obtain ⟨s', rest'', hs, rfl, rfl⟩ := h
    obtain ⟨lex, hlex, hpieces⟩ := ih hs
    refine ⟨c :: lex, by rw [hlex, List.cons_append], ?_⟩
    have hnext : Zone.next (.quoted quote) c (c' :: cs) = .quoted quote := by simp [Zone.next, hc]
    rw [pieces_char (by simp), hnext, hpieces]
    rfl

variable {syms : List Char}

theorem readToken_backtick (hsyms : '`' ∉ syms) (cs : List Char) :
    ∃ e, readToken syms '`' cs = .error e := by
  rw [readToken, if_neg (by decide), if_neg (by decide), if_neg (by decide),
    if_neg (by simp), if_neg hsyms]
  exact ⟨_, rfl⟩

/-- The token of one character is that character or a comparison of two. -/
theorem readToken_sym {d : Char} (h : readToken syms c cs = .ok (.sym d, rest)) :
    (d = c ∧ rest = cs) ∨ d = '≤' ∨ d = '≠' ∨ d = '≥' := by
  rw [readToken] at h
  split at h
  · split at h <;> simp at h
  split at h
  · simp [readNumber] at h
  split at h
  · simp [readIdent] at h
  split at h
  · simp [readNumber] at h
  split at h
  · simp only [Except.ok.injEq, Prod.mk.injEq, Token.sym.injEq] at h
    exact .inl ⟨h.1.symm, h.2.symm⟩
  rw [readOperator.eq_def] at h
  split at h <;> cases h <;> simp

theorem plain_of_continues {t : Token} {d : Char} (ht : ∀ s, t ≠ .str s)
    (h : continues t d = true) : isQuote d = false ∧ d ≠ '-' ∧ d ∉ ['?', ';', '/'] := by
  have hnot : ∀ e ∈ ['\'', '"', '`', '-', '?', ';', '/'], continues t e = false := by
    intro e he
    cases t with
    | str s => exact absurd rfl (ht s)
    | eof => rfl
    | ident s =>
      have hident : ∀ e ∈ ['\'', '"', '`', '-', '?', ';', '/'], isIdent e = false :=
        List.all_iff_forall_prop.mp (by decide)
      exact hident e he
    | number s =>
      have hnumber : ∀ e ∈ ['\'', '"', '`', '-', '?', ';', '/'],
          (e.isDigit || e = '.') = false := List.all_iff_forall_prop.mp (by decide)
      exact hnumber e he
    | sym s =>
      have hsym : ∀ e ∈ ['\'', '"', '`', '-', '?', ';', '/'],
          (decide (e = '=') || decide (e = '>')) = false := List.all_iff_forall_prop.mp (by decide)
      exact hsym e he
  have hne : ∀ e ∈ ['\'', '"', '`', '-', '?', ';', '/'], d ≠ e := by
    rintro e he rfl
    rw [hnot d he] at h
    cases h
  have hquote := hne '`' (by simp)
  refine ⟨?_, hne _ (by simp), fun hd => hne d (by aesop) rfl⟩
  simp [isQuote, hne '\'' (by simp), hne '"' (by simp), hquote]

theorem pieces_token (hmark : mark ∈ ['?', ';', '/']) (hdash : '-' ∉ syms) (hback : '`' ∉ syms)
    {lex : List Char} (hcomment : ¬(c = '-' ∧ (lex ++ rest).head? = some '-')) (hc : c ≠ mark)
    {t : Token} (h : readToken syms c (lex ++ rest) = .ok (t, rest)) :
    pieces mark .top (c :: lex ++ rest) =
      (c :: lex ++ (pieces mark .top rest).1, (pieces mark .top rest).2) := by
  rw [List.cons_append]
  by_cases hq : c = '\'' ∨ c = '"'
  · have hquote : isQuote c := isQuote_iff.mpr (by tauto)
    have hne : mark ≠ c := hc.symm
    rw [readToken, if_pos hq] at h
    cases hs : readString c (lex ++ rest) with
    | none => simp [hs] at h
    | some r =>
      simp only [hs, Except.ok.injEq, Prod.mk.injEq] at h
      obtain ⟨-, hr⟩ := h
      obtain ⟨lex', hlex, hpieces⟩ := pieces_string hne hquote hs
      rw [hr] at hlex hpieces
      obtain rfl := List.append_cancel_right hlex
      have hnext : Zone.next .top c (lex ++ rest) = .quoted c := by simp [Zone.next, hquote]
      rw [pieces_char fun h => hc h.2, hnext, hpieces]
      rfl
  · have hnotBack : c ≠ '`' := by
      rintro rfl
      obtain ⟨e, he⟩ := readToken_backtick hback (lex ++ rest)
      rw [he] at h
      cases h
    have hquote : ¬isQuote c := fun hquote => by
      rcases isQuote_iff.mp hquote with h | h | h <;> tauto
    have hnext : Zone.next .top c (lex ++ rest) = .top := by
      rw [Zone.next, if_neg hquote, if_neg hcomment]
    obtain ⟨lex', hlex, hlexeme, -⟩ := readToken_local hdash h
    obtain rfl := List.append_cancel_right hlex
    obtain ⟨ht, hall⟩ := hlexeme.plain hq
    rw [pieces_char fun h => hc h.2, hnext, pieces_plain]
    · rfl
    · intro d hd
      obtain ⟨hquote, hdash, hmarks⟩ := plain_of_continues ht (hall d hd)
      exact ⟨hquote, hdash, fun h => hmarks (h ▸ hmark)⟩

end HenchDB
