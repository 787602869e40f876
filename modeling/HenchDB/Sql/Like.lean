import HenchDB.Lib.Memo
import HenchDB.Sql.Expr

/-!
# `LIKE`

The matcher recurses over two positions and keeps the answers in a table: a run of
`%` is passed over and every rest of the text is tried, `_` and other characters
take one character.  What it answers is the answer without the table
(`likeMatch_eq`), and that says that the text can be split into consecutive parts,
one for each character of the pattern (`likeMatch_iff`).  The position in the
pattern grows with every call, so the recursion ends.
-/

namespace HenchDB.Like

open Memo (Answers memoized Gives)

/-! ## The matcher -/

/-- The end of the run of `%` from a position on. -/
def runEnd (p : List Char) (pj : Nat) : Nat :=
  if pj < p.length ∧ p[pj]? = some '%' then runEnd p (pj + 1) else pj
termination_by p.length - pj

theorem le_runEnd (p : List Char) (pj : Nat) : pj ≤ runEnd p pj := by
  induction pj using runEnd.induct (p := p) with
  | case1 pj h ih =>
    rw [runEnd, if_pos h]
    omega
  | case2 pj h => rw [runEnd, if_neg h]

variable {p t : List Char} {pi : Nat} {c : Char}

theorem lt_runEnd (h : p[pi]? = some '%') : pi < runEnd p pi := by
  have hlt : pi < p.length := (List.getElem?_eq_some_iff.mp h).1
  rw [runEnd, if_pos ⟨hlt, h⟩]
  exact le_runEnd p (pi + 1)

/-- `go` of `like_match`: the text from `ti` on and the pattern from `pi` on. -/
def go (t p : List Char) (ti pi : Nat) : StateM (Answers (Nat × Nat) Bool) Bool :=
  memoized (ti, pi) <|
    match hc : p[pi]? with
    | none => pure (ti = t.length)
    | some c =>
      if hpercent : c = '%' then
        (List.range' ti (t.length + 1 - ti)).anyM fun k => go t p k (runEnd p pi)
      else if ti < t.length ∧ (c = '_' ∨ t[ti]? = some c) then go t p (ti + 1) (pi + 1)
      else pure false
termination_by p.length - pi
decreasing_by
  · have hlt := (List.getElem?_eq_some_iff.mp hc).1
    have hrun := lt_runEnd (hpercent ▸ hc)
    omega
  · have hlt := (List.getElem?_eq_some_iff.mp hc).1
    omega

def likeMatch (text pattern : String) : Bool := (go text.toList pattern.toList 0 0 ∅).1

/-! ## What a pattern means -/

/-- The part of a text that a character of a pattern matches. -/
def Part (c : Char) (s : List Char) : Prop :=
  c = '%' ∨ c = '_' ∧ s.length = 1 ∨ c ≠ '%' ∧ c ≠ '_' ∧ s = [c]

/-- The text is split into consecutive parts, one for each character of the pattern. -/
def Splits (pattern text : List Char) : Prop :=
  ∃ parts : List (List Char), List.Forall₂ Part pattern parts ∧ parts.flatten = text

theorem splits_nil : Splits [] t ↔ t = [] := by
  constructor
  · rintro ⟨parts, hparts, rfl⟩
    rw [List.forall₂_nil_left_iff.mp hparts]
    rfl
  · rintro rfl
    exact ⟨[], .nil, rfl⟩

theorem splits_cons :
    Splits (c :: p) t ↔ ∃ s t', Part c s ∧ Splits p t' ∧ s ++ t' = t := by
  constructor
  · rintro ⟨parts, hparts, rfl⟩
    obtain ⟨s, rest, hs, hrest, rfl⟩ := List.forall₂_cons_left_iff.mp hparts
    exact ⟨s, rest.flatten, hs, ⟨rest, hrest, rfl⟩, rfl⟩
  · rintro ⟨s, _, hs, ⟨rest, hrest, rfl⟩, rfl⟩
    exact ⟨s :: rest, .cons hs hrest, rfl⟩

theorem likeChars_percent :
    likeChars ('%' :: p) t = true ↔ ∃ s, s <:+ t ∧ likeChars p s = true := by
  simp [likeChars, List.any_eq_true, List.mem_tails]

theorem likeChars_cons (hc : c ≠ '%') :
    likeChars (c :: p) t = true ↔
      ∃ d ts, t = d :: ts ∧ (c = '_' ∨ c = d) ∧ likeChars p ts = true := by
  cases t with
  | nil => simp [likeChars]
  | cons d ts => simp [likeChars]

theorem likeChars_iff : ∀ {p t : List Char}, likeChars p t = true ↔ Splits p t
  | [], t => by rw [likeChars, splits_nil, List.isEmpty_iff]
  | c :: p, t => by
    rw [splits_cons]
    by_cases hc : c = '%'
    · subst hc
      rw [likeChars_percent]
      constructor
      · rintro ⟨s, ⟨front, rfl⟩, hs⟩
        exact ⟨front, s, .inl rfl, likeChars_iff.mp hs, rfl⟩
      · rintro ⟨front, s, -, hs, rfl⟩
        exact ⟨s, List.suffix_append front s, likeChars_iff.mpr hs⟩
    · rw [likeChars_cons hc]
      constructor
      · rintro ⟨d, ts, rfl, hd, hts⟩
        refine ⟨[d], ts, ?_, likeChars_iff.mp hts, rfl⟩
        by_cases hone : c = '_'
        · exact .inr (.inl ⟨hone, rfl⟩)
        · exact .inr (.inr ⟨hc, hone, by rw [hd.resolve_left hone]⟩)
      · rintro ⟨s, ts, hs, hts, rfl⟩
        rcases hs with hpercent | ⟨hone, hs⟩ | ⟨-, -, rfl⟩
        · exact absurd hpercent hc
        · obtain ⟨d, rfl⟩ := List.length_eq_one_iff.mp hs
          exact ⟨d, ts, rfl, .inl hone, likeChars_iff.mpr hts⟩
        · exact ⟨c, ts, rfl, .inr rfl, likeChars_iff.mpr hts⟩

/-! ## The matcher and the table -/

theorem drop_of_getElem? (h : p[pi]? = some c) :
    p.drop pi = c :: p.drop (pi + 1) := by
  obtain ⟨hlt, rfl⟩ := List.getElem?_eq_some_iff.mp h
  exact List.drop_eq_getElem_cons hlt

/-- A run of `%` matches what one matches. -/
theorem likeChars_runEnd (p t : List Char) (pj : Nat) :
    (∃ s, s <:+ t ∧ likeChars (p.drop pj) s = true) ↔
      ∃ s, s <:+ t ∧ likeChars (p.drop (runEnd p pj)) s = true := by
  induction pj using runEnd.induct (p := p) with
  | case1 pj h ih =>
    rw [runEnd, if_pos h, ← ih, drop_of_getElem? h.2]
    simp only [likeChars_percent]
    constructor
    · rintro ⟨s, hs, s', hs', hmatch⟩
      exact ⟨s', hs'.trans hs, hmatch⟩
    · rintro ⟨s, hs, hmatch⟩
      exact ⟨s, hs, s, List.suffix_refl s, hmatch⟩
  | case2 pj h => rw [runEnd, if_neg h]

theorem likeChars_run (h : p[pi]? = some '%') (t : List Char) :
    likeChars (p.drop pi) t = true ↔ ∃ s, s <:+ t ∧ likeChars (p.drop (runEnd p pi)) s = true := by
  have hlt : pi < p.length := (List.getElem?_eq_some_iff.mp h).1
  have hrun : runEnd p pi = runEnd p (pi + 1) := by rw [runEnd, if_pos ⟨hlt, h⟩]
  rw [drop_of_getElem? h, likeChars_percent, likeChars_runEnd, hrun]

/-- Every rest of the text is tried. -/
theorem any_rests (t : List Char) {ti : Nat} (hti : ti ≤ t.length) (f : List Char → Bool) :
    (List.range' ti (t.length + 1 - ti)).any (fun k => f (t.drop k)) = true ↔
      ∃ s, s <:+ t.drop ti ∧ f s = true := by
  simp only [List.any_eq_true, List.mem_range'_1]
  constructor
  · rintro ⟨k, ⟨hk, -⟩, hf⟩
    refine ⟨t.drop k, ?_, hf⟩
    rw [← Nat.add_sub_cancel' hk, ← List.drop_drop]
    exact List.drop_suffix _ _
  · rintro ⟨s, hs, hf⟩
    have hlen := hs.length_le
    rw [List.length_drop] at hlen
    refine ⟨t.length - s.length, by omega, ?_⟩
    rw [← (List.suffix_iff_eq_drop.mp (hs.trans (List.drop_suffix ti t)))]
    exact hf

def answer (t p : List Char) (k : Nat × Nat) : Bool := likeChars (p.drop k.2) (t.drop k.1)

/-- A character that is no `%` takes one character of the text. -/
theorem answer_char {ti : Nat} (hc : p[pi]? = some c) (hpercent : c ≠ '%') :
    answer t p (ti, pi) = true ↔
      (ti < t.length ∧ (c = '_' ∨ t[ti]? = some c)) ∧ answer t p (ti + 1, pi + 1) = true := by
  rw [answer, drop_of_getElem? hc, likeChars_cons hpercent]
  constructor
  · rintro ⟨d, ts, ht, hd, hts⟩
    have hget : t[ti]? = some d := by rw [← List.head?_drop, ht, List.head?_cons]
    have htail : t.drop (ti + 1) = ts := by rw [← List.tail_drop, ht, List.tail_cons]
    refine ⟨⟨(List.getElem?_eq_some_iff.mp hget).1, hd.imp id fun hd => by rw [hget, hd]⟩, ?_⟩
    rw [answer, htail]
    exact hts
  · rintro ⟨⟨hlt, hd⟩, hts⟩
    refine ⟨t[ti], t.drop (ti + 1), List.drop_eq_getElem_cons hlt, hd.imp id fun hd => ?_, hts⟩
    exact (Option.some.inj ((List.getElem?_eq_getElem hlt).symm.trans hd)).symm

/-- Every call answers right and leaves right answers in the table. -/
theorem go_gives (t p : List Char) {ti pi : Nat} (hti : ti ≤ t.length) :
    Gives (answer t p) (go t p ti pi) (answer t p (ti, pi)) := by
  rw [go]
  refine Gives.memoized ?_
  split
  · next hc =>
    have hend : answer t p (ti, pi) = decide (ti = t.length) := by
      rw [answer, List.drop_eq_nil_of_le (List.getElem?_eq_none_iff.mp hc), likeChars,
        Bool.eq_iff_iff, List.isEmpty_iff, List.drop_eq_nil_iff, decide_eq_true_iff]
      omega
    rw [hend]
    exact Memo.gives_pure _
  · next c hc =>
    have hlt : pi < p.length := (List.getElem?_eq_some_iff.mp hc).1
    split
    · next hpercent =>
      subst hpercent
      have hrun := lt_runEnd hc
      have hany : answer t p (ti, pi) =
          (List.range' ti (t.length + 1 - ti)).any fun k => answer t p (k, runEnd p pi) := by
        rw [Bool.eq_iff_iff, answer, likeChars_run hc, ← any_rests t hti]
        rfl
      rw [hany]
      refine Memo.gives_anyM fun k hk => go_gives t p ?_
      have hmem := List.mem_range'_1.mp hk
      omega
    · next hpercent =>
      split
      · next hone =>
        have hmatch : answer t p (ti, pi) = answer t p (ti + 1, pi + 1) := by
          rw [Bool.eq_iff_iff, answer_char hc hpercent]
          exact and_iff_right hone
        rw [hmatch]
        exact go_gives t p hone.1
      · next hno =>
        have hfails : answer t p (ti, pi) = false :=
          Bool.eq_false_iff.mpr fun h => hno ((answer_char hc hpercent).mp h).1
        rw [hfails]
        exact Memo.gives_pure _
termination_by p.length - pi

/-- The table only saves time. -/
theorem likeMatch_eq (text pattern : String) : likeMatch text pattern = HenchDB.likeMatch text pattern :=
  (go_gives text.toList pattern.toList (Nat.zero_le _) ∅ (Memo.sound_empty _)).1

/-- `like_match` answers whether the text can be split into consecutive parts, one for
each character of the pattern: any string for `%`, one character for `_` and the
character itself for every other. -/
theorem likeMatch_iff (text pattern : String) :
    likeMatch text pattern = true ↔ Splits pattern.toList text.toList := by
  rw [likeMatch_eq]
  exact likeChars_iff

end HenchDB.Like
