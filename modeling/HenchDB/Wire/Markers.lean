import HenchDB.KeyOrder
import HenchDB.Wire.Numbered

/-!
# The text around the placeholders

`pgScan` copies a query byte by byte and writes each byte as a character, so what it
writes is the query read in an encoding of one byte for each character (`byteText`),
with its placeholders replaced (`chars_scan`).  That is the query itself where all of
it is ASCII, and never where it is not (`countP_wide_byteText`).

`markerText` says what the rewritten text should be.  The comment `/*/` is a matter of
reading: in SQL its star opens a comment and does not close it, and to the scanner it
is a whole comment.  The two readings may differ in which placeholders stand outside.
-/

namespace HenchDB

open Codec

/-! ## The text with its placeholders replaced -/

/-- What a character of a query stands in; `opened` and `closing` are before the second
character of `/*` and of `*/`. -/
inductive TextZone where
  | top
  | quoted (q : Char)
  | comment
  | opened
  | block
  | closing
deriving DecidableEq

/-- The zone behind a character; `whole` takes `/*/` for a whole comment. -/
def TextZone.next (whole : Bool) : TextZone → Char → List Char → TextZone
  | .top, c, cs =>
    if isQuote c then .quoted c
    else if c = '-' ∧ cs.head? = some '-' then .comment
    else if c = '/' ∧ cs.head? = some '*' then (if whole then .block else .opened)
    else .top
  | .quoted q, c, _ => if c = q then .top else .quoted q
  | .comment, c, _ => if c = '\n' then .top else .comment
  | .opened, _, _ => .block
  | .block, c, cs => if c = '*' ∧ cs.head? = some '/' then .closing else .block
  | .closing, _, _ => .top

/-- The characters, each with whether it stands outside quotes and comments. -/
def outside (whole : Bool) : TextZone → List Char → List (Char × Bool)
  | _, [] => []
  | z, c :: cs => (c, z = .top) :: outside whole (z.next whole c cs) cs

def leadingDigits (cs : List (Char × Bool)) : List Char := (cs.map Prod.fst).takeWhile Char.isDigit

/-- Every `$n` outside replaced; the count is of digits that are part of one. -/
def putMarkers : Nat → List (Char × Bool) → List Char
  | _, [] => []
  | k + 1, _ :: cs => putMarkers k cs
  | 0, (c, out) :: cs =>
    if out = true ∧ c = '$' ∧ leadingDigits cs ≠ [] then '?' :: putMarkers (leadingDigits cs).length cs
    else c :: putMarkers 0 cs

/-- The query with every `$n` outside quotes and comments replaced by `?`. -/
def markerText (whole : Bool) (cs : List Char) : List Char := putMarkers 0 (outside whole .top cs)

/-- For every `$n` in the text, whether it stands outside quotes and comments. -/
def dollars : List (Char × Bool) → List Bool
  | [] => []
  | (c, out) :: cs => if c = '$' ∧ leadingDigits cs ≠ [] then out :: dollars cs else dollars cs

theorem map_fst_outside (whole : Bool) (z : TextZone) (cs : List Char) :
    (outside whole z cs).map Prod.fst = cs := by
  induction cs generalizing z with
  | nil => rfl
  | cons c cs ih => exact congrArg (c :: ·) (ih _)

theorem leadingDigits_outside (whole : Bool) (z : TextZone) (cs : List Char) :
    leadingDigits (outside whole z cs) = cs.takeWhile Char.isDigit := by
  rw [leadingDigits, map_fst_outside]

variable {k : Nat} {cs : List (Char × Bool)} {c : Char}

/-- Characters of which none is `$` hold no placeholder. -/
theorem dollars_drop (h : ∀ x ∈ cs.take k, x.1 ≠ '$') :
    dollars (cs.drop k) = dollars cs := by
  induction k generalizing cs with
  | zero => rfl
  | succ k ih =>
    cases cs with
    | nil => rfl
    | cons x cs =>
      have hx : x.1 ≠ '$' := h x (by simp)
      rw [List.drop_succ_cons, ih fun y hy => h y (by simp [hy]), dollars, if_neg (by simp [hx])]

theorem isDigit_of_leading :
    ∀ x ∈ cs.take (leadingDigits cs).length, x.1.isDigit := by
  intro x hx
  have hinit : leadingDigits cs = (cs.map Prod.fst).take (leadingDigits cs).length :=
    List.prefix_iff_eq_take.mp (List.takeWhile_prefix _)
  have hmem : x.1 ∈ leadingDigits cs := by
    rw [hinit, ← List.map_take]
    exact List.mem_map_of_mem hx
  exact List.mem_takeWhile_imp hmem

theorem ne_dollar_of_leading :
    ∀ x ∈ cs.take (leadingDigits cs).length, x.1 ≠ '$' := by
  intro x hx hdollar
  have hdigit := isDigit_of_leading x hx
  rw [hdollar] at hdigit
  exact absurd hdigit (by decide)

/-- The text shows which placeholders were replaced. -/
theorem putMarkers_eq_iff {ds : List (Char × Bool)} (h : cs.map Prod.fst = ds.map Prod.fst) :
    putMarkers k cs = putMarkers k ds ↔ dollars (cs.drop k) = dollars (ds.drop k) := by
  induction cs generalizing k ds with
  | nil =>
    rw [List.map_nil, eq_comm, List.map_eq_nil_iff] at h
    subst h
    exact iff_of_true rfl rfl
  | cons x cs ih =>
    obtain ⟨c, out⟩ := x
    obtain ⟨⟨d, out'⟩, ds, rfl⟩ : ∃ y ys, ds = y :: ys := by
      cases ds with
      | nil => cases h
      | cons y ys => exact ⟨y, ys, rfl⟩
    rw [List.map_cons, List.map_cons, List.cons.injEq] at h
    obtain ⟨rfl, hrest⟩ := h
    have hdigits : leadingDigits cs = leadingDigits ds := by rw [leadingDigits, leadingDigits, hrest]
    cases k with
    | succ k => exact ih hrest
    | zero =>
      rw [putMarkers, putMarkers, ← hdigits, List.drop_zero, List.drop_zero, dollars, dollars,
        ← hdigits]
      by_cases hdollar : c = '$' ∧ leadingDigits cs ≠ []
      · obtain ⟨rfl, hne⟩ := hdollar
        have hcs : dollars (cs.drop (leadingDigits cs).length) = dollars cs :=
          dollars_drop ne_dollar_of_leading
        have hds : dollars (ds.drop (leadingDigits cs).length) = dollars ds := by
          rw [hdigits]
          exact dollars_drop ne_dollar_of_leading
        cases out <;> cases out'
        · simpa [hne] using ih (k := 0) hrest
        · simp [hne]
        · simp [hne]
        · have hskip := ih (k := (leadingDigits cs).length) hrest
          rw [hcs, hds] at hskip
          simpa [hne] using hskip
      · rw [if_neg fun h => hdollar h.2, if_neg fun h => hdollar h.2, if_neg hdollar, if_neg hdollar,
          List.cons.injEq, and_iff_right rfl]
        exact ih (k := 0) hrest

/-! ## The scan on bytes as characters -/

def byteText (query : String) : List Char := (utf8 query).map charOf

def PgZone.text : PgZone → TextZone
  | .top => .top
  | .quoted q => .quoted (charOf q)
  | .comment => .comment
  | .block => .block

theorem isDigit_charOf (b : UInt8) : (charOf b).isDigit = isDigitByte b := by
  have hge : '0'.val ≤ (charOf b).val ↔ byteOf '0' ≤ b := by
    rw [UInt32.le_iff_toNat_le, UInt8.le_iff_toNat_le, val_charOf]
    rfl
  have hle : (charOf b).val ≤ '9'.val ↔ b ≤ byteOf '9' := by
    rw [UInt32.le_iff_toNat_le, UInt8.le_iff_toNat_le, val_charOf]
    rfl
  simp only [Char.isDigit, isDigitByte, ge_iff_le, hge, hle]

theorem takeWhile_charOf (bs : Bytes) :
    (bs.map charOf).takeWhile Char.isDigit = (bs.takeWhile isDigitByte).map charOf := by
  rw [List.takeWhile_map]
  congr 2
  exact funext isDigit_charOf

theorem head?_charOf {bs : Bytes} (hc : charOf (byteOf c) = c) :
    (bs.map charOf).head? = some c ↔ bs.head? = some (byteOf c) := by
  cases bs with
  | nil => simp
  | cons b bs => simpa using charOf_eq hc

theorem putMarkers_digits {whole : Bool} {ds : List Char} (hds : ∀ d ∈ ds, d.isDigit) (cs : List Char) :
    putMarkers ds.length (outside whole .top (ds ++ cs)) = putMarkers 0 (outside whole .top cs) := by
  induction ds with
  | nil => rfl
  | cons d ds ih =>
    have hd := hds d List.mem_cons_self
    have hnext : TextZone.top.next whole d (ds ++ cs) = .top := by
      have hquote : isQuote d = false := by
        by_contra h
        rw [Bool.not_eq_false, isQuote_iff] at h
        rcases h with rfl | rfl | rfl <;> exact absurd hd (by decide)
      have hdash : d ≠ '-' := by
        rintro rfl
        exact absurd hd (by decide)
      have hslash : d ≠ '/' := by
        rintro rfl
        exact absurd hd (by decide)
      simp [TextZone.next, hquote, hdash, hslash]
    rw [List.cons_append, outside, hnext, List.length_cons, putMarkers]
    exact ih fun e he => hds e (List.mem_cons_of_mem _ he)

/-- A character that is no placeholder is written as it is. -/
theorem putMarkers_plain {whole : Bool} {z : TextZone} (cs : List Char) (h : z ≠ .top ∨ c ≠ '$') :
    putMarkers 0 (outside whole z (c :: cs)) =
      c :: putMarkers 0 (outside whole (z.next whole c cs) cs) := by
  rw [outside, putMarkers, if_neg]
  rintro ⟨hz, hc, -⟩
  exact h.elim (fun h => h (of_decide_eq_true hz)) fun h => h hc

/-- One byte that the scanner passes on. -/
theorem chars_byte {pz pz' : PgZone} {b : UInt8} {bs : Bytes} {items : List PgItem}
    (h : (pgScan 0 pz' bs).map (.byte b :: ·) = .ok items)
    (ih : ∀ {items}, pgScan 0 pz' bs = .ok items →
      chars items = putMarkers 0 (outside true pz'.text (bs.map charOf)))
    (hplain : pz.text ≠ .top ∨ charOf b ≠ '$')
    (hnext : pz.text.next true (charOf b) (bs.map charOf) = pz'.text) :
    chars items = putMarkers 0 (outside true pz.text ((b :: bs).map charOf)) := by
  obtain ⟨items', hitems, rfl⟩ := map_ok h
  rw [List.map_cons, putMarkers_plain _ hplain, hnext, ← ih hitems]
  rfl

/-- A placeholder is put as one marker, whatever its number. -/
theorem putMarkers_placeholder {bs : Bytes} (hne : bs.takeWhile isDigitByte ≠ []) :
    putMarkers 0 (outside true PgZone.top.text (((byteOf '$' :: bs).drop 0).map charOf)) =
      '?' :: putMarkers 0 (outside true .top
        ((bs.drop (bs.takeWhile isDigitByte).length).map charOf)) := by
  have hdollar : charOf (byteOf '$') = '$' := by decide
  have hnext : TextZone.top.next true '$' (bs.map charOf) = .top := by simp [TextZone.next, isQuote]
  have hdigits : leadingDigits (outside true .top (bs.map charOf)) =
      (bs.takeWhile isDigitByte).map charOf := by rw [leadingDigits_outside, takeWhile_charOf]
  have happend : bs.takeWhile isDigitByte ++ bs.drop (bs.takeWhile isDigitByte).length = bs := by
    have hinit := List.prefix_iff_eq_take.mp (List.takeWhile_prefix (l := bs) isDigitByte)
    conv_lhs => rw [hinit]
    rw [List.length_take_of_le (List.takeWhile_prefix _).length_le, List.take_append_drop]
  have hskip := @putMarkers_digits true ((bs.takeWhile isDigitByte).map charOf) ?_
    ((bs.drop (bs.takeWhile isDigitByte).length).map charOf)
  · rw [← List.map_append, happend, List.length_map] at hskip
    rw [List.drop_zero, List.map_cons, hdollar, PgZone.text, outside, hnext, putMarkers, hdigits,
      if_pos ⟨by decide, rfl, by simpa using hne⟩, List.length_map, hskip]
  · intro d hd
    obtain ⟨b, hb, rfl⟩ := List.mem_map.mp hd
    rw [isDigit_charOf]
    exact List.mem_takeWhile_imp hb

/-- The scanner replaces the placeholders of the text that the bytes are as characters. -/
theorem chars_scan {pz : PgZone} {bs : Bytes} {items : List PgItem} (h : pgScan k pz bs = .ok items)
    (hquoted : ∀ q, pz = .quoted q → isQuoteByte q) :
    chars items = putMarkers 0 (outside true pz.text ((bs.drop k).map charOf)) := by
  induction k, pz, bs using pgScan.induct generalizing items with
  | case1 =>
    cases h
    rw [List.drop_nil]
    rfl
  | case2 k pz b bs ih => exact ih h hquoted
  | case3 q bs hhead ih =>
    rw [pgScan, if_pos rfl, if_pos hhead] at h
    obtain ⟨items, hitems, rfl⟩ := map_ok h
    obtain ⟨bs, rfl⟩ := List.head?_eq_some_iff.mp hhead
    have hquote : isQuote (charOf q) := (isQuote_charOf q).trans (hquoted q rfl)
    rw [List.drop_zero, List.map_cons, List.map_cons, PgZone.text,
      putMarkers_plain _ (.inl (by simp)), TextZone.next, if_pos rfl,
      putMarkers_plain _ (.inr ?_), TextZone.next, if_pos hquote]
    · exact congrArg (charOf q :: charOf q :: ·) (ih hitems hquoted)
    · intro hdollar
      rw [hdollar] at hquote
      exact absurd hquote (by decide)
  | case4 q bs hhead ih =>
    rw [pgScan, if_pos rfl, if_neg hhead] at h
    exact chars_byte h (fun hitems => ih hitems (by simp)) (.inl (by simp [PgZone.text])) (if_pos rfl)
  | case5 q b bs hb ih =>
    rw [pgScan, if_neg hb] at h
    exact chars_byte h (fun hitems => ih hitems hquoted) (.inl (by simp [PgZone.text]))
      (if_neg (charOf_inj.not.mpr hb))
  | case6 b bs ih =>
    rw [pgScan] at h
    have hnewline : charOf b = '\n' ↔ b = byteOf '\n' := charOf_eq (by decide)
    refine chars_byte h (fun hitems => ih hitems (by split <;> simp)) (.inl (by simp [PgZone.text])) ?_
    by_cases hb : b = byteOf '\n'
    · rw [if_pos hb]
      exact if_pos (hnewline.mpr hb)
    · rw [if_neg hb]
      exact if_neg (hnewline.not.mpr hb)
  | case7 b bs hclose ih =>
    rw [pgScan, if_pos hclose] at h
    obtain ⟨items, hitems, rfl⟩ := map_ok h
    obtain ⟨rfl, hhead⟩ := hclose
    obtain ⟨bs, rfl⟩ := List.head?_eq_some_iff.mp hhead
    have hstar : charOf (byteOf '*') = '*' := by decide
    have hslash : charOf (byteOf '/') = '/' := by decide
    rw [List.drop_zero, List.map_cons, List.map_cons, hstar, hslash, PgZone.text,
      putMarkers_plain _ (.inl (by simp)), TextZone.next, if_pos ⟨rfl, rfl⟩,
      putMarkers_plain _ (.inl (by simp)), TextZone.next]
    change charOf (byteOf '*') :: charOf (byteOf '/') :: chars items = _
    rw [ih hitems (by simp), hstar, hslash]
    rfl
  | case8 b bs hclose ih =>
    rw [pgScan, if_neg hclose] at h
    refine chars_byte h (fun hitems => ih hitems (by simp)) (.inl (by simp [PgZone.text])) (if_neg ?_)
    rwa [charOf_eq (by decide), head?_charOf (by decide)]
  | case9 b bs hb ih =>
    rw [pgScan, if_pos hb] at h
    have hquote : isQuote (charOf b) := (isQuote_charOf b).trans hb
    refine chars_byte h (fun hitems => ih hitems (by rintro q ⟨⟩; exact hb)) (.inr ?_) (if_pos hquote)
    intro hdollar
    rw [hdollar] at hquote
    exact absurd hquote (by decide)
  | case10 b bs hb hdash ih =>
    rw [pgScan, if_neg hb, if_pos hdash] at h
    obtain ⟨rfl, hhead⟩ := hdash
    refine chars_byte h (fun hitems => ih hitems (by simp)) (.inr (by decide)) ?_
    rw [PgZone.text, TextZone.next, if_neg (by decide), if_pos]
    · rfl
    · exact ⟨by decide, (head?_charOf (by decide)).mpr hhead⟩
  | case11 b bs hb hdash hblock ih =>
    rw [pgScan, if_neg hb, if_neg hdash, if_pos hblock] at h
    obtain ⟨rfl, hhead⟩ := hblock
    refine chars_byte h (fun hitems => ih hitems (by simp)) (.inr (by decide)) ?_
    rw [PgZone.text, TextZone.next, if_neg (by decide), if_neg (by rintro ⟨h, -⟩; exact absurd h (by decide)),
      if_pos, if_pos rfl]
    · rfl
    · exact ⟨by decide, (head?_charOf (by decide)).mpr hhead⟩
  | case12 bs e he hb hdash hblock =>
    rw [pgScan, if_neg hb, if_neg hdash, if_neg hblock, if_pos rfl, he] at h
    cases h
  | case13 bs n hn hb hdash hblock ih =>
    rw [pgScan, if_neg hb, if_neg hdash, if_neg hblock, if_pos rfl, hn] at h
    obtain ⟨items, hitems, rfl⟩ := map_ok h
    have hne : bs.takeWhile isDigitByte ≠ [] := by
      intro hnil
      rw [placeholderNumber, if_pos hnil] at hn
      cases hn
    exact (congrArg ('?' :: ·) (ih hitems (by simp))).trans (putMarkers_placeholder hne).symm
  | case14 b bs hb hdash hblock hdollar ih =>
    rw [pgScan, if_neg hb, if_neg hdash, if_neg hblock, if_neg hdollar] at h
    have hquote : ¬ isQuote (charOf b) := by rwa [isQuote_charOf]
    refine chars_byte h (fun hitems => ih hitems (by simp))
      (.inr ((charOf_eq (by decide)).not.mpr hdollar)) ?_
    rw [PgZone.text, TextZone.next, if_neg hquote, if_neg, if_neg]
    · rwa [charOf_eq (by decide), head?_charOf (by decide)]
    · rwa [charOf_eq (by decide), head?_charOf (by decide)]

/-! ## Text beyond ASCII -/

/-- A character that takes more than one byte. -/
def wide (c : Char) : Bool := 128 ≤ c.toNat

theorem not_wide_of_isDigit (h : c.isDigit) : wide c = false := by
  simp only [Char.isDigit, Bool.and_eq_true, decide_eq_true_eq, UInt32.le_iff_toNat_le] at h
  have h9 : c.toNat ≤ 57 := h.2
  simp only [wide, decide_eq_false_iff_not]
  omega

/-- Neither a placeholder nor its marker has a wide character. -/
theorem countP_wide_putMarkers (h : ∀ x ∈ cs.take k, x.1.isDigit) :
    (putMarkers k cs).countP wide = (cs.map Prod.fst).countP wide := by
  induction cs generalizing k with
  | nil =>
    cases k <;> rfl
  | cons x cs ih =>
    obtain ⟨c, out⟩ := x
    cases k with
    | succ k =>
      have hc : c.isDigit := h (c, out) (by simp)
      rw [putMarkers, ih fun y hy => h y (by simp [hy]), List.map_cons,
        List.countP_cons_of_neg (by simp [not_wide_of_isDigit hc])]
    | zero =>
      rw [putMarkers]
      split
      · next hdollar =>
        obtain ⟨-, rfl, -⟩ := hdollar
        have hmark : ¬ wide '?' = true := by decide
        have hsign : ¬ wide '$' = true := by decide
        rw [List.countP_cons_of_neg hmark, List.map_cons, List.countP_cons_of_neg hsign]
        exact ih isDigit_of_leading
      · rw [List.map_cons, List.countP_cons, List.countP_cons, ih (by simp)]

theorem countP_wide_markerText (whole : Bool) (cs : List Char) :
    (markerText whole cs).countP wide = cs.countP wide := by
  rw [markerText, countP_wide_putMarkers (by simp), map_fst_outside]

theorem encode_ascii (h : wide c = false) : (String.utf8EncodeChar c).map charOf = [c] := by
  have hlt : c.toNat < 128 := by simpa [wide] using h
  have hbyte : (UInt8.ofNat c.toNat).toNat = c.toNat := by
    rw [UInt8.toNat_ofNat']
    omega
  have hc : charOf (UInt8.ofNat c.toNat) = c := by
    rw [charOf, hbyte, Char.ofNat_toNat]
  have hbytes := bytesOf_ascii (b := UInt8.ofNat c.toNat) (by rwa [UInt8.lt_iff_toNat_lt, hbyte])
  rw [bytesOf_char, hc] at hbytes
  rw [hbytes, List.map_singleton, hc]

/-- Any other is at least two. -/
theorem encode_wide (h : wide c = true) :
    2 ≤ ((String.utf8EncodeChar c).map charOf).countP wide := by
  have hge : 128 ≤ c.val.toNat := by simpa [wide] using h
  have hbyte : ∀ n, 128 ≤ n → n < 256 → wide (charOf (UInt8.ofNat n)) = true := by
    intro n hn hlt
    simp only [wide, toNat_charOf, UInt8.toNat_ofNat', decide_eq_true_eq]
    omega
  have htwo : ∀ m n bs, 128 ≤ m → m < 256 → 128 ≤ n → n < 256 →
      2 ≤ ((UInt8.ofNat m :: UInt8.ofNat n :: bs).map charOf).countP wide := by
    intro m n bs hm hm' hn hn'
    rw [List.map_cons, List.map_cons, List.countP_cons_of_pos (hbyte m hm hm'),
      List.countP_cons_of_pos (hbyte n hn hn')]
    omega
  simp only [String.utf8EncodeChar]
  generalize c.val.toNat = n at hge
  split_ifs with h1
  · omega
  all_goals exact htwo _ _ _ (by omega) (by omega) (by omega) (by omega)

theorem byteText_eq (query : String) :
    byteText query = query.toList.flatMap fun c => (String.utf8EncodeChar c).map charOf := by
  rw [byteText, utf8_eq, List.map_flatMap]

theorem byteText_ascii {query : String} (h : ∀ c ∈ query.toList, wide c = false) :
    byteText query = query.toList := by
  rw [byteText_eq]
  generalize query.toList = cs at h
  induction cs with
  | nil => rfl
  | cons c cs ih =>
    rw [List.flatMap_cons, encode_ascii (h c List.mem_cons_self),
      ih fun d hd => h d (List.mem_cons_of_mem _ hd)]
    rfl

/-- Read byte by byte, a query has every wide character twice at least. -/
theorem countP_wide_byteText (query : String) :
    2 * query.toList.countP wide ≤ (byteText query).countP wide := by
  rw [byteText_eq]
  generalize query.toList = cs
  induction cs with
  | nil => exact Nat.le_refl _
  | cons c cs ih =>
    rw [List.flatMap_cons, List.countP_append, List.countP_cons]
    by_cases hc : wide c = true
    · have htwo := encode_wide hc
      rw [if_pos hc]
      omega
    · rw [if_neg hc]
      omega

/-! ## The rewritten text -/

/-- All other text is kept exactly where the query is ASCII and the two readings of `/*/`
agree in which placeholders stand outside quotes and comments. -/
theorem pgToMarkers_markerText_iff {query : String} {sql : List Char} {n : Nat}
    (h : pgToMarkers query = .ok (sql, n)) :
    sql = markerText false query.toList ↔
      (∀ c ∈ query.toList, wide c = false) ∧
        dollars (outside false .top query.toList) = dollars (outside true .top query.toList) := by
  obtain ⟨items, hscan, rfl, -⟩ := pgToMarkers_ok h
  have hchars : chars items = markerText true (byteText query) := chars_scan hscan (by simp)
  have hreadings : markerText true query.toList = markerText false query.toList ↔
      dollars (outside true .top query.toList) = dollars (outside false .top query.toList) :=
    putMarkers_eq_iff (by rw [map_fst_outside, map_fst_outside])
  rw [hchars]
  constructor
  · intro heq
    have hwide : (byteText query).countP wide = query.toList.countP wide := by
      rw [← countP_wide_markerText true, heq, countP_wide_markerText]
    have htwice := countP_wide_byteText query
    have hnone : query.toList.countP wide = 0 := by omega
    have hascii : ∀ c ∈ query.toList, wide c = false := by
      simpa using List.countP_eq_zero.mp hnone
    rw [byteText_ascii hascii] at heq
    exact ⟨hascii, (hreadings.mp heq).symm⟩
  · rintro ⟨hascii, hdollars⟩
    rw [byteText_ascii hascii]
    exact hreadings.mpr hdollars.symm

theorem pgToMarkers_ascii :
    "SELECT '$1', ?".toList = markerText false "SELECT '$1', $1".toList :=
  (pgToMarkers_markerText_iff (n := 1) (by decide)).mpr
    ⟨by simp [wide], by decide⟩

/-- Each byte of a character beyond ASCII becomes a character. -/
theorem pgToMarkers_wide : ¬ ∀ query sql n, pgToMarkers query = .ok (sql, n) →
    sql = markerText false query.toList := by
  intro h
  have heq := h "SELECT 'é'" "SELECT 'Ã©'".toList 0 (by decide)
  exact absurd heq (by decide)

end HenchDB
