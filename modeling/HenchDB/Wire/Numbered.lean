import HenchDB.Wire.Extended

/-!
# Parameters by number

`on_parse` writes a query with markers and forgets the numbers of the
placeholders; `on_execute` fills the markers in the order of the text.  Of an
accepted query every number from 1 to the highest stands in the text once
(`Accepted.perm`), so the numbers matter unless they are in order.

The scanner of the placeholders and that of the markers agree in an accepted
query (`scan_outside`): they differ in comments between `/*` and `*/` only, and
no token begins with a `/`.
-/

namespace HenchDB

open Codec Lexer DateTime

/-! ## Bytes as characters -/

theorem toNat_charOf (b : UInt8) : (charOf b).toNat = b.toNat := by
  have hlt := b.toNat_lt
  have hvalid : Nat.isValidChar b.toNat := .inl (by omega)
  rw [charOf, Char.ofNat, dif_pos hvalid]
  rfl

variable {b : UInt8} {c : Char} {z : Zone} {cs : List Char} {items : List PgItem} {n : Nat}
  {query : String} {paramOids : List Nat} {stmt : PgStmt} {pg : PgConn}

theorem charOf_inj {a : UInt8} : charOf a = charOf b ↔ a = b := by
  constructor
  · intro h
    have := congrArg Char.toNat h
    rw [toNat_charOf, toNat_charOf] at this
    exact UInt8.toNat_inj.mp this
  · rintro rfl
    rfl

theorem charOf_eq (hc : charOf (byteOf c) = c) :
    charOf b = c ↔ b = byteOf c := by
  rw [← charOf_inj, hc]

theorem isQuote_charOf (b : UInt8) : isQuote (charOf b) = isQuoteByte b := by
  have hsingle : charOf (byteOf '\'') = '\'' := by decide
  have hdouble : charOf (byteOf '"') = '"' := by decide
  have hback : charOf (byteOf '`') = '`' := by decide
  simp only [isQuote, isQuoteByte, charOf_eq hsingle, charOf_eq hdouble, charOf_eq hback]

/-! ## The two scanners -/

def chars (items : List PgItem) : List Char := items.map PgItem.char

/-- The zone of the markers that a zone of the placeholders is. -/
def PgZone.zone : PgZone → Option Zone
  | .top => some .top
  | .quoted q => some (.quoted (charOf q))
  | .comment => some .comment
  | .block => none

/-- Every placeholder is outside quotes and comments. -/
def ParamsOutside : Zone → List PgItem → Prop
  | _, [] => True
  | z, .byte b :: items => ParamsOutside (z.next (charOf b) (chars items)) items
  | z, .param _ :: items => z = .top ∧ ParamsOutside .top items

theorem map_ok {ε α β : Type} {x : Except ε α} {f : α → β} {b : β} (h : x.map f = .ok b) :
    ∃ a, x = .ok a ∧ f a = b := by
  cases x with
  | error e => cases h
  | ok a =>
    cases h
    exact ⟨a, rfl, rfl⟩

/-- A character behind which there is no `/` outside quotes and comments. -/
theorem pieces_slash (h : (pieces '/' z (c :: cs)).2 = []) :
    ¬(z = .top ∧ c = '/') ∧ (pieces '/' (z.next c cs) cs).2 = [] := by
  by_cases hmark : z = .top ∧ c = '/'
  · rw [pieces_mark hmark] at h
    cases h
  · rw [pieces_char hmark] at h
    exact ⟨hmark, h⟩

/-- What a scan outside quotes writes first. -/
theorem head?_scan {bs : Bytes} (h : pgScan 0 .top bs = .ok items)
    (hbs : bs.head? ≠ some (byteOf '-')) : (chars items).head? ≠ some '-' := by
  cases bs with
  | nil =>
    cases h
    simp [chars]
  | cons b bs =>
    have hb : charOf b ≠ '-' := by
      rw [ne_eq, charOf_eq (by decide)]
      simpa using hbs
    have hbyte : ∀ {x : Except String (List PgItem)}, x.map (.byte b :: ·) = .ok items →
        (chars items).head? ≠ some '-' := by
      intro x hx
      obtain ⟨items', -, rfl⟩ := map_ok hx
      simpa [chars, PgItem.char] using hb
    rw [pgScan] at h
    split at h
    · exact hbyte h
    split at h
    · exact hbyte h
    split at h
    · exact hbyte h
    split at h
    · split at h
      · cases h
      · obtain ⟨items', -, rfl⟩ := map_ok h
        simp [chars, PgItem.char]
    · exact hbyte h

theorem ParamsOutside.byte (z' : Zone) (hslash : (pieces '/' z (chars (.byte b :: items))).2 = [])
    (hnext : z.next (charOf b) (chars items) = z')
    (h : (pieces '/' z' (chars items)).2 = [] → ParamsOutside z' items) :
    ParamsOutside z (.byte b :: items) := by
  subst hnext
  exact h (pieces_slash hslash).2

/-- The placeholders of a scan are outside quotes and comments of the text it writes. -/
theorem scan_outside {k : Nat} {pz : PgZone} {bs : Bytes} (h : pgScan k pz bs = .ok items)
    (hz : pz.zone = some z) (hslash : (pieces '/' z (chars items)).2 = [])
    (hquoted : ∀ q, pz = .quoted q → isQuoteByte q) :
    ParamsOutside z items := by
  induction k, pz, bs using pgScan.induct generalizing items z with
  | case1 =>
    cases h
    trivial
  | case2 k pz b bs ih => exact ih h hz hslash hquoted
  | case3 q bs hhead ih =>
    cases hz
    rw [pgScan, if_pos rfl, if_pos hhead] at h
    obtain ⟨items, hitems, rfl⟩ := map_ok h
    refine .byte .top hslash (by simp [Zone.next]) fun hslash => .byte (.quoted (charOf q)) hslash ?_
      fun hslash => ih hitems rfl hslash hquoted
    simp [Zone.next, isQuote_charOf, hquoted q rfl]
  | case4 q bs hhead ih =>
    cases hz
    rw [pgScan, if_pos rfl, if_neg hhead] at h
    obtain ⟨items, hitems, rfl⟩ := map_ok h
    exact .byte .top hslash (by simp [Zone.next]) fun hslash => ih hitems rfl hslash (by simp)
  | case5 q b bs hb ih =>
    cases hz
    rw [pgScan, if_neg hb] at h
    obtain ⟨items, hitems, rfl⟩ := map_ok h
    refine .byte (.quoted (charOf q)) hslash ?_ fun hslash => ih hitems rfl hslash hquoted
    simp [Zone.next, charOf_inj, hb]
  | case6 b bs ih =>
    cases hz
    rw [pgScan] at h
    obtain ⟨items, hitems, rfl⟩ := map_ok h
    have hnewline : charOf b = '\n' ↔ b = byteOf '\n' := charOf_eq (by decide)
    by_cases hb : b = byteOf '\n'
    · rw [if_pos hb] at hitems ih
      exact .byte .top hslash (by rw [Zone.next, if_pos (hnewline.mpr hb)]) fun hslash =>
        ih hitems rfl hslash (by simp)
    · rw [if_neg hb] at hitems ih
      exact .byte .comment hslash (by rw [Zone.next, if_neg (hnewline.not.mpr hb)]) fun hslash =>
        ih hitems rfl hslash (by simp)
  | case7 => cases hz
  | case8 => cases hz
  | case9 b bs hb ih =>
    cases hz
    rw [pgScan, if_pos hb] at h
    obtain ⟨items, hitems, rfl⟩ := map_ok h
    refine .byte (.quoted (charOf b)) hslash ?_ fun hslash =>
      ih hitems rfl hslash (by rintro q ⟨⟩; exact hb)
    simp [Zone.next, isQuote_charOf, hb]
  | case10 b bs hb hdash ih =>
    cases hz
    rw [pgScan, if_neg hb, if_pos hdash] at h
    obtain ⟨items, hitems, rfl⟩ := map_ok h
    refine .byte .comment hslash ?_ fun hslash => ih hitems rfl hslash (by simp)
    obtain ⟨rfl, hhead⟩ := hdash
    obtain ⟨bs, rfl⟩ := List.head?_eq_some_iff.mp hhead
    rw [pgScan] at hitems
    obtain ⟨items, -, rfl⟩ := map_ok hitems
    rfl
  | case11 b bs hb hdash hblock ih =>
    cases hz
    rw [pgScan, if_neg hb, if_neg hdash, if_pos hblock] at h
    obtain ⟨items, -, rfl⟩ := map_ok h
    exact absurd ⟨rfl, (charOf_eq (by decide)).mpr hblock.1⟩ (pieces_slash hslash).1
  | case12 bs e he hb hdash hblock =>
    cases hz
    rw [pgScan, if_neg hb, if_neg hdash, if_neg hblock, if_pos rfl, he] at h
    cases h
  | case13 bs n hn hb hdash hblock ih =>
    cases hz
    rw [pgScan, if_neg hb, if_neg hdash, if_neg hblock, if_pos rfl, hn] at h
    obtain ⟨items, hitems, rfl⟩ := map_ok h
    exact ⟨rfl, ih hitems rfl (pieces_slash hslash).2 (by simp)⟩
  | case14 b bs hb hdash hblock hdollar ih =>
    cases hz
    rw [pgScan, if_neg hb, if_neg hdash, if_neg hblock, if_neg hdollar] at h
    obtain ⟨items, hitems, rfl⟩ := map_ok h
    refine .byte .top hslash ?_ fun hslash => ih hitems rfl hslash (by simp)
    have hnotDash : ¬(charOf b = '-' ∧ (chars items).head? = some '-') := by
      rintro ⟨hc, hhead⟩
      rw [charOf_eq (by decide)] at hc
      exact head?_scan hitems (fun hbs => hdash ⟨hc, hbs⟩) hhead
    rw [Zone.next, isQuote_charOf, if_neg hb, if_neg hnotDash]

/-! ## The text of the items -/

/-- The items with texts for the placeholders in the order of the text. -/
def fillItems : List PgItem → List (List Char) → List Char
  | .byte b :: items, lits => charOf b :: fillItems items lits
  | .param _ :: items, lit :: lits => lit ++ fillItems items lits
  | .param _ :: _, [] => []
  | [], _ => []

theorem numbers_byte (b : UInt8) (items : List PgItem) : numbers (.byte b :: items) = numbers items := rfl

theorem numbers_param (n : Nat) (items : List PgItem) :
    numbers (.param n :: items) = n :: numbers items := rfl

/-- Every placeholder is a marker. -/
theorem length_numbers_le (h : ParamsOutside z items) :
    (numbers items).length ≤ (pieces '?' z (chars items)).2.length := by
  induction items generalizing z with
  | nil => exact Nat.zero_le _
  | cons item items ih =>
    cases item with
    | byte b =>
      have hrest := ih h
      by_cases hmark : z = .top ∧ charOf b = '?'
      · rw [show chars (.byte b :: items) = charOf b :: chars items from rfl, pieces_mark hmark]
        exact Nat.le_succ_of_le hrest
      · rw [show chars (.byte b :: items) = charOf b :: chars items from rfl, pieces_char hmark]
        exact hrest
    | param n =>
      obtain ⟨rfl, hitems⟩ := h
      rw [show chars (.param n :: items) = '?' :: chars items from rfl, pieces_mark ⟨rfl, rfl⟩,
        numbers_param]
      exact Nat.succ_le_succ (ih hitems)

/-- Where there are no other markers, they are filled like the placeholders. -/
theorem weave_chars (h : ParamsOutside z items)
    (hlen : (pieces '?' z (chars items)).2.length = (numbers items).length)
    {lits : List (List Char)} (hlits : lits.length = (numbers items).length) :
    weave (pieces '?' z (chars items)).1 (pieces '?' z (chars items)).2 lits = fillItems items lits := by
  induction items generalizing z lits with
  | nil => rfl
  | cons item items ih =>
    cases item with
    | byte b =>
      have hchars : chars (.byte b :: items) = charOf b :: chars items := rfl
      have hmark : ¬(z = .top ∧ charOf b = '?') := by
        intro hmark
        have hle := length_numbers_le (z := z.next (charOf b) (chars items)) h
        rw [hchars, pieces_mark hmark, numbers_byte, List.length_cons] at hlen
        omega
      rw [hchars, pieces_char hmark] at hlen
      rw [hchars, weave_char hmark, ih h hlen hlits]
      rfl
    | param n =>
      obtain ⟨rfl, hitems⟩ := h
      rw [show chars (.param n :: items) = '?' :: chars items from rfl, pieces_mark ⟨rfl, rfl⟩] at hlen ⊢
      obtain ⟨lit, lits, rfl⟩ := List.exists_of_length_succ lits hlits
      rw [weave, List.nil_append]
      exact congrArg (lit ++ ·) (ih hitems (Nat.succ.inj hlen) (Nat.succ.inj hlits))

/-! ## Accepted queries -/

/-- A text that the lexer reads has no `/` outside quotes and comments. -/
theorem HasTokens.no_slash {run : List Token} (h : HasTokens cs run) :
    (pieces '/' .top cs).2 = [] := by
  induction cs using lex_induction symbols_dash generalizing run with
  | nil => rfl
  | white c cs hc ih =>
    rw [pieces_white hc (by decide)]
    exact ih ((tokenizeWith_white symbols_dash hc).symm.trans h)
  | comment cs ih =>
    rw [pieces_comment (by decide) (by decide)]
    exact ih ((tokenizeWith_comment symbols_dash cs).symm.trans h)
  | token c cs hwhite hcomment ih =>
    obtain ⟨t, rest, run', ht, hrest, rfl⟩ := h.of_token hwhite hcomment
    have hc : c ≠ '/' := by
      rintro rfl
      obtain ⟨e, he⟩ : ∃ e, readToken symbols '/' cs = .error e := by
        rw [readToken, if_neg (by decide), if_neg (by decide), if_neg (by decide), if_neg (by simp),
          if_neg (by decide)]
        exact ⟨_, rfl⟩
      rw [he] at ht
      cases ht
    obtain ⟨lex, rfl, -, -⟩ := readToken_local symbols_dash ht
    rw [← List.cons_append, pieces_token (by decide) symbols_dash symbols_backtick hcomment hc ht]
    exact ih t rest ht hrest

/-- A text with `NULL` for its markers. -/
def nulled (z : Zone) (cs : List Char) : List Char :=
  weave (pieces '?' z cs).1 (pieces '?' z cs).2
    (List.replicate (pieces '?' z cs).2.length "NULL".toList)

theorem nulled_mark (h : z = .top ∧ c = '?') :
    nulled z (c :: cs) = "NULL".toList ++ nulled .top cs := by
  obtain ⟨rfl, rfl⟩ := h
  rw [nulled, pieces_mark ⟨rfl, rfl⟩, List.length_cons, List.replicate_succ, weave, List.nil_append]
  rfl

theorem nulled_char (h : ¬(z = .top ∧ c = '?')) :
    nulled z (c :: cs) = c :: nulled (z.next c cs) cs := by
  rw [nulled, weave_char h, pieces_char h]
  rfl

theorem next_nulled (c : Char) (z' : Zone) (cs : List Char) :
    z.next c (nulled z' cs) = z.next c cs := by
  have hdash : (nulled z' cs).head? = some '-' ↔ cs.head? = some '-' := by
    cases cs with
    | nil => rfl
    | cons d ds =>
      by_cases hmark : z' = .top ∧ d = '?'
      · rw [nulled_mark hmark, hmark.2]
        simp
      · rw [nulled_char hmark]
        simp
  cases z with
  | top => simp [Zone.next, hdash]
  | quoted q => rfl
  | comment => rfl

/-- `NULL` for the markers changes no other mark. -/
theorem length_pieces_nulled (z : Zone) (cs : List Char) :
    (pieces '/' z (nulled z cs)).2.length = (pieces '/' z cs).2.length := by
  induction cs generalizing z with
  | nil => rfl
  | cons c cs ih =>
    by_cases hmark : z = .top ∧ c = '?'
    · obtain ⟨rfl, rfl⟩ := hmark
      rw [nulled_mark ⟨rfl, rfl⟩, pieces_plain (List.all_iff_forall_prop.mp (by decide)),
        pieces_char (by simp)]
      exact ih .top
    · rw [nulled_char hmark]
      by_cases hslash : z = .top ∧ c = '/'
      · rw [pieces_mark hslash, pieces_mark hslash, next_nulled]
        exact congrArg Nat.succ (ih _)
      · rw [pieces_char hslash, pieces_char hslash, next_nulled]
        exact ih _

/-- What is known of a query that `on_parse` accepts. -/
structure Accepted (query : String) (items : List PgItem) (stmt : PgStmt) : Prop where
  scan : pgScan 0 .top (utf8 query) = .ok items
  sql : stmt.sql = chars items
  offsets : stmt.offsets = findPlaceholders (chars items)
  full : stmt.empty = false
  outside : ParamsOutside .top items
  markers : (pieces '?' .top (chars items)).2.length = (numbers items).length
  perm : (numbers items).Perm (List.range' 1 (numbers items).length)

/-- The numbers of an accepted query are the first ones in some order. -/
theorem perm_of_covers {used : List Nat} (hlen : used.length ≤ n)
    (hcovers : ∀ k ∈ List.range' 1 n, k ∈ used) : used.Perm (List.range' 1 n) := by
  have hsub : (List.range' 1 n).Subperm used :=
    List.subperm_of_subset (List.nodup_range' ) hcovers
  exact (hsub.perm_of_length_le (by simpa using hlen)).symm

theorem pgToMarkers_ok {sql : List Char} (h : pgToMarkers query = .ok (sql, n)) :
    ∃ items, pgScan 0 .top (utf8 query) = .ok items ∧ sql = chars items ∧
      ∀ k ∈ List.range' 1 n, k ∈ numbers items := by
  rw [pgToMarkers] at h
  cases hscan : pgScan 0 .top (utf8 query) with
  | error e =>
    rw [hscan] at h
    cases h
  | ok items =>
    simp only [hscan] at h
    split at h
    · cases h
    · next hnone =>
      simp only [Except.ok.injEq, Prod.mk.injEq] at h
      obtain ⟨rfl, rfl⟩ := h
      exact ⟨items, rfl, rfl, by simpa using List.find?_eq_none.mp hnone⟩

theorem neutralize_eq (sql : List Char) :
    PgConn.neutralize sql (findPlaceholders sql) = nulled .top sql := by
  have hlits : (findPlaceholders sql).map (fun _ => "NULL".toList) =
      List.replicate (pieces '?' .top sql).2.length "NULL".toList := by
    rw [List.map_const', length_findPlaceholders]
  rw [PgConn.neutralize, hlits, substitute_findPlaceholders sql (by simp)]
  rfl

theorem accepted_of_parsed {σ : Type} {env : PgEnv σ} (hquery : trim query.toList ≠ [])
    (h : PgConn.parsed env query paramOids = .ok stmt) :
    ∃ items, Accepted query items stmt ∧
      stmt.oids = (paramOids ++ List.replicate ((numbers items).length - paramOids.length) 0).take
        (numbers items).length := by
  rw [PgConn.parsed, if_neg hquery] at h
  cases hmarkers : pgToMarkers query with
  | error m =>
    rw [hmarkers] at h
    cases h
  | ok r =>
    obtain ⟨sql, n⟩ := r
    obtain ⟨items, hscan, rfl, hcovers⟩ := pgToMarkers_ok hmarkers
    simp only [hmarkers] at h
    split at h
    · cases h
    · next hlen =>
      rw [neutralize_eq] at h
      have hpieces : (pieces '?' .top (chars items)).2.length = n := by
        rw [← length_findPlaceholders]
        exact not_not.mp hlen
      cases htokens : tokenize (nulled .top (chars items)) with
      | error e => simp [PgConn.parseSql, htokens, bind, Except.bind] at h
      | ok ts =>
        obtain ⟨body, rfl⟩ := tokenizeLoop_eof htokens
        have hslash := HasTokens.no_slash (show HasTokens _ body from htokens)
        have houtside : ParamsOutside .top items := by
          refine scan_outside hscan rfl ?_ (by simp)
          rw [← List.length_eq_zero_iff, ← length_pieces_nulled, hslash]
          rfl
        have hperm : (numbers items).Perm (List.range' 1 n) :=
          perm_of_covers (hpieces ▸ length_numbers_le houtside) hcovers
        have hn : (numbers items).length = n := by simpa using hperm.length_eq
        subst hn
        split at h
        · cases h
        · cases h
          exact ⟨items, ⟨hscan, rfl, rfl, rfl, houtside, hpieces, hperm⟩, rfl⟩

/-! ## The bytes of the text -/

def bytesOf (cs : List Char) : Bytes := utf8 (String.ofList cs)

theorem bytesOf_eq (cs : List Char) : bytesOf cs = cs.utf8Encode.data.toList := by
  rw [bytesOf, utf8, String.toUTF8, String.toByteArray_ofList]

theorem bytesOf_append (cs ds : List Char) : bytesOf (cs ++ ds) = bytesOf cs ++ bytesOf ds := by
  rw [bytesOf_eq, bytesOf_eq, bytesOf_eq, List.utf8Encode_append]
  simp

theorem bytesOf_cons (c : Char) (cs : List Char) : bytesOf (c :: cs) = bytesOf [c] ++ bytesOf cs :=
  bytesOf_append [c] cs

theorem bytesOf_char (c : Char) : bytesOf [c] = String.utf8EncodeChar c := by
  rw [bytesOf_eq, List.utf8Encode_singleton]
  simp

theorem val_charOf (b : UInt8) : (charOf b).val.toNat = b.toNat := toNat_charOf b

theorem bytesOf_ascii (h : b < 128) : bytesOf [charOf b] = [b] := by
  have hval : (charOf b).val ≤ 0x7F := by
    rw [UInt32.le_iff_toNat_le, val_charOf]
    have := UInt8.lt_iff_toNat_lt.mp h
    exact Nat.lt_succ_iff.mp this
  have hsize : (charOf b).utf8Size = 1 := if_pos hval
  rw [bytesOf_char, String.utf8EncodeChar_eq_singleton hsize]
  congr 1
  rw [← UInt8.toNat_inj, UInt32.toNat_toUInt8, val_charOf]
  exact Nat.mod_eq_of_lt b.toNat_lt

/-- A byte that is no character of its own grows. -/
theorem length_bytesOf_wide (h : ¬b < 128) : 2 ≤ (bytesOf [charOf b]).length := by
  have hval : ¬(charOf b).val ≤ 0x7F := by
    rw [UInt32.le_iff_toNat_le, val_charOf]
    rw [UInt8.lt_iff_toNat_lt] at h
    exact fun hle => h (Nat.lt_succ_of_le hle)
  have hsize : (charOf b).utf8Size ≠ 1 := by
    intro h
    rw [Char.utf8Size] at h
    split at h
    · next hle => exact hval hle
    · split at h
      · cases h
      · split at h <;> cases h
  rw [bytesOf_char, String.length_utf8EncodeChar]
  have := (charOf b).utf8Size_pos
  omega

/-- The query with the literals of the numbered parameters for its placeholders. -/
def numberedText (lits : List (List Char)) (items : List PgItem) : Bytes :=
  items.flatMap fun item => match item with
    | .byte b => [b]
    | .param k => bytesOf (lits.getD (k - 1) [])

/-- Every byte the scan copies is a character of its own. -/
def Ascii (items : List PgItem) : Prop := ∀ b, .byte b ∈ items → b < 128

/-- In order the placeholders get the parameters of their numbers. -/
theorem bytesOf_fillItems (hascii : Ascii items) (lits : List (List Char)) {j : Nat}
    (hnumbers : numbers items = List.range' (j + 1) (numbers items).length)
    (hlen : j + (numbers items).length ≤ lits.length) :
    bytesOf (fillItems items (lits.drop j)) = numberedText lits items := by
  induction items generalizing j with
  | nil => rfl
  | cons item items ih =>
    have hrest : Ascii items := fun b hb => hascii b (List.mem_cons_of_mem _ hb)
    cases item with
    | byte b =>
      rw [fillItems, bytesOf_cons, bytesOf_ascii (hascii b List.mem_cons_self),
        ih hrest hnumbers hlen]
      rfl
    | param n =>
      rw [numbers_param, List.length_cons, List.range'_succ, List.cons.injEq] at hnumbers
      rw [numbers_param, List.length_cons] at hlen
      obtain ⟨rfl, hnumbers⟩ := hnumbers
      have hdrop : lits.drop j = lits.getD j [] :: lits.drop (j + 1) := by
        rw [List.drop_eq_getElem_cons (by omega), List.getD_eq_getElem?_getD,
          List.getElem?_eq_getElem (by omega)]
        rfl
      rw [hdrop, fillItems, bytesOf_append, ih hrest hnumbers (by omega)]
      rfl

def isWide : PgItem → Bool
  | .byte b => !(b < 128)
  | .param _ => false

/-- With `NULL` for every parameter, the text that is run is longer than the query where
a byte is no character of its own. -/
theorem length_fillItems_nulls (hnumbers : ∀ k ∈ numbers items, k - 1 < n) :
    (numberedText (List.replicate n "NULL".toList) items).length + items.countP isWide ≤
      (bytesOf (fillItems items (List.replicate (numbers items).length "NULL".toList))).length := by
  induction items with
  | nil => exact Nat.zero_le _
  | cons item items ih =>
    cases item with
    | byte b =>
      have hrest := ih hnumbers
      rw [fillItems, bytesOf_cons, List.length_append, numbers_byte, List.countP_cons,
        show numberedText (List.replicate n "NULL".toList) (.byte b :: items) =
          b :: numberedText (List.replicate n "NULL".toList) items from rfl, List.length_cons]
      by_cases hb : b < 128
      · rw [bytesOf_ascii hb]
        simp only [isWide, hb, decide_true, Bool.not_true, Bool.false_eq_true, if_false,
          List.length_singleton]
        omega
      · have hwide := length_bytesOf_wide hb
        simp only [isWide, hb, decide_false, Bool.not_false, if_true]
        omega
    | param k =>
      have hk : k - 1 < n := hnumbers k List.mem_cons_self
      have hrest := ih fun k hk => hnumbers k (List.mem_cons_of_mem _ hk)
      have hlit : (List.replicate n "NULL".toList).getD (k - 1) [] = "NULL".toList := by
        rw [List.getD_eq_getElem?_getD, List.getElem?_replicate, if_pos hk]
        rfl
      rw [numbers_param, List.length_cons, List.replicate_succ, fillItems, bytesOf_append,
        List.length_append, List.countP_cons,
        show numberedText (List.replicate n "NULL".toList) (.param k :: items) =
          bytesOf ((List.replicate n "NULL".toList).getD (k - 1) []) ++
            numberedText (List.replicate n "NULL".toList) items from rfl, List.length_append, hlit]
      simp only [isWide, Bool.false_eq_true, if_false]
      omega

/-- The first placeholder that is not in order. -/
theorem exists_first_unordered {j : Nat}
    (h : numbers items ≠ List.range' (j + 1) (numbers items).length) :
    ∃ front u back, items = front ++ .param u :: back ∧
      numbers front = List.range' (j + 1) (numbers front).length ∧
        u ≠ j + (numbers front).length + 1 := by
  induction items generalizing j with
  | nil => exact absurd rfl h
  | cons item items ih =>
    cases item with
    | byte b =>
      obtain ⟨front, u, back, rfl, hfront, hu⟩ := ih h
      exact ⟨.byte b :: front, u, back, rfl, hfront, hu⟩
    | param n =>
      by_cases hn : n = j + 1
      · subst hn
        rw [numbers_param, List.length_cons, List.range'_succ] at h
        obtain ⟨front, u, back, rfl, hfront, hu⟩ := ih fun h' => h (congrArg _ h')
        refine ⟨.param (j + 1) :: front, u, back, rfl, ?_, ?_⟩
        · rw [numbers_param, List.length_cons, List.range'_succ]
          exact congrArg _ hfront
        · rw [numbers_param, List.length_cons]
          omega
      · exact ⟨[], n, items, rfl, rfl, hn⟩

theorem numbers_append (items items' : List PgItem) :
    numbers (items ++ items') = numbers items ++ numbers items' := List.filterMap_append

theorem fillItems_append (front back : List PgItem) (lits : List (List Char)) :
    (numbers front).length ≤ lits.length →
      fillItems (front ++ back) lits =
        fillItems front lits ++ fillItems back (lits.drop (numbers front).length) := by
  intro hlen
  induction front generalizing lits with
  | nil => rfl
  | cons item front ih =>
    cases item with
    | byte b => exact congrArg (charOf b :: ·) (ih lits hlen)
    | param n =>
      obtain ⟨lit, lits, rfl⟩ : ∃ l ls, lits = l :: ls := by
        cases lits with
        | nil => simp [numbers_param] at hlen
        | cons l ls => exact ⟨l, ls, rfl⟩
      rw [List.cons_append, fillItems, ih lits (Nat.succ_le_succ_iff.mp hlen), fillItems,
        List.append_assoc]
      rfl

/-! ## Binding by number -/

variable {σ : Type} {env : PgEnv σ}

/-- A query that `on_parse` accepts, whatever types the client declares. -/
def Accepts (env : PgEnv σ) (query : String) : Prop :=
  ∃ paramOids stmt, PgConn.parsed env query paramOids = .ok stmt

/-- The query runs with the literal of the k-th bound parameter for each `$k`; of a blank
query nothing is run. -/
def BindsByNumber (env : PgEnv σ) (query : String) : Prop :=
  ∀ pg pg₁ pg₂ name portal paramOids params formats replies replies',
    PgConn.onParse env pg name query paramOids = (pg₁, .ok replies) →
      PgConn.onBind env pg₁ portal name params formats = (pg₂, .ok replies') →
        ∃ p, pg₂.portals portal = some p ∧ p.pending = none ∧
          ((trim query.toList = [] ∧ PgConn.portalText env pg₂ p = .ok none) ∨
            ∃ items stmt text, pgScan 0 .top (utf8 query) = .ok items ∧
              PgConn.portalText env pg₂ p = .ok (some (stmt, text)) ∧
                bytesOf text = numberedText (p.params.map (PgConn.paramLiteral env)) items)

/-- The placeholders of the query stand in the order of their numbers, and its bytes are
characters. -/
def InOrder (query : String) : Prop :=
  trim query.toList = [] ∨
    ∃ items, pgScan 0 .top (utf8 query) = .ok items ∧
      numbers items = List.range' 1 (numbers items).length ∧ Ascii items

theorem onParse_ok {pg₁ : PgConn} {name : String} {replies : List Reply}
    (h : PgConn.onParse env pg name query paramOids = (pg₁, .ok replies)) :
    ∃ stmt, PgConn.parsed env query paramOids = .ok stmt ∧ pg₁ = pg.setStmt name stmt := by
  rw [PgConn.onParse] at h
  cases hparsed : PgConn.parsed env query paramOids with
  | error e =>
    rw [hparsed] at h
    cases h
  | ok stmt =>
    rw [hparsed] at h
    cases h
    exact ⟨stmt, rfl, rfl⟩

theorem onBind_ok {pg₁ : PgConn} {portal statement : String} {params : List BoundParam}
    {formats : List Int} {replies : List Reply}
    (h : PgConn.onBind env pg portal statement params formats = (pg₁, .ok replies)) :
    ∃ stmt data, pg.stmts statement = some stmt ∧ params.length = stmt.offsets.length ∧
      ((stmt.oids.zip params).mapM fun x => decodeParam env.floats x.1 x.2) = .ok data ∧
        pg₁ = pg.setPortal portal ⟨statement, data, formats, false, none⟩ := by
  rw [PgConn.onBind] at h
  cases hstmt : pg.stmts statement with
  | none =>
    rw [hstmt] at h
    cases h
  | some stmt =>
    simp only [hstmt] at h
    split at h
    · cases h
    · next hlen =>
      split at h
      · cases h
      · next data hdata =>
        cases h
        exact ⟨stmt, data, rfl, not_not.mp hlen, hdata, rfl⟩

theorem onBind_of {portal statement : String} {params : List BoundParam} {formats : List Int}
    {data : List (Option Datum)} (hstmt : pg.stmts statement = some stmt)
    (hlen : params.length = stmt.offsets.length)
    (hdata : ((stmt.oids.zip params).mapM fun x => decodeParam env.floats x.1 x.2) = .ok data) :
    PgConn.onBind env pg portal statement params formats =
      (pg.setPortal portal ⟨statement, data, formats, false, none⟩, .ok [.bindComplete]) := by
  rw [PgConn.onBind, hstmt]
  simp only
  rw [if_neg (not_not.mpr hlen)]
  split
  · next e he => cases he.symm.trans hdata
  · next data' hdata' =>
    cases hdata'.symm.trans hdata
    rfl

theorem length_of_mapM_ok {ε α β : Type} {f : α → Except ε β} {l : List α} {l' : List β}
    (h : l.mapM f = .ok l') : l'.length = l.length := by
  induction l generalizing l' with
  | nil =>
    cases h
    rfl
  | cons a l ih =>
    rw [List.mapM_cons] at h
    cases ha : f a with
    | error e =>
      rw [ha] at h
      cases h
    | ok b =>
      cases hl : l.mapM f with
      | error e =>
        rw [ha, hl] at h
        cases h
      | ok bs =>
        rw [ha, hl] at h
        cases h
        exact congrArg Nat.succ (ih hl)

namespace Accepted

variable {query : String} {items : List PgItem} {stmt : PgStmt}

theorem length_offsets (h : Accepted query items stmt) :
    stmt.offsets.length = (numbers items).length := by
  rw [h.offsets, length_findPlaceholders, h.markers]

theorem portalText {pg : PgConn} {p : PgPortal} (h : Accepted query items stmt)
    (hstmt : pg.stmts p.stmt = some stmt) (hparams : p.params.length = (numbers items).length) :
    PgConn.portalText env pg p =
      .ok (some (stmt, fillItems items (p.params.map (PgConn.paramLiteral env)))) := by
  have hlits : (p.params.map (PgConn.paramLiteral env)).length = (numbers items).length := by
    rw [List.length_map, hparams]
  rw [PgConn.portalText, hstmt]
  simp only [h.full, Bool.false_eq_true, if_false]
  rw [h.sql, h.offsets, substitute_findPlaceholders _ (by rw [hlits, h.markers]),
    weave_chars h.outside h.markers hlits]

theorem mem_range (h : Accepted query items stmt) {k : Nat} (hk : k ∈ numbers items) :
    1 ≤ k ∧ k - 1 < (numbers items).length := by
  have hrange := List.mem_range'_1.mp (h.perm.mem_iff.mp hk)
  omega

theorem binds_text (h : Accepted query items stmt) (hparsed : PgConn.parsed env query [] = .ok stmt)
    (hbinds : BindsByNumber env query) (hquery : trim query.toList ≠ []) {params : List BoundParam}
    {data : List (Option Datum)} (hparams : params.length = (numbers items).length)
    (hdata : ((stmt.oids.zip params).mapM fun x => decodeParam env.floats x.1 x.2) = .ok data)
    (hlen : data.length = (numbers items).length) :
    bytesOf (fillItems items (data.map (PgConn.paramLiteral env))) =
      numberedText (data.map (PgConn.paramLiteral env)) items := by
  have hparse : PgConn.onParse env .start "" query [] =
      (PgConn.start.setStmt "" stmt, .ok [.parseComplete]) := by
    rw [PgConn.onParse, hparsed]
  have hbind : PgConn.onBind env (PgConn.start.setStmt "" stmt) "" "" params [] =
      ((PgConn.start.setStmt "" stmt).setPortal "" ⟨"", data, [], false, none⟩,
        .ok [.bindComplete]) :=
    onBind_of (by simp [PgConn.setStmt]) (by rw [hparams, h.length_offsets]) hdata
  obtain ⟨p, hp, -, hrun⟩ := hbinds _ _ _ _ _ _ _ _ _ _ hparse hbind
  simp only [PgConn.setPortal, if_true, Option.some.injEq] at hp
  subst hp
  obtain ⟨hblank, -⟩ | ⟨items', stmt', text, hscan, htext, hbytes⟩ := hrun
  · exact absurd hblank hquery
  · rw [h.scan] at hscan
    cases hscan
    rw [h.portalText (by simp [PgConn.setPortal, PgConn.setStmt]) hlen] at htext
    cases htext
    exact hbytes

end Accepted

/-- A parameter without a value. -/
def nullParam : BoundParam := ⟨0, none⟩

/-- The number 0 as a text. -/
def zeroParam : BoundParam := ⟨0, some (utf8 "0")⟩

theorem decodeParam_nullParam (fl : PgFloats) : decodeParam fl 0 nullParam = .ok none := rfl

theorem decodeParam_zeroParam (fl : PgFloats) : decodeParam fl 0 zeroParam = .ok (some (.int 0)) := by
  have hzero : parseI64 "0".toList = some 0 := by decide
  simp only [decodeParam, zeroParam, fromUtf8_utf8, decodeText, hzero]
  rfl

theorem mapM_decodeParam {fl : PgFloats} {f : BoundParam → Option Datum} {params : List BoundParam}
    (h : ∀ p ∈ params, decodeParam fl 0 p = .ok (f p)) :
    (((List.replicate params.length 0).zip params).mapM fun x => decodeParam fl x.1 x.2) =
      .ok (params.map f) := by
  induction params with
  | nil => rfl
  | cons p params ih =>
    have hrest := ih fun p hp => h p (List.mem_cons_of_mem _ hp)
    rw [List.length_cons, List.replicate_succ, List.zip_cons_cons, List.mapM_cons, hrest,
      h p List.mem_cons_self]
    rfl

/-- What a parameter without a type is decoded to, of the two values above. -/
def plainValue (p : BoundParam) : Option Datum :=
  if p = nullParam then none else some (.int 0)

theorem decodeParam_plain {fl : PgFloats} {p : BoundParam} (h : p = nullParam ∨ p = zeroParam) :
    decodeParam fl 0 p = .ok (plainValue p) := by
  obtain rfl | rfl := h
  · exact decodeParam_nullParam fl
  · exact decodeParam_zeroParam fl

namespace Accepted

variable {query : String} {items : List PgItem} {stmt : PgStmt}

/-- A Bind of NULLs and zeros after a Parse without types. -/
theorem binds_plain (h : Accepted query items stmt) (hparsed : PgConn.parsed env query [] = .ok stmt)
    (hoids : stmt.oids = List.replicate (numbers items).length 0) (hbinds : BindsByNumber env query)
    (hquery : trim query.toList ≠ []) {params : List BoundParam}
    (hparams : params.length = (numbers items).length)
    (hplain : ∀ p ∈ params, p = nullParam ∨ p = zeroParam) :
    bytesOf (fillItems items (params.map fun p => PgConn.paramLiteral env (plainValue p))) =
      numberedText (params.map fun p => PgConn.paramLiteral env (plainValue p)) items := by
  have hdata := @mapM_decodeParam env.floats _ _ fun p hp => decodeParam_plain (hplain p hp)
  rw [hparams, ← hoids] at hdata
  have htext := h.binds_text hparsed hbinds hquery hparams hdata (by rw [List.length_map, hparams])
  rw [List.map_map] at htext
  exact htext

theorem ascii (h : Accepted query items stmt) (hparsed : PgConn.parsed env query [] = .ok stmt)
    (hoids : stmt.oids = List.replicate (numbers items).length 0) (hbinds : BindsByNumber env query)
    (hquery : trim query.toList ≠ []) : Ascii items := by
  have hnulls : ∀ p ∈ List.replicate (numbers items).length nullParam, p = nullParam ∨ p = zeroParam :=
    fun p hp => .inl (List.eq_of_mem_replicate hp)
  have htext := h.binds_plain hparsed hoids hbinds hquery List.length_replicate hnulls
  rw [List.map_replicate] at htext
  have hlen := length_fillItems_nulls fun k hk => (h.mem_range hk).2
  have heq := congrArg List.length htext
  have hnone : items.countP isWide = 0 := by
    change (bytesOf (fillItems items (List.replicate _ "NULL".toList))).length =
      (numberedText (List.replicate _ "NULL".toList) items).length at heq
    omega
  intro b hb
  have := List.countP_eq_zero.mp hnone _ hb
  simpa [isWide] using this

theorem ordered (h : Accepted query items stmt) (hparsed : PgConn.parsed env query [] = .ok stmt)
    (hoids : stmt.oids = List.replicate (numbers items).length 0) (hbinds : BindsByNumber env query)
    (hquery : trim query.toList ≠ []) : numbers items = List.range' 1 (numbers items).length := by
  by_contra hne
  obtain ⟨front, u, back, rfl, hfront, hu⟩ := exists_first_unordered (j := 0) hne
  have hnumbers : numbers (front ++ .param u :: back) = numbers front ++ u :: numbers back :=
    numbers_append _ _
  have hascii : Ascii front := fun b hb =>
    h.ascii hparsed hoids hbinds hquery b (List.mem_append_left _ hb)
  have hrange := h.mem_range (k := u) (by simp [hnumbers])
  let n := (numbers (front ++ .param u :: back)).length
  -- every parameter is NULL but the one whose placeholder stands in the wrong place
  let params := (List.replicate n nullParam).set (u - 1) zeroParam
  have hplain : ∀ p ∈ params, p = nullParam ∨ p = zeroParam := by
    intro p hp
    obtain hp | rfl := List.mem_or_eq_of_mem_set hp
    · exact .inl (List.eq_of_mem_replicate hp)
    · exact .inr rfl
  have hlen : params.length = n := by simp [params]
  have htext := h.binds_plain hparsed hoids hbinds hquery hlen hplain
  let lits := params.map fun p => PgConn.paramLiteral env (plainValue p)
  have hlits : lits.length = n := by simp [lits, params]
  have hget (i : Nat) (hi : i < n) :
      lits[i]? = some (if u - 1 = i then "0".toList else "NULL".toList) := by
    simp only [lits, params, List.getElem?_map, List.getElem?_set, List.length_replicate,
      List.getElem?_replicate, hi, if_true]
    split
    · rw [if_pos (by omega)]
      rfl
    · rfl
  have hj : (numbers front).length < n := by
    simp only [n, hnumbers, List.length_append, List.length_cons]
    omega
  have hprefix := bytesOf_fillItems hascii lits (j := 0) hfront (by omega)
  change bytesOf (fillItems (front ++ .param u :: back) lits) =
    numberedText lits (front ++ .param u :: back) at htext
  rw [fillItems_append front _ lits (by omega), bytesOf_append,
    show fillItems front lits = fillItems front (lits.drop 0) from rfl, hprefix,
    show numberedText lits (front ++ .param u :: back) =
      numberedText lits front ++ numberedText lits (.param u :: back) from List.flatMap_append,
    List.drop_eq_getElem?_toList_append, hget _ hj, if_neg (by omega)] at htext
  have hrest := List.append_cancel_left htext
  rw [show numberedText lits (.param u :: back) =
    bytesOf (lits.getD (u - 1) []) ++ numberedText lits back from rfl, List.getD_eq_getElem?_getD,
    hget (u - 1) hrange.2, if_pos rfl] at hrest
  have hleft (cs : List Char) : (bytesOf ("NULL".toList ++ cs)).head? = some 78 := by
    rw [bytesOf_append, List.head?_append, show (bytesOf "NULL".toList).head? = some 78 by decide]
    rfl
  have hright (bs : Bytes) : (bytesOf "0".toList ++ bs).head? = some 48 := by
    rw [List.head?_append, show (bytesOf "0".toList).head? = some 48 by decide]
    rfl
  have hhead := congrArg List.head? hrest
  rw [Option.getD_some, hright, Option.toList_some, List.singleton_append, fillItems, hleft] at hhead
  exact absurd hhead (by decide)

end Accepted

/-- The declared types do not matter for whether a query is accepted. -/
theorem parsed_of_parsed (paramOids' : List Nat) (h : PgConn.parsed env query paramOids = .ok stmt) :
    ∃ stmt', PgConn.parsed env query paramOids' = .ok stmt' := by
  rw [PgConn.parsed] at h ⊢
  by_cases hblank : trim query.toList = []
  · exact ⟨_, if_pos hblank⟩
  rw [if_neg hblank] at h ⊢
  cases hmarkers : pgToMarkers query with
  | error m =>
    rw [hmarkers] at h
    cases h
  | ok r =>
    simp only [hmarkers] at h ⊢
    split at h
    · cases h
    · next hlen =>
      rw [if_neg hlen]
      cases hsql : PgConn.parseSql env (PgConn.neutralize r.1 (findPlaceholders r.1)) with
      | error e =>
        rw [hsql] at h
        cases h
      | ok u => exact ⟨_, rfl⟩

/-- What runs of a query whose placeholders are in order. -/
theorem bindsByNumber_of_inOrder (h : InOrder query) : BindsByNumber env query := by
  intro pg pg₁ pg₂ name portal paramOids params formats replies replies' hparse hbind
  obtain ⟨stmt, hparsed, rfl⟩ := onParse_ok hparse
  obtain ⟨stmt', data, hstmt, hlen, hdata, rfl⟩ := onBind_ok hbind
  obtain rfl : stmt = stmt' := by simpa [PgConn.setStmt] using hstmt
  have hbound : ((pg.setStmt name stmt).setPortal portal ⟨name, data, formats, false, none⟩).portals portal =
      some ⟨name, data, formats, false, none⟩ := if_pos rfl
  have hnamed : ((pg.setStmt name stmt).setPortal portal ⟨name, data, formats, false, none⟩).stmts name =
      some stmt := if_pos rfl
  refine ⟨_, hbound, rfl, ?_⟩
  by_cases hquery : trim query.toList = []
  · rw [PgConn.parsed, if_pos hquery] at hparsed
    cases hparsed
    refine .inl ⟨hquery, ?_⟩
    rw [PgConn.portalText, hnamed]
    rfl
  · obtain hblank | ⟨items, hscan, horder, hascii⟩ := h
    · exact absurd hblank hquery
    obtain ⟨items', haccepted, hoids⟩ := accepted_of_parsed hquery hparsed
    obtain rfl : items = items' := Except.ok.inj (hscan.symm.trans haccepted.scan)
    have hdataLen : data.length = (numbers items).length := by
      rw [length_of_mapM_ok hdata, List.length_zip, hlen, haccepted.length_offsets, hoids]
      simp only [List.length_take, List.length_append, List.length_replicate]
      omega
    refine .inr ⟨items, stmt, _, hscan, haccepted.portalText hnamed hdataLen, ?_⟩
    exact bytesOf_fillItems hascii _ (j := 0) horder (by rw [List.length_map, hdataLen]; omega)

/-- Parameters bind by number in exactly the queries whose placeholders are in order. -/
theorem bindsByNumber_iff (env : PgEnv σ) {query : String} (haccepts : Accepts env query) :
    BindsByNumber env query ↔ InOrder query := by
  refine ⟨fun hbinds => ?_, bindsByNumber_of_inOrder⟩
  by_cases hquery : trim query.toList = []
  · exact .inl hquery
  obtain ⟨paramOids, stmt', hstmt'⟩ := haccepts
  obtain ⟨stmt, hparsed⟩ := parsed_of_parsed [] hstmt'
  obtain ⟨items, haccepted, hoids⟩ := accepted_of_parsed hquery hparsed
  have hoids : stmt.oids = List.replicate (numbers items).length 0 := by simpa using hoids
  exact .inr ⟨items, haccepted.scan, haccepted.ordered hparsed hoids hbinds hquery,
    haccepted.ascii hparsed hoids hbinds hquery⟩

/-- An engine that takes every text and answers nothing. -/
def quietEnv : PgEnv Unit where
  grammar _ := .ok ()
  execute s _ := (s, .ok ⟨[], [], "0 row(s) deleted"⟩)
  describe _ _ := .ok []
  inTransaction _ := false
  pgError _ := ("XX000", "")
  upper s := s
  floats := ⟨fun _ => none, fun _ => 0, fun _ => 0, ⟨fun _ => "0", fun _ => "0"⟩⟩

/-- `$2` stands first and gets the first parameter. -/
theorem binds_by_position :
    ¬∀ (env : PgEnv Unit) (query : String), Accepts env query → BindsByNumber env query := by
  intro h
  let query := "DELETE FROM t WHERE a = $2 AND b = $1"
  let stmt : PgStmt := ⟨"DELETE FROM t WHERE a = ? AND b = ?".toList, [24, 34], [0, 0], false⟩
  have hparsed : PgConn.parsed quietEnv query [] = .ok stmt := by decide
  have hparse : PgConn.onParse quietEnv .start "" query [] =
      (PgConn.start.setStmt "" stmt, .ok [.parseComplete]) := by rw [PgConn.onParse, hparsed]
  let one : BoundParam := ⟨0, some (utf8 "1")⟩
  let two : BoundParam := ⟨0, some (utf8 "2")⟩
  have hbind : PgConn.onBind quietEnv (PgConn.start.setStmt "" stmt) "" "" [one, two] [] =
      ((PgConn.start.setStmt "" stmt).setPortal "" ⟨"", [some (.int 1), some (.int 2)], [], false, none⟩,
        .ok [.bindComplete]) := onBind_of rfl rfl (by decide)
  obtain ⟨p, hp, -, ⟨hblank, -⟩ | ⟨items, stmt', text, hscan, htext, hbytes⟩⟩ :=
    h quietEnv query ⟨[], _, hparsed⟩ _ _ _ _ _ _ _ _ _ _ hparse hbind
  · exact absurd hblank (by decide)
  · cases hp
    have hrun : text = "DELETE FROM t WHERE a = 1 AND b = 2".toList := by
      cases htext
      decide
    have hitems : pgScan 0 .top (utf8 query) = .ok
        ((utf8 "DELETE FROM t WHERE a = ").map .byte ++ .param 2 :: (utf8 " AND b = ").map .byte ++
          [.param 1]) := by decide
    rw [hitems, Except.ok.injEq] at hscan
    subst hscan hrun
    exact absurd hbytes (by decide)

theorem binds_in_order : BindsByNumber quietEnv "DELETE FROM t WHERE a = $1 AND b = $2" := by
  have haccepts : Accepts quietEnv "DELETE FROM t WHERE a = $1 AND b = $2" :=
    ⟨[], ⟨"DELETE FROM t WHERE a = ? AND b = ?".toList, [24, 34], [0, 0], false⟩, by decide⟩
  refine (bindsByNumber_iff quietEnv haccepts).mpr (.inr ⟨(utf8 "DELETE FROM t WHERE a = ").map .byte ++
    .param 1 :: (utf8 " AND b = ").map .byte ++ [.param 2], by decide, by decide, fun b hb => ?_⟩)
  have hplain : ∀ item ∈ (utf8 "DELETE FROM t WHERE a = ").map .byte ++
      .param 1 :: (utf8 " AND b = ").map .byte ++ [.param 2], isWide item = false := by decide
  simpa [isWide] using hplain _ hb

end HenchDB
