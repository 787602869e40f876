import HenchDB.Wire.Copy

/-!
# Escapes of the text format

A field is written with a backslash before its backslashes, line ends and delimiters.
`splitTextLine` takes a line apart again at the delimiters without a backslash
(`splitTextLine_join`).  `unescapeText` knows the backslash and the line ends and has no
escape for the delimiter, so the row comes back exactly where no field contains it.

An octal escape is read into one byte.  Three digits from `\400` on do not fit, and
nothing else in `unescapeText` overflows.
-/

namespace HenchDB

open Codec

/-! ## Writing a row -/

def escapeByte (delim b : UInt8) : Bytes :=
  if b = byteOf '\\' then [byteOf '\\', byteOf '\\']
  else if b = byteOf '\n' then [byteOf '\\', byteOf 'n']
  else if b = byteOf '\r' then [byteOf '\\', byteOf 'r']
  else if b = delim then [byteOf '\\', delim]
  else [b]

def escapeField (delim : UInt8) (field : Bytes) : Bytes := field.flatMap (escapeByte delim)

/-- The line of a row. -/
def joinFields (delim : UInt8) (fields : List Bytes) : Bytes :=
  List.intercalate [delim] (fields.map (escapeField delim))

def readFields (delim : UInt8) (line : Bytes) : Except String (List Bytes) :=
  (splitTextLine line delim).mapM unescapeText

def isLetterByte (b : UInt8) : Bool :=
  (byteOf 'a' ≤ b && b ≤ byteOf 'z') || (byteOf 'A' ≤ b && b ≤ byteOf 'Z')

/-- A byte that may part the fields. -/
structure Delimiter (delim : UInt8) : Prop where
  backslash : delim ≠ byteOf '\\'
  newline : delim ≠ byteOf '\n'
  carriage : delim ≠ byteOf '\r'
  nul : delim ≠ 0
  digit : ¬ (byteOf '0' ≤ delim ∧ delim ≤ byteOf '9')
  letter : isLetterByte delim = false

variable {delim : UInt8}

/-! ## Splitting the line -/

theorem splitTextFrom_pair (field : Bytes) (b : UInt8) (bs : Bytes) :
    splitTextFrom delim field (byteOf '\\' :: b :: bs) =
      splitTextFrom delim (field ++ [byteOf '\\', b]) bs := by
  rw [splitTextFrom, if_pos rfl]

variable {b val : UInt8} {bs : Bytes} {n : Nat}

theorem splitTextFrom_plain (hb : b ≠ byteOf '\\') (hd : b ≠ delim) (field bs : Bytes) :
    splitTextFrom delim field (b :: bs) = splitTextFrom delim (field ++ [b]) bs := by
  cases bs with
  | nil => simp [splitTextFrom, hd]
  | cons b' bs => rw [splitTextFrom, if_neg hb, if_neg hd]

theorem splitTextFrom_delim (h : delim ≠ byteOf '\\') (field bs : Bytes) :
    splitTextFrom delim field (delim :: bs) = field :: splitTextFrom delim [] bs := by
  cases bs with
  | nil => simp [splitTextFrom]
  | cons b bs => rw [splitTextFrom, if_neg h, if_pos rfl]

theorem splitTextFrom_escapeByte (b : UInt8) (field bs : Bytes) :
    splitTextFrom delim field (escapeByte delim b ++ bs) =
      splitTextFrom delim (field ++ escapeByte delim b) bs := by
  rw [escapeByte]
  split
  · exact splitTextFrom_pair field _ bs
  next hbackslash =>
  split
  · exact splitTextFrom_pair field _ bs
  split
  · exact splitTextFrom_pair field _ bs
  split
  · exact splitTextFrom_pair field _ bs
  next hdelim => exact splitTextFrom_plain hbackslash hdelim field bs

theorem splitTextFrom_escapeField (f field bs : Bytes) :
    splitTextFrom delim field (escapeField delim f ++ bs) =
      splitTextFrom delim (field ++ escapeField delim f) bs := by
  induction f generalizing field with
  | nil => rw [escapeField, List.flatMap_nil, List.nil_append, List.append_nil]
  | cons b f ih =>
    rw [escapeField, List.flatMap_cons, List.append_assoc, splitTextFrom_escapeByte]
    change splitTextFrom delim _ (escapeField delim f ++ bs) = _
    rw [ih, List.append_assoc]
    rfl

/-- A line has the fields that it was joined from, still with their escapes. -/
theorem splitTextLine_join (h : delim ≠ byteOf '\\') :
    ∀ {fields : List Bytes}, fields ≠ [] →
      splitTextLine (joinFields delim fields) delim = fields.map (escapeField delim)
  | [], hne => absurd rfl hne
  | [f], _ => by
    have hsplit := @splitTextFrom_escapeField delim f [] []
    rw [List.append_nil, List.nil_append, splitTextFrom] at hsplit
    simpa [splitTextLine, joinFields] using hsplit
  | f :: g :: fields, _ => by
    have hrest := splitTextLine_join h (List.cons_ne_nil g fields)
    rw [splitTextLine] at hrest
    have hjoin : joinFields delim (f :: g :: fields) =
        escapeField delim f ++ delim :: joinFields delim (g :: fields) := by
      simp [joinFields, List.intercalate]
    rw [splitTextLine, hjoin, splitTextFrom_escapeField, splitTextFrom_delim h, hrest]
    rfl

/-! ## Reading an escape -/

theorem unescapeFrom_plain (h : b ≠ byteOf '\\') (bs : Bytes) :
    unescapeFrom 0 (b :: bs) = (unescapeFrom 0 bs).map (b :: ·) := by
  rw [unescapeFrom, if_neg h]
  cases unescapeFrom 0 bs <;> rfl

/-- An escape that `textEscape` reads. -/
theorem unescapeFrom_escape {v : UInt8} (h : textEscape (b :: bs) = .ok (v, 1)) :
    unescapeFrom 0 (byteOf '\\' :: b :: bs) = (unescapeFrom 0 bs).map (v :: ·) := by
  rw [unescapeFrom, if_pos rfl, h]
  change (unescapeFrom 1 (b :: bs) >>= fun rest => .ok (v :: rest)) = _
  rw [unescapeFrom]
  cases unescapeFrom 0 bs <;> rfl

theorem textEscape_delim (h : Delimiter delim) (bs : Bytes) : ∃ e, textEscape (delim :: bs) = .error e := by
  have hletter : ∀ c : Char, isLetterByte (byteOf c) = true → delim ≠ byteOf c := by
    rintro c hc rfl
    rw [h.letter] at hc
    cases hc
  have hoctal : ¬ (byteOf '0' ≤ delim ∧ delim ≤ byteOf '7') := fun hd =>
    h.digit ⟨hd.1, UInt8.le_trans hd.2 (by decide)⟩
  refine ⟨"invalid escape \\" ++ String.singleton (Char.ofNat delim.toNat), ?_⟩
  unfold textEscape
  dsimp only
  rw [if_neg (hletter 'b' (by decide)), if_neg (hletter 'f' (by decide)),
    if_neg (hletter 'n' (by decide)), if_neg (hletter 'r' (by decide)), if_neg (hletter 't' (by decide)),
    if_neg (hletter 'v' (by decide)), if_neg h.backslash, if_neg (hletter 'x' (by decide)), if_neg hoctal]

theorem unescapeFrom_escapeByte (hb : b ≠ delim) (bs : Bytes) :
    unescapeFrom 0 (escapeByte delim b ++ bs) = (unescapeFrom 0 bs).map (b :: ·) := by
  rw [escapeByte]
  split
  · next hbackslash =>
    rw [hbackslash]
    exact unescapeFrom_escape rfl
  next hbackslash =>
  split
  · next hnewline =>
    rw [hnewline]
    exact unescapeFrom_escape rfl
  split
  · next hcarriage =>
    rw [hcarriage]
    exact unescapeFrom_escape rfl
  exact unescapeFrom_plain hbackslash bs

theorem unescapeText_escapeField {field : Bytes} (h : delim ∉ field) :
    unescapeText (escapeField delim field) = .ok field := by
  rw [unescapeText, escapeField]
  induction field with
  | nil => rfl
  | cons b field ih =>
    rw [List.mem_cons, not_or] at h
    rw [List.flatMap_cons, unescapeFrom_escapeByte (Ne.symm h.1), ih h.2]
    rfl

theorem unescapeText_of_mem (hdelim : Delimiter delim) {field : Bytes} (h : delim ∈ field) :
    ∃ e, unescapeText (escapeField delim field) = .error e := by
  rw [unescapeText, escapeField]
  induction field with
  | nil => cases h
  | cons b field ih =>
    rw [List.flatMap_cons]
    by_cases hb : b = delim
    · subst hb
      obtain ⟨e, he⟩ := textEscape_delim hdelim (field.flatMap (escapeByte b))
      rw [escapeByte, if_neg hdelim.backslash, if_neg hdelim.newline, if_neg hdelim.carriage,
        if_pos rfl]
      change ∃ e, unescapeFrom 0 (byteOf '\\' :: b :: field.flatMap (escapeByte b)) = .error e
      rw [unescapeFrom, if_pos rfl, he]
      exact ⟨e, rfl⟩
    · obtain ⟨e, he⟩ := ih ((List.mem_cons.mp h).resolve_left (Ne.symm hb))
      rw [unescapeFrom_escapeByte hb, he]
      exact ⟨e, rfl⟩

/-- A row comes back exactly where it has a field and no field has the delimiter. -/
theorem readFields_join_iff (hdelim : Delimiter delim) (fields : List Bytes) :
    readFields delim (joinFields delim fields) = .ok fields ↔
      fields ≠ [] ∧ ∀ field ∈ fields, delim ∉ field := by
  by_cases hne : fields = []
  · subst hne
    refine iff_of_false ?_ fun h => h.1 rfl
    change ¬ ([[]] : List Bytes).mapM unescapeText = .ok []
    intro h
    cases h
  rw [readFields, splitTextLine_join hdelim.backslash hne, and_iff_right hne]
  clear hne
  induction fields with
  | nil => exact iff_of_true rfl (by simp)
  | cons field fields ih =>
    rw [List.map_cons, List.mapM_cons, List.forall_mem_cons]
    by_cases hmem : delim ∈ field
    · obtain ⟨e, he⟩ := unescapeText_of_mem hdelim hmem
      rw [he]
      exact iff_of_false (fun h => nomatch h) fun h => h.1 hmem
    · rw [unescapeText_escapeField hmem, and_iff_right hmem, ← ih]
      cases (fields.map (escapeField delim)).mapM unescapeText with
      | error e => exact iff_of_false (fun h => nomatch h) fun h => nomatch h
      | ok read => 
        change (.ok (field :: read) : Except String (List Bytes)) = _ ↔ _
        simp

/-! ## Overflow -/

def isOctal (b : UInt8) : Bool := byteOf '0' ≤ b && b ≤ byteOf '7'

/-- In the loop of `octal` a product or a sum overflows. -/
def octalOverflows : Nat → UInt8 → Bytes → Bool
  | n + 1, val, b :: bs =>
    if byteOf '0' ≤ b ∧ b ≤ byteOf '7' then
      256 ≤ val.toNat * 8 || 256 ≤ (val * 8).toNat + (b - byteOf '0').toNat ||
        octalOverflows n (val * 8 + (b - byteOf '0')) bs
    else false
  | _, _, _ => false

/-- In `unescapeFrom` an octal escape overflows. -/
def unescapeOverflows : Nat → Bytes → Bool
  | _, [] => false
  | k + 1, _ :: bs => unescapeOverflows k bs
  | 0, b :: bs =>
    if b = byteOf '\\' then
      octalOverflows 3 0 bs || match textEscape bs with
        | .error _ => false
        | .ok (_, used) => unescapeOverflows used bs
    else unescapeOverflows 0 bs

def highOctal : Bytes → Bool
  | a :: b :: c :: _ => byteOf '4' ≤ a && isOctal a && isOctal b && isOctal c
  | _ => false

theorem isOctal_iff : isOctal b = true ↔ byteOf '0' ≤ b ∧ b ≤ byteOf '7' := by
  rw [isOctal, Bool.and_eq_true, decide_eq_true_eq, decide_eq_true_eq]

theorem octalOverflows_stop (hb : isOctal b = false) :
    octalOverflows n val (b :: bs) = false := by
  cases n with
  | zero => rfl
  | succ n => rw [octalOverflows, if_neg (by rw [← isOctal_iff, hb]; exact Bool.false_ne_true)]

theorem toNat_octalDigit (hb : isOctal b) : (b - byteOf '0').toNat = b.toNat - 48 := by
  rw [UInt8.toNat_sub_of_le _ _ (isOctal_iff.mp hb).1]
  rfl

theorem octalDigit_lt (hb : isOctal b) : b.toNat - 48 < 8 := by
  have hle : b.toNat ≤ 55 := UInt8.le_iff_toNat_le.mp (isOctal_iff.mp hb).2
  omega

theorem octalOverflows_digit {n : Nat} {val b : UInt8} {bs : Bytes} (hb : isOctal b)
    (hval : val.toNat < 32) :
    octalOverflows (n + 1) val (b :: bs) = octalOverflows n (val * 8 + (b - byteOf '0')) bs ∧
      (val * 8 + (b - byteOf '0')).toNat = val.toNat * 8 + (b.toNat - 48) := by
  have hdigit := toNat_octalDigit hb
  have hlt := octalDigit_lt hb
  have hprod : (val * 8).toNat = val.toNat * 8 := by
    rw [UInt8.toNat_mul]
    exact Nat.mod_eq_of_lt (by change val.toNat * 8 < 256; omega)
  constructor
  · rw [octalOverflows, if_pos (isOctal_iff.mp hb), hprod, hdigit, decide_eq_false (by omega),
      decide_eq_false (by omega)]
    rfl
  · rw [UInt8.toNat_add, hprod, hdigit]
    exact Nat.mod_eq_of_lt (by change _ < 256; omega)

/-- From 32 on it does not. -/
theorem octalOverflows_high (hb : isOctal b) (hval : 32 ≤ val.toNat) :
    octalOverflows (n + 1) val (b :: bs) = true := by
  rw [octalOverflows, if_pos (isOctal_iff.mp hb), decide_eq_true (by omega)]
  rfl

/-- Two digits are at least 32 if the first is 4 or more, and three overflow then. -/
theorem octalOverflows_eq (bs : Bytes) : octalOverflows 3 0 bs = highOctal bs := by
  cases bs with
  | nil => rfl
  | cons a bs =>
  cases ha : isOctal a with
  | false =>
    rw [octalOverflows_stop ha]
    rcases bs with _ | ⟨b, _ | ⟨c, bs⟩⟩
    · rfl
    · rfl
    · simp [highOctal, ha]
  | true =>
  obtain ⟨hstep, hvalue⟩ := @octalOverflows_digit 2 0 _ _ ha (by decide)
  have hlt := octalDigit_lt ha
  have hzero : (0 : UInt8).toNat = 0 := rfl
  rw [hstep]
  cases bs with
  | nil => rfl
  | cons b bs =>
  cases hb : isOctal b with
  | false =>
    rw [octalOverflows_stop hb]
    cases bs with
    | nil => rfl
    | cons c bs => simp [highOctal, hb]
  | true =>
  obtain ⟨hstep', hvalue'⟩ := @octalOverflows_digit 1 (0 * 8 + (a - byteOf '0')) _ _ hb
    (by omega)
  have hlt' := octalDigit_lt hb
  rw [hstep']
  cases bs with
  | nil => rfl
  | cons c bs =>
  cases hc : isOctal c with
  | false =>
    rw [octalOverflows_stop hc]
    simp [highOctal, hc]
  | true =>
  have hge := UInt8.le_iff_toNat_le.mp (isOctal_iff.mp ha).1
  have h0 : (byteOf '0').toNat = 48 := by decide
  have h4 : byteOf '4' ≤ a ↔ 52 ≤ a.toNat := UInt8.le_iff_toNat_le
  rw [highOctal, ha, hb, hc, Bool.and_true, Bool.and_true, Bool.and_true]
  by_cases hfour : 52 ≤ a.toNat
  · rw [decide_eq_true (h4.mpr hfour), octalOverflows_high hc (by omega)]
  · rw [decide_eq_false (h4.not.mpr hfour), (octalOverflows_digit hc (by omega)).1]
    rfl

/-! ### Escapes that are read -/

/-- Where an escape is read, what is behind it makes no difference. -/
theorem octal_append (rest : Bytes) :
    octal n val (bs ++ byteOf '\\' :: rest) = octal n val bs := by
  induction bs generalizing n val with
  | nil =>
    cases n with
    | zero => rfl
    | succ n => rw [List.nil_append, octal, if_neg (by decide)]; rfl
  | cons b bs ih =>
    cases n with
    | zero => rfl
    | succ n => rw [List.cons_append, octal, octal, ih]

theorem hexByte_backslash (h : UInt8) : hexByte h (byteOf '\\') = none := by
  have hdigit : hexDigit (byteOf '\\') = none := by decide
  rw [hexByte, hdigit]
  split
  · rfl
  · cases hexDigit h <;> rfl

/-- An escape in front of a backslash is read as it is at the end. -/
theorem textEscape_append (b : UInt8) (bs rest : Bytes) :
    textEscape (b :: bs ++ byteOf '\\' :: rest) = textEscape (b :: bs) := by
  have hoctal : octal 3 0 (b :: bs ++ byteOf '\\' :: rest) = octal 3 0 (b :: bs) := octal_append rest
  rw [List.cons_append] at hoctal ⊢
  unfold textEscape
  dsimp only
  rw [hoctal]
  by_cases hx : b = byteOf 'x'
  · subst hx
    rcases bs with _ | ⟨h, _ | ⟨l, bs⟩⟩
    · cases rest with
      | nil => rfl
      | cons r rest => rfl
    · simp [hexByte_backslash]
    · rfl
  · rw [if_neg hx, if_neg hx]

theorem octal_le (n : Nat) (val : UInt8) (bs : Bytes) : (octal n val bs).2 ≤ bs.length := by
  induction bs generalizing n val with
  | nil => cases n <;> exact Nat.le_refl _
  | cons b bs ih =>
    cases n with
    | zero => exact Nat.zero_le _
    | succ n =>
      rw [octal]
      split
      · exact Nat.succ_le_succ (ih n _)
      · exact Nat.zero_le _

/-- An escape is there as far as it is read. -/
theorem textEscape_le {v : UInt8} {used : Nat} (h : textEscape bs = .ok (v, used)) :
    used ≤ bs.length := by
  cases bs with
  | nil => cases h
  | cons b bs =>
    unfold textEscape at h
    dsimp only at h
    split at h
    · cases h; simp
    split at h
    · cases h; simp
    split at h
    · cases h; simp
    split at h
    · cases h; simp
    split at h
    · cases h; simp
    split at h
    · cases h; simp
    split at h
    · cases h; simp
    split at h
    · rcases bs with _ | ⟨d, _ | ⟨l, bs⟩⟩
      · cases h
      · cases h
      · cases hhex : hexByte d l with
        | none => simp [hhex] at h
        | some v =>
          simp only [hhex] at h
          cases h
          simp
    split at h
    · have hle := octal_le 3 0 (b :: bs)
      rw [Except.ok.injEq] at h
      rwa [h] at hle
    · cases h

theorem unescapeFrom_ok_iff :
    (∃ out, unescapeFrom 0 (byteOf '\\' :: bs) = .ok out) ↔
      ∃ v used, textEscape bs = .ok (v, used) ∧ ∃ out, unescapeFrom used bs = .ok out := by
  rw [unescapeFrom, if_pos rfl]
  cases textEscape bs with
  | error e => exact iff_of_false (fun ⟨out, h⟩ => nomatch h) fun ⟨v, used, h, _⟩ => nomatch h
  | ok r =>
    obtain ⟨v, used⟩ := r
    change (∃ out, (unescapeFrom used bs >>= fun rest => .ok (v :: rest)) = .ok out) ↔ _
    cases hrest : unescapeFrom used bs with
    | error e =>
      refine iff_of_false (fun ⟨out, h⟩ => nomatch h) ?_
      rintro ⟨v', used', h, out, hout⟩
      cases h
      rw [hrest] at hout
      cases hout
    | ok out => exact iff_of_true ⟨_, rfl⟩ ⟨v, used, rfl, out, hrest⟩

/-- An escape overflows exactly where three octal digits from 400 on are behind a backslash
and all escapes before it are read. -/
theorem unescapeOverflows_iff (k : Nat) (bs : Bytes) :
    unescapeOverflows k bs = true ↔
      ∃ front rest, bs = front ++ byteOf '\\' :: rest ∧ k ≤ front.length ∧
        (∃ out, unescapeFrom k front = .ok out) ∧ highOctal rest = true := by
  induction k, bs using unescapeOverflows.induct with
  | case1 k =>
    refine iff_of_false Bool.false_ne_true ?_
    rintro ⟨front, rest, h, -⟩
    simp at h
  | case2 k b bs ih =>
    rw [unescapeOverflows, ih]
    constructor
    · rintro ⟨front, rest, rfl, hle, hout, hhigh⟩
      exact ⟨b :: front, rest, rfl, Nat.succ_le_succ hle, hout, hhigh⟩
    · rintro ⟨front, rest, heq, hle, hout, hhigh⟩
      cases front with
      | nil => simp at hle
      | cons c front =>
        rw [List.cons_append, List.cons.injEq] at heq
        exact ⟨front, rest, heq.2, Nat.succ_le_succ_iff.mp hle, hout, hhigh⟩
  | case3 bs ih =>
    rw [unescapeOverflows, if_pos rfl, octalOverflows_eq, Bool.or_eq_true]
    constructor
    · rintro (hhigh | hrest)
      · exact ⟨[], bs, rfl, Nat.le_refl _, ⟨[], rfl⟩, hhigh⟩
      · cases hescape : textEscape bs with
        | error e =>
          rw [hescape] at hrest
          cases hrest
        | ok r =>
          obtain ⟨v, used⟩ := r
          rw [hescape] at hrest
          obtain ⟨front, rest, rfl, hle, hout, hhigh⟩ := (ih used).mp hrest
          cases front with
          | nil =>
            -- a backslash behind a backslash is an escape and not the start of one
            cases hescape
            cases hle
          | cons c front =>
            rw [textEscape_append] at hescape
            exact ⟨byteOf '\\' :: c :: front, rest, rfl, Nat.zero_le _,
              unescapeFrom_ok_iff.mpr ⟨v, used, hescape, hout⟩, hhigh⟩
    · rintro ⟨front, rest, heq, -, hout, hhigh⟩
      cases front with
      | nil =>
        rw [List.nil_append, List.cons.injEq] at heq
        exact .inl (heq.2 ▸ hhigh)
      | cons c front =>
        rw [List.cons_append, List.cons.injEq] at heq
        obtain ⟨rfl, rfl⟩ := heq
        obtain ⟨v, used, hescape, hread⟩ := unescapeFrom_ok_iff.mp hout
        cases front with
        | nil => cases hescape
        | cons d front =>
          have hescape' := (textEscape_append d front rest).trans hescape
          rw [hescape']
          exact .inr ((ih used).mpr ⟨d :: front, rest, rfl, textEscape_le hescape, hread, hhigh⟩)
  | case4 b bs hb ih =>
    rw [unescapeOverflows, if_neg hb, ih]
    constructor
    · rintro ⟨front, rest, rfl, -, ⟨out, hout⟩, hhigh⟩
      refine ⟨b :: front, rest, rfl, Nat.zero_le _, ⟨b :: out, ?_⟩, hhigh⟩
      rw [unescapeFrom_plain hb, hout]
      rfl
    · rintro ⟨front, rest, heq, -, ⟨out, hout⟩, hhigh⟩
      cases front with
      | nil => exact absurd (List.cons.inj heq).1 hb
      | cons c front =>
        rw [List.cons_append, List.cons.injEq] at heq
        obtain ⟨rfl, rfl⟩ := heq
        rw [unescapeFrom_plain hb] at hout
        cases hrest : unescapeFrom 0 front with
        | error e =>
          rw [hrest] at hout
          cases hout
        | ok out' => exact ⟨front, rest, rfl, Nat.zero_le _, ⟨out', hrest⟩, hhigh⟩

/-! ## The text format -/

/-- What is written comes back, and no field makes `unescape_text` overflow. -/
theorem copy_text_iff (hdelim : Delimiter delim) (fields : List Bytes) (raw : Bytes) :
    (readFields delim (joinFields delim fields) = .ok fields ↔
        fields ≠ [] ∧ ∀ field ∈ fields, delim ∉ field) ∧
      (unescapeOverflows 0 raw = false ↔
        ∀ front rest, raw = front ++ byteOf '\\' :: rest →
          (∃ out, unescapeText front = .ok out) → highOctal rest = false) := by
  refine ⟨readFields_join_iff hdelim fields, ?_⟩
  rw [← Bool.not_eq_true, unescapeOverflows_iff]
  constructor
  · intro h front rest heq hout
    rw [← Bool.not_eq_true]
    exact fun hhigh => h ⟨front, rest, heq, Nat.zero_le _, hout, hhigh⟩
  · rintro h ⟨front, rest, heq, -, hout, hhigh⟩
    rw [h front rest heq hout] at hhigh
    cases hhigh

theorem delimiter_tab : Delimiter (byteOf '\t') :=
  ⟨by decide, by decide, by decide, by decide, by decide, by decide⟩

theorem copy_text_tab :
    readFields (byteOf '\t') (joinFields (byteOf '\t') [utf8 "a\\b", []]) = .ok [utf8 "a\\b", []] :=
  (copy_text_iff delimiter_tab [utf8 "a\\b", []] []).1.mpr ⟨by decide, by decide⟩

/-- A field with a tab is not read back, and `\400` does not fit a byte. -/
theorem copy_text_fails :
    (¬ ∀ (delim : UInt8) (fields : List Bytes), Delimiter delim →
        readFields delim (joinFields delim fields) = .ok fields) ∧
      ¬ ∀ raw, unescapeOverflows 0 raw = false := by
  constructor
  · intro h
    have hread := h (byteOf '\t') [utf8 "a\tb"] delimiter_tab
    exact absurd hread (by decide)
  · intro h
    exact absurd (h (utf8 "\\400")) (by decide)

end HenchDB
