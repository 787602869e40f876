import HenchDB.Sql.Datetime

/-!
# Times are read as they are printed

The text of a moment is the text of its numbers (`toList_format`), and every field of
it is read back digit by digit (`fields_printed`): a moment of the years 0 to 9999 is
the value of its text (`parse_format`).  In the other direction a text shows its own
date once it is read just if the day exists and the moment fits
(`datetime_text_iff`).
-/

namespace HenchDB

open Calendar

namespace DateTime

/-! ## Numbers in a text -/

/-- `{n:0width}` of a number that is not negative. -/
def paddedDigits (width n : Nat) : List Char :=
  List.replicate (width - (Nat.toDigits 10 n).length) '0' ++ Nat.toDigits 10 n

theorem toList_pushn (s : String) (c : Char) (n : Nat) :
    (s.pushn c n).toList = s.toList ++ List.replicate n c := by
  rw [String.pushn_eq_repeat_push]
  induction n with
  | zero => exact (List.append_nil _).symm
  | succ n ih =>
    rw [Nat.repeat, String.toList_push, ih, List.append_assoc, List.replicate_succ']

theorem toList_padded (width n : Nat) : (padded width n).toList = paddedDigits width n := by
  have hneg : ¬ ((n : Int) < 0) := by omega
  have hdigits : (toString n).toList = Nat.toDigits 10 n := Nat.toList_repr
  rw [padded, if_neg hneg, paddedDigits, Int.natAbs_natCast, String.toList_append, toList_pushn,
    hdigits, ← String.length_toList, hdigits]
  rfl

variable {n : Nat} {c : Char} {s a b : List Char}

theorem isDigit_paddedDigits {width : Nat} : ∀ c ∈ paddedDigits width n, c.isDigit := by
  intro c hc
  rcases List.mem_append.mp hc with hc | hc
  · rw [(List.mem_replicate.mp hc).2]
    rfl
  · exact Nat.isDigit_of_mem_toDigits (by decide) (by decide) hc

theorem paddedDigits_ne_nil (width n : Nat) : paddedDigits width n ≠ [] :=
  List.append_ne_nil_of_right_ne_nil _ Nat.toDigits_ne_nil

theorem length_paddedDigits {width : Nat} (hpos : 0 < width) (h : n < 10 ^ width) :
    (paddedDigits width n).length = width := by
  have hle := (Nat.length_toDigits_le_iff (b := 10) (by decide) hpos).mpr h
  rw [paddedDigits, List.length_append, List.length_replicate]
  omega

theorem digits_paddedDigits (width n : Nat) : digits (paddedDigits width n) = some n := by
  refine digits_eq.mpr ⟨paddedDigits_ne_nil width n, isDigit_paddedDigits, ?_⟩
  rw [paddedDigits, Nat.ofDigitChars_append, Nat.ofDigitChars_replicate_zero, Nat.mul_zero,
    Nat.ofDigitChars_ten_toDigits]

/-- A text that begins with a sign has no value as digits. -/
theorem digits_sign (hc : c.isDigit = false) (s : List Char) : digits (c :: s) = none := by
  rw [digits, List.foldlM_cons, hc]
  rfl

theorem parseU32_of_digits (h : digits s = some n) (hlt : n < 2 ^ 32) :
    parseU32 s = some n := by
  rw [parseU32.eq_def]
  split
  · rw [digits_sign rfl] at h
    cases h
  · rw [h]
    exact Option.filter_some_pos (decide_eq_true hlt)

theorem parseI32_of_digits (h : digits s = some n) (hlt : n < 2 ^ 31) :
    parseI32 s = some (n : Int) := by
  rw [parseI32.eq_def]
  split
  · rw [digits_sign rfl] at h
    cases h
  · rw [digits_sign rfl] at h
    cases h
  · rw [h]
    exact Option.filter_some_pos (decide_eq_true ⟨by simp only [Int.ofNat_eq_natCast]; omega,
      by simp only [Int.ofNat_eq_natCast]; omega⟩)

theorem not_mem_of_digits (hc : c.isDigit = false) (h : ∀ c ∈ s, c.isDigit) : c ∉ s := by
  intro hmem
  rw [h c hmem] at hc
  cases hc

theorem utf8ByteSize_digits : ∀ {s : List Char}, (∀ c ∈ s, c.isDigit) →
    (String.ofList s).utf8ByteSize = s.length
  | [], _ => rfl
  | c :: s, h => by
    have hc : c.utf8Size = 1 := by
      have hdigit := h c (List.mem_cons_self ..)
      simp only [Char.isDigit, Bool.and_eq_true, decide_eq_true_eq, ge_iff_le] at hdigit
      have hle : c.val ≤ 127 := UInt32.le_trans hdigit.2 (by decide)
      exact Char.utf8Size_eq_one_iff.mpr hle
    have ih := utf8ByteSize_digits fun d hd => h d (List.mem_cons_of_mem _ hd)
    rw [utf8ByteSize_ofList] at ih ⊢
    rw [List.map_cons, List.sum_cons, hc, ih, List.length_cons, Nat.add_comm]

/-- A fraction of six digits is its number. -/
theorem micros_paddedDigits (h : n < 1000000) : micros (paddedDigits 6 n) = some n := by
  have hlen : (String.ofList (paddedDigits 6 n)).utf8ByteSize = 6 := by
    rw [utf8ByteSize_digits isDigit_paddedDigits, length_paddedDigits (by decide) h]
  have hparse := parseU32_of_digits (digits_paddedDigits 6 n) (h.trans (by decide))
  rw [micros, hparse]
  simp only [Option.map_some, hlen, Nat.lt_irrefl, if_false, Nat.sub_self, pow_zero, Nat.div_one]

/-! ## The text of a moment -/

/-- `a`, a character and `b`. -/
theorem splitOn_pair (ha : c ∉ a) (hb : c ∉ b) :
    (a ++ c :: b).splitOn c = [a, b] := by
  rw [List.splitOn_append_cons_self_of_not_mem ha, List.splitOn_eq_singleton hb]

theorem splitOn_triple {d : List Char} (ha : c ∉ a) (hb : c ∉ b) (hd : c ∉ d) :
    (a ++ c :: (b ++ c :: d)).splitOn c = [a, b, d] := by
  rw [List.splitOn_append_cons_self_of_not_mem ha, splitOn_pair hb hd]

theorem words_pair (ha : a ≠ []) (hb : b ≠ []) (hwhite : ∀ c ∈ a ++ b, isWhite c = false) :
    words (a ++ ' ' :: b) = [a, b] := by
  have hwhite' : (∀ c ∈ a, isWhite c = false) ∧ ∀ c ∈ b, isWhite c = false :=
    List.forall_mem_append.mp hwhite
  rw [words, List.splitOnP_append_cons_of_forall_mem hwhite'.1 ' ' rfl,
    List.splitOnP_eq_singleton hwhite'.2]
  simp [ha, hb]

namespace Fields

def dateText (f : Fields) : List Char :=
  paddedDigits 4 f.year.toNat ++ '-' :: (paddedDigits 2 f.month ++ '-' :: paddedDigits 2 f.day)

/-- The seconds as they are printed. -/
def secText (f : Fields) : List Char :=
  if 0 < f.micro then paddedDigits 2 f.sec ++ '.' :: paddedDigits 6 f.micro
  else paddedDigits 2 f.sec

def timeText (f : Fields) : List Char :=
  paddedDigits 2 f.hour ++ ':' :: (paddedDigits 2 f.min ++ ':' :: f.secText)

variable {f : Fields}

/-- The characters of the seconds. -/
theorem mem_secText {c : Char} (h : c ∈ f.secText) : c.isDigit ∨ c = '.' := by
  rw [secText] at h
  split at h
  · rcases List.mem_append.mp h with h | h
    · exact .inl (isDigit_paddedDigits c h)
    · rcases List.mem_cons.mp h with rfl | h
      · exact .inr rfl
      · exact .inl (isDigit_paddedDigits c h)
  · exact .inl (isDigit_paddedDigits c h)

theorem colon_notMem_secText : ':' ∉ f.secText := by
  intro hmem
  rcases mem_secText hmem with hdigit | hdot
  · cases hdigit
  · cases hdot

theorem parseSeconds_secText (h : f.Accepted) : parseSeconds f.secText = some (f.sec, f.micro) := by
  have hsec : parseU32 (paddedDigits 2 f.sec) = some f.sec :=
    parseU32_of_digits (digits_paddedDigits 2 f.sec) (h.sec.trans (by decide))
  have hdot : ∀ {w n : Nat}, '.' ∉ paddedDigits w n := not_mem_of_digits rfl isDigit_paddedDigits
  rw [parseSeconds, secText]
  split_ifs with hmicro
  · rw [splitOn_pair hdot hdot]
    simp only [hsec, micros_paddedDigits h.micro]
    rfl
  · rw [List.splitOn_eq_singleton hdot]
    simp only [hsec, Option.map_some, Nat.eq_zero_of_not_pos hmicro]

theorem parseTime_timeText (h : f.Accepted) :
    parseTime f.timeText = some (f.hour, f.min, f.sec, f.micro) := by
  have hcolon : ∀ {w n : Nat}, ':' ∉ paddedDigits w n := not_mem_of_digits rfl isDigit_paddedDigits
  have hhour : parseU32 (paddedDigits 2 f.hour) = some f.hour :=
    parseU32_of_digits (digits_paddedDigits 2 f.hour) (h.hour.trans (by decide))
  have hmin : parseU32 (paddedDigits 2 f.min) = some f.min :=
    parseU32_of_digits (digits_paddedDigits 2 f.min) (h.min.trans (by decide))
  rw [parseTime, timeText, splitOn_triple hcolon hcolon colon_notMem_secText]
  simp only [hhour, hmin, parseSeconds_secText h]
  rfl

theorem partFields_dateText (h : f.Accepted) (hyear : 0 ≤ f.year ∧ f.year ≤ 9999) :
    partFields f.dateText (some (f.hour, f.min, f.sec, f.micro)) = some f := by
  have hdash : ∀ {w n : Nat}, '-' ∉ paddedDigits w n := not_mem_of_digits rfl isDigit_paddedDigits
  have hy : parseI32 (paddedDigits 4 f.year.toNat) = some f.year := by
    rw [parseI32_of_digits (digits_paddedDigits 4 f.year.toNat) (by omega)]
    exact congrArg some (Int.toNat_of_nonneg hyear.1)
  have hm : parseU32 (paddedDigits 2 f.month) = some f.month :=
    parseU32_of_digits (digits_paddedDigits 2 f.month) (h.month_le.trans_lt (by decide))
  have hd : parseU32 (paddedDigits 2 f.day) = some f.day :=
    parseU32_of_digits (digits_paddedDigits 2 f.day) (h.day_le.trans_lt (by decide))
  have hpass : ¬ (f.month = 0 ∨ 12 < f.month ∨ f.day = 0 ∨ 31 < f.day ∨ 24 ≤ f.hour ∨
      60 ≤ f.min ∨ 60 ≤ f.sec) := by
    obtain ⟨hm0, hm1, hd0, hd1, hh, hmi, hs, -⟩ := h
    omega
  rw [partFields, dateText, splitOn_triple hdash hdash hdash]
  simp only [hy, hm, hd, Option.bind_eq_bind, Option.bind_some, if_neg hpass]
  rfl

theorem isWhite_digit {c : Char} (h : c.isDigit) : isWhite c = false := by
  simp only [Char.isDigit, Bool.and_eq_true, decide_eq_true_eq, ge_iff_le] at h
  have hlow : 48 ≤ c.toNat := h.1
  have hhigh : c.toNat ≤ 57 := h.2
  simp only [isWhite, Bool.or_eq_false_iff, Bool.and_eq_false_iff, decide_eq_false_iff_not]
  omega

theorem words_printed (f : Fields) :
    words (f.dateText ++ ' ' :: f.timeText) = [f.dateText, f.timeText] := by
  have hwhite : ∀ c ∈ f.dateText ++ f.timeText, isWhite c = false := by
    intro c hc
    simp only [dateText, timeText, List.mem_append, List.mem_cons] at hc
    have hpadded : ∀ {w n : Nat}, c ∈ paddedDigits w n → isWhite c = false :=
      fun hc => isWhite_digit (isDigit_paddedDigits c hc)
    rcases hc with (hc | rfl | hc | rfl | hc) | hc | rfl | hc | rfl | hc
    · exact hpadded hc
    · rfl
    · exact hpadded hc
    · rfl
    · exact hpadded hc
    · exact hpadded hc
    · rfl
    · exact hpadded hc
    · rfl
    · rcases mem_secText hc with hdigit | rfl
      · exact isWhite_digit hdigit
      · rfl
  have hdate : f.dateText ≠ [] := List.append_ne_nil_of_left_ne_nil (paddedDigits_ne_nil _ _) _
  have htime : f.timeText ≠ [] := List.append_ne_nil_of_left_ne_nil (paddedDigits_ne_nil _ _) _
  exact words_pair hdate htime hwhite

/-- The text of numbers is read as these numbers. -/
theorem fields_printed {s : String} (h : f.Accepted) (hyear : 0 ≤ f.year ∧ f.year ≤ 9999)
    (hs : s.toList = f.dateText ++ ' ' :: f.timeText) : fields s = some f := by
  rw [fields, hs, words_printed]
  simp only [parseTime_timeText h, partFields_dateText h hyear]

end Fields

/-- The numbers that `format_datetime_micros` prints. -/
def shown (t : Int64) : Fields :=
  { year := (dateOf t).1
    month := (dateOf t).2.1
    day := (dateOf t).2.2
    hour := ((t.toInt.ediv 1000000).emod 86400 / 3600).toNat
    min := ((t.toInt.ediv 1000000).emod 86400 % 3600 / 60).toNat
    sec := ((t.toInt.ediv 1000000).emod 86400 % 60).toNat
    micro := (t.toInt.emod 1000000).toNat }

theorem shown_accepted (t : Int64) : (shown t).Accepted := by
  obtain ⟨hmonth, hle, hday, hlen⟩ := (isDate_daysToYmd ((t.toInt.ediv 1000000).ediv 86400)).1
  have hshort : ∀ (y : Int) (m : Nat), monthLength y m ≤ 31 := by
    intro y m
    rw [monthLength]
    split_ifs <;> decide
  have hdiv : ∀ a b : Int, a.ediv b = a / b := fun _ _ => rfl
  have hmod : ∀ a b : Int, a.emod b = a % b := fun _ _ => rfl
  refine ⟨hmonth, hle, hday, hlen.trans (hshort _ _), ?_, ?_, ?_, ?_⟩ <;>
    simp only [shown, hdiv, hmod] <;> omega

theorem shown_micros (t : Int64) : (shown t).micros = t.toInt := by
  have hdays := (isDate_daysToYmd ((t.toInt.ediv 1000000).ediv 86400)).2
  have hdiv : ∀ a b : Int, a.ediv b = a / b := fun _ _ => rfl
  have hmod : ∀ a b : Int, a.emod b = a % b := fun _ _ => rfl
  rw [Fields.micros, Fields.tod]
  simp only [shown, dateOf]
  rw [hdays]
  simp only [hdiv, hmod]
  omega

theorem format_eq (t : Int64) : formatDatetimeMicros t =
    if 0 < t.toInt.emod 1000000 then
      padded 4 (dateOf t).1 ++ "-" ++ padded 2 (shown t).month ++ "-" ++ padded 2 (shown t).day ++
        " " ++ padded 2 (shown t).hour ++ ":" ++ padded 2 (shown t).min ++ ":" ++
        padded 2 (shown t).sec ++ "." ++ padded 6 (shown t).micro
    else
      padded 4 (dateOf t).1 ++ "-" ++ padded 2 (shown t).month ++ "-" ++ padded 2 (shown t).day ++
        " " ++ padded 2 (shown t).hour ++ ":" ++ padded 2 (shown t).min ++ ":" ++
        padded 2 (shown t).sec := by
  have htod : 0 ≤ (t.toInt.ediv 1000000).emod 86400 := Int.emod_nonneg _ (by decide)
  have hmicro : 0 ≤ t.toInt.emod 1000000 := Int.emod_nonneg _ (by decide)
  have hhour : ((shown t).hour : Int) = (t.toInt.ediv 1000000).emod 86400 / 3600 :=
    Int.toNat_of_nonneg (by omega)
  have hmin : ((shown t).min : Int) = (t.toInt.ediv 1000000).emod 86400 % 3600 / 60 :=
    Int.toNat_of_nonneg (by omega)
  have hsec : ((shown t).sec : Int) = (t.toInt.ediv 1000000).emod 86400 % 60 :=
    Int.toNat_of_nonneg (by omega)
  have hmic : ((shown t).micro : Int) = t.toInt.emod 1000000 := Int.toNat_of_nonneg hmicro
  rw [hhour, hmin, hsec, hmic]
  rfl

theorem toList_format {t : Int64} (h : 0 ≤ (dateOf t).1) :
    (formatDatetimeMicros t).toList = (shown t).dateText ++ ' ' :: (shown t).timeText := by
  have hyear : (padded 4 (dateOf t).1).toList = paddedDigits 4 (shown t).year.toNat := by
    rw [← toList_padded, shown, Int.toNat_of_nonneg h]
  have hmicro : 0 < t.toInt.emod 1000000 ↔ 0 < (shown t).micro := by
    rw [shown]
    exact Int.pos_iff_toNat_pos
  rw [format_eq, Fields.dateText, Fields.timeText, Fields.secText]
  split_ifs with hpos hpos' hpos'
  · simp [toList_padded, hyear]
  · exact absurd (hmicro.mp hpos) hpos'
  · exact absurd (hmicro.mpr hpos') hpos
  · simp [toList_padded, hyear]

/-- A moment of the years 0 to 9999 is the value of its text. -/
theorem parse_format {t : Int64} (h : 0 ≤ (dateOf t).1 ∧ (dateOf t).1 ≤ 9999) :
    parseDatetimeStr (formatDatetimeMicros t) = some t := by
  rw [parseDatetimeStr_eq, Fields.fields_printed (shown_accepted t) h (toList_format h.1),
    Option.map_some, shown_micros, Int64.ofInt_toInt]

/-! ## What is shown of a text -/

/-- Moments of the years 0 to 9999 are read as they are printed; and a text that is
accepted denotes a day that exists and is shown with it just if the day is not beyond
the end of its month and the moment is not beyond those that 64 bits count. -/
theorem datetime_text_iff (t : Int64) (s : String) :
    (0 ≤ (dateOf t).1 ∧ (dateOf t).1 ≤ 9999 →
      parseDatetimeStr (formatDatetimeMicros t) = some t) ∧
    ∀ f : Fields, fields s = some f →
      ((IsDate f.year f.month f.day ∧ ∃ v, parseDatetimeStr s = some v ∧
          dateOf v = (f.year, f.month, f.day)) ↔
        f.day ≤ monthLength f.year f.month ∧ f.InRange) := by
  refine ⟨parse_format, fun f hf => ?_⟩
  have hparse : parseDatetimeStr s = some (Int64.ofInt f.micros) := by
    rw [parseDatetimeStr_eq, hf, Option.map_some]
  rw [← (fields_accepted hf).shows_iff, hparse]
  simp

theorem leap_day_is_shown :
    parseDatetimeStr (formatDatetimeMicros 0) = some 0 ∧
    IsDate 2024 2 29 ∧ ∃ v, parseDatetimeStr "2024-02-29" = some v ∧ dateOf v = (2024, 2, 29) :=
  ⟨(datetime_text_iff 0 "2024-02-29").1 (by decide),
    ((datetime_text_iff 0 "2024-02-29").2 ⟨2024, 2, 29, 0, 0, 0, 0⟩ (by decide)).mpr
      ⟨by decide, by decide, by decide⟩⟩

/-- The 31st of February is accepted, and shown as the third of March. -/
theorem absent_day_is_moved :
    fields "2023-02-31" = some ⟨2023, 2, 31, 0, 0, 0, 0⟩ ∧ ¬ IsDate 2023 2 31 ∧
      parseDatetimeStr "2023-02-31" = some 1677801600000000 ∧
      formatDatetimeMicros 1677801600000000 = "2023-03-03 00:00:00" :=
  ⟨by decide, fun h => absurd h.day_le (by decide), by decide, by decide⟩

end DateTime
end HenchDB
