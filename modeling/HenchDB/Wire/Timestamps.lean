import HenchDB.Lib.Machine
import HenchDB.Sql.DatetimeText
import HenchDB.Wire.Extended

/-!
# Timestamps that 64 bits do not count

The arithmetic of the places where a timestamp enters or leaves the database, with
every result as the machine integer of the source: texts, the columns of a row, and
binary parameters and results.  None of them checks the range.  The value is computed
within its width just if the text, the number of seconds, the parameter or the result
is within the bounds of `timestamps_fit_iff`.
-/

namespace HenchDB

open Machine

namespace Timestamps

/-! ## Texts -/

def ymdToDays (year : Int) (month day : Nat) : Noted Int := do
  let y ← i64 (year - if month ≤ 2 then 1 else 0)
  let floor ← i64 (if 0 ≤ y then y else y - 399)
  let era ← i64 (floor.tdiv 400)
  let first ← i64 (era * 400)
  let yoe ← i64 (y - first)
  let yoe ← u32 yoe
  let m ← u32 (month + if 2 < month then 0 else 12)
  let mp ← u32 (m - 3)
  let doy ← u32 (153 * mp)
  let doy ← u32 (doy + 2)
  let doy ← u32 (doy / 5 + day)
  let doy ← u32 (doy - 1)
  let doe ← u32 (yoe * 365)
  let doe ← u32 (doe + yoe / 4)
  let doe ← u32 (doe - yoe / 100)
  let doe ← u32 (doe + doy)
  let days ← i64 (era * 146097)
  let days ← i64 (days + doe)
  i64 (days - 719468)

/-- `val *= 10`, as often as digits are missing. -/
def scaleUp : Nat → Int → Noted Int
  | 0, val => pure val
  | k + 1, val => do scaleUp k (← u32 (val * 10))

/-- The fraction of a second as microseconds. -/
def micros (s : List Char) : Noted (Option Nat) :=
  match DateTime.parseU32 s with
  | none => pure none
  | some n =>
    let len := (String.ofList s).utf8ByteSize
    if len < 6 then do return some (← scaleUp (6 - len) n).toNat
    else pure (some (n / 10 ^ (len - 6)))

/-- The seconds of a time of day and their fraction. -/
def parseSeconds (s : List Char) : Noted (Option (Nat × Nat)) :=
  match s.splitOn '.' with
  | [sec, frac] =>
    match DateTime.parseU32 sec with
    | none => pure none
    | some sec => do return (← micros frac).map fun us => (sec, us)
  | sec :: _ => pure ((DateTime.parseU32 sec).map fun sec => (sec, 0))
  | [] => pure none

/-- Hour, minute, second and microseconds. -/
def parseTime (s : List Char) : Noted (Option (Nat × Nat × Nat × Nat)) :=
  match s.splitOn ':' with
  | [h, m, s] =>
    match DateTime.parseU32 h, DateTime.parseU32 m with
    | some h, some m => do return (← parseSeconds s).map fun s => (h, m, s)
    | _, _ => pure none
  | _ => pure none

/-- The microseconds since 1970 of the numbers of a text. -/
def count (f : DateTime.Fields) : Noted Int64 := do
  let days ← ymdToDays f.year f.month f.day
  let days ← i64 (days * 86400)
  let hours ← i64 (f.hour * 3600)
  let mins ← i64 (f.min * 60)
  let secs ← i64 (days + hours)
  let secs ← i64 (secs + mins)
  let secs ← i64 (secs + f.sec)
  let micros ← i64 (secs * 1000000)
  let micros ← i64 (micros + f.micro)
  return Int64.ofInt micros

/-- The end of `parse_datetime_str`. -/
def ofParts (date : List Char) (time : Noted (Option (Nat × Nat × Nat × Nat))) :
    Noted (Option Int64) :=
  match date.splitOn '-' with
  | [year, month, day] =>
    match DateTime.parseI32 year, DateTime.parseU32 month, DateTime.parseU32 day with
    | some year, some month, some day => do
      match ← time with
      | none => return none
      | some (hour, min, sec, micro) =>
        if month = 0 ∨ 12 < month ∨ day = 0 ∨ 31 < day ∨ 24 ≤ hour ∨ 60 ≤ min ∨ 60 ≤ sec then
          return none
        else return some (← count { year, month, day, hour, min, sec, micro })
    | _, _, _ => pure none
  | _ => pure none

def parseDatetimeStr (s : String) : Noted (Option Int64) :=
  match DateTime.words s.toList with
  | [date] => ofParts date (pure (some (0, 0, 0, 0)))
  | [date, time] => ofParts date (parseTime time)
  | _ => pure none

/-- No day number of a year of 32 bits leaves its width. -/
theorem ymdToDays_eq {year : Int} {month day : Nat} (hyear : -2 ^ 31 ≤ year ∧ year < 2 ^ 31)
    (hmonth : 1 ≤ month ∧ month ≤ 12) (hday : 1 ≤ day ∧ day ≤ 31) :
    ymdToDays year month day = pure (DateTime.ymdToDays year month day) := by
  have hfloor : ∀ y : Int, (if 0 ≤ y then y else y - 399).tdiv 400 = y / 400 :=
    DateTime.tdiv_floor (k := 400) (by decide)
  have hshift : ((month + if 2 < month then 0 else 12 : Nat) : Int) =
      month + if 2 < month then 0 else 12 := by split <;> rfl
  rw [ymdToDays, DateTime.ymdToDays, ← hshift]
  generalize hy : year - (if month ≤ 2 then 1 else 0 : Int) = y
  generalize hm : (month + if 2 < month then 0 else 12) = m
  have hy' : -2 ^ 31 - 1 ≤ y ∧ y < 2 ^ 31 := by split at hy <;> omega
  have hm' : 3 ≤ m ∧ m ≤ 14 := by split at hm <;> omega
  clear hy hm hshift hyear hmonth
  rw [bind_i64 (by rw [InI64]; omega), bind_i64 (by rw [InI64]; split <;> omega), hfloor]
  have hyoe : 0 ≤ y - y / 400 * 400 ∧ y - y / 400 * 400 < 400 := by omega
  have hera : -5368710 ≤ y / 400 ∧ y / 400 ≤ 5368709 := by omega
  rw [bind_i64 (by rw [InI64]; omega), bind_i64 (by rw [InI64]; omega),
    bind_i64 (by rw [InI64]; omega), bind_u32 (by rw [InU32]; omega)]
  generalize hn : (y - y / 400 * 400).toNat = n
  have hn' : y - y / 400 * 400 = n := by omega
  rw [hn']
  generalize y / 400 = era at hera
  have hdoy : 0 ≤ (153 * (m - 3) + 2) / 5 + day - 1 ∧ (153 * (m - 3) + 2) / 5 + day - 1 < 400 := by
    omega
  rw [bind_u32 (by rw [InU32]; omega), bind_u32 (by rw [InU32]; omega),
    bind_u32 (by rw [InU32]; omega), bind_u32 (by rw [InU32]; omega),
    bind_u32 (by rw [InU32]; omega), bind_u32 (by rw [InU32]; omega),
    bind_u32 (by rw [InU32]; omega), bind_u32 (by rw [InU32]; omega),
    bind_u32 (by rw [InU32]; omega), bind_u32 (by rw [InU32]; omega),
    bind_i64 (by rw [InI64]; omega), bind_i64 (by rw [InI64]; omega),
    i64_of_fits (by rw [InI64]; omega)]
  congr 1
  omega

theorem scaleUp_eq : ∀ {k n : Nat}, 10 ^ k * n < 2 ^ 32 →
    scaleUp k n = pure ((10 ^ k * n : Nat) : Int)
  | 0, n, _ => by simp [scaleUp]
  | k + 1, n, h => by
    have hstep : 10 ^ (k + 1) * n = 10 ^ k * (n * 10) := by ring
    have hfits : InU32 ((n : Int) * 10) := by
      have hle : n * 10 ≤ 10 ^ k * (n * 10) := Nat.le_mul_of_pos_left _ (Nat.pow_pos (by decide))
      rw [InU32]
      omega
    rw [hstep] at h ⊢
    rw [scaleUp, bind_u32 hfits]
    exact_mod_cast scaleUp_eq h

/-- The fraction never leaves 32 bits. -/
theorem micros_eq (s : List Char) : micros s = pure (DateTime.micros s) := by
  rw [micros, DateTime.micros]
  cases hn : DateTime.parseU32 s with
  | none => rfl
  | some n =>
    dsimp only [Option.map_some]
    split
    · next hshort =>
      have hn' : n < 10 ^ (String.ofList s).utf8ByteSize :=
        (DateTime.parseU32_lt hn).2.trans_le
          (Nat.pow_le_pow_right (by decide) (DateTime.length_le_utf8ByteSize s))
      have hfits : 10 ^ (6 - (String.ofList s).utf8ByteSize) * n < 2 ^ 32 := by
        calc 10 ^ (6 - (String.ofList s).utf8ByteSize) * n
            < 10 ^ (6 - (String.ofList s).utf8ByteSize) *
                10 ^ (String.ofList s).utf8ByteSize :=
              Nat.mul_lt_mul_of_pos_left hn' (Nat.pow_pos (by decide))
          _ = 1000000 := by rw [← pow_add, Nat.sub_add_cancel hshort.le]; rfl
          _ < 2 ^ 32 := by decide
      rw [scaleUp_eq hfits, Noted.pure_bind, Int.toNat_natCast, Nat.mod_eq_of_lt hfits]
    · rfl

theorem parseSeconds_eq (s : List Char) : parseSeconds s = pure (DateTime.parseSeconds s) := by
  rw [parseSeconds, DateTime.parseSeconds]
  generalize s.splitOn '.' = parts
  rcases parts with _ | ⟨sec, _ | ⟨frac, _ | ⟨_, _⟩⟩⟩
  case cons.cons.nil =>
    dsimp only
    rw [micros_eq]
    cases DateTime.parseU32 sec with
    | none => rfl
    | some sec => cases DateTime.micros frac <;> rfl
  all_goals rfl

theorem parseTime_eq (s : List Char) : parseTime s = pure (DateTime.parseTime s) := by
  rw [parseTime, DateTime.parseTime]
  generalize s.splitOn ':' = parts
  rcases parts with _ | ⟨h, _ | ⟨m, _ | ⟨s, _ | ⟨_, _⟩⟩⟩⟩
  case cons.cons.cons.nil =>
    dsimp only
    rw [parseSeconds_eq]
    cases DateTime.parseU32 h with
    | none => rfl
    | some h =>
    cases DateTime.parseU32 m with
    | none => rfl
    | some m => cases DateTime.parseSeconds s <;> rfl
  all_goals rfl

/-- The parts of a split text are without the separator. -/
theorem not_mem_of_mem_splitOn {c : Char} : ∀ {s l : List Char}, l ∈ s.splitOn c → c ∉ l
  | [], l, h => by
    cases List.mem_singleton.mp h
    exact List.not_mem_nil
  | d :: s, l, h => by
    rw [List.splitOn_cons_eq_if_modifyHead] at h
    split at h
    · rcases List.mem_cons.mp h with rfl | h
      · exact List.not_mem_nil
      · exact not_mem_of_mem_splitOn h
    · next hd =>
      obtain ⟨head, tail, hparts⟩ := List.exists_cons_of_ne_nil (List.splitOn_ne_nil c s)
      have hin : ∀ l ∈ head :: tail, c ∉ l :=
        fun l hl => not_mem_of_mem_splitOn (by rwa [hparts])
      rw [hparts, List.modifyHead_cons] at h
      rcases List.mem_cons.mp h with rfl | h
      · rw [List.mem_cons]
        rintro (rfl | hmem)
        · exact hd (beq_self_eq_true _)
        · exact hin head (List.mem_cons_self ..) hmem
      · exact hin l (List.mem_cons_of_mem _ h)

/-- A number without a sign is not negative. -/
theorem parseI32_bounds {s : List Char} {n : Int} (hsign : '-' ∉ s)
    (h : DateTime.parseI32 s = some n) : 0 ≤ n ∧ n < 2 ^ 31 := by
  obtain ⟨hn, hlt⟩ := Option.filter_eq_some_iff.mp h
  refine ⟨?_, (of_decide_eq_true hlt).2⟩
  split at hn
  · obtain ⟨m, -, rfl⟩ := Option.map_eq_some_iff.mp hn
    exact Int.natCast_nonneg m
  · exact absurd (List.mem_cons_self ..) hsign
  · obtain ⟨m, -, rfl⟩ := Option.map_eq_some_iff.mp hn
    exact Int.natCast_nonneg m

theorem partFields_year {date : List Char} {time : Option (Nat × Nat × Nat × Nat)}
    {f : DateTime.Fields} (h : DateTime.partFields date time = some f) :
    0 ≤ f.year ∧ f.year < 2 ^ 31 := by
  rw [DateTime.partFields] at h
  split at h
  · next year month day hparts =>
    obtain ⟨y, hy, h⟩ := Option.bind_eq_some_iff.mp h
    obtain ⟨m, -, h⟩ := Option.bind_eq_some_iff.mp h
    obtain ⟨d, -, h⟩ := Option.bind_eq_some_iff.mp h
    obtain ⟨t, -, h⟩ := Option.bind_eq_some_iff.mp h
    have hsign : '-' ∉ year := not_mem_of_mem_splitOn (s := date) (by rw [hparts]; simp)
    dsimp only at h
    split at h
    · cases h
    · cases h
      exact parseI32_bounds hsign hy
  · cases h

theorem fields_year {s : String} {f : DateTime.Fields} (h : DateTime.fields s = some f) :
    0 ≤ f.year ∧ f.year < 2 ^ 31 := by
  rw [DateTime.fields] at h
  split at h
  · exact partFields_year h
  · exact partFields_year h
  · cases h

theorem ofParts_eq (date : List Char) (time : Option (Nat × Nat × Nat × Nat)) :
    ofParts date (pure time) = match DateTime.partFields date time with
      | none => pure none
      | some f => do return some (← count f) := by
  rw [ofParts, DateTime.partFields]
  generalize date.splitOn '-' = parts
  rcases parts with _ | ⟨year, _ | ⟨month, _ | ⟨day, _ | ⟨_, _⟩⟩⟩⟩
  case cons.cons.cons.nil =>
    dsimp only
    cases DateTime.parseI32 year with
    | none => rfl
    | some y =>
    cases DateTime.parseU32 month with
    | none => rfl
    | some m =>
    cases DateTime.parseU32 day with
    | none => rfl
    | some d =>
    cases time with
    | none => rfl
    | some time =>
      obtain ⟨hour, min, sec, micro⟩ := time
      simp only [Option.bind_eq_bind, Option.bind_some, Noted.pure_bind]
      split
      · rfl
      · rfl
  all_goals rfl

theorem parseDatetimeStr_eq (s : String) :
    parseDatetimeStr s = match DateTime.fields s with
      | none => pure none
      | some f => do return some (← count f) := by
  rw [parseDatetimeStr, DateTime.fields]
  generalize DateTime.words s.toList = parts
  rcases parts with _ | ⟨date, _ | ⟨time, _ | ⟨_, _⟩⟩⟩
  · rfl
  · exact ofParts_eq _ _
  · dsimp only
    rw [parseTime_eq]
    exact ofParts_eq _ _
  · rfl

/-- The last product is the first number that may be too large. -/
theorem count_spec {f : DateTime.Fields} (h : f.Accepted) (hyear : 0 ≤ f.year ∧ f.year < 2 ^ 31) :
    (count f).value = Int64.ofInt f.micros ∧ ((count f).fits = true ↔ f.InRange) := by
  obtain ⟨n, mp, era, hn, hmp, hmonth, hyear', hdays⟩ := h.split
  have hbounds : -720000 ≤ DateTime.ymdToDays f.year f.month f.day ∧
      DateTime.ymdToDays f.year f.month f.day < 2 ^ 40 := by
    have hpos := h.day_pos
    have hle := h.day_le
    rw [hdays]
    split at hmonth <;> split at hyear' <;> omega
  rw [← h.fits_iff, count, ymdToDays_eq ⟨by omega, hyear.2⟩ ⟨h.month_pos, h.month_le⟩
    ⟨h.day_pos, h.day_le⟩, Noted.pure_bind, DateTime.Fields.micros, DateTime.Fields.tod]
  obtain ⟨-, -, -, -, hhour, hmin, hsec, hmicro⟩ := h
  generalize DateTime.ymdToDays f.year f.month f.day = days at hbounds
  rw [bind_i64 (by rw [InI64]; omega), bind_i64 (by rw [InI64]; omega),
    bind_i64 (by rw [InI64]; omega), bind_i64 (by rw [InI64]; omega),
    bind_i64 (by rw [InI64]; omega), bind_i64 (by rw [InI64]; omega)]
  generalize hsecs : days * 86400 + f.hour * 3600 + f.min * 60 + f.sec = secs
  have htotal : days * 86400000000 + ((f.hour * 3600 + f.min * 60 + f.sec) * 1000000 + f.micro) =
      secs * 1000000 + f.micro := by
    rw [← hsecs]
    ring
  rw [htotal]
  simp only [Noted.value_bind, Noted.value_pure, Noted.fits_bind, Noted.fits_pure, Bool.and_true,
    Bool.and_eq_true, fits_i64, value_i64, ofInt_bmod]
  refine ⟨ofInt_i64_add _ _, ?_⟩
  by_cases hprod : InI64 (secs * 1000000)
  · have hvalue := congrArg Noted.value (i64_of_fits hprod)
    rw [value_i64, Noted.value_pure] at hvalue
    rw [hvalue]
    exact and_iff_right hprod
  · refine iff_of_false (fun h => hprod h.1) fun h => hprod ?_
    rw [InI64]
    omega

theorem value_parseDatetimeStr (s : String) :
    (parseDatetimeStr s).value = HenchDB.parseDatetimeStr s := by
  rw [parseDatetimeStr_eq, DateTime.parseDatetimeStr_eq]
  cases hf : DateTime.fields s with
  | none => rfl
  | some f => exact congrArg some (count_spec (DateTime.fields_accepted hf) (fields_year hf)).1

theorem parseDatetimeStr_fits_iff (s : String) :
    (parseDatetimeStr s).fits = true ↔ ∀ f, DateTime.fields s = some f → f.InRange := by
  rw [parseDatetimeStr_eq]
  cases hf : DateTime.fields s with
  | none => exact iff_of_true rfl fun f h => by cases h
  | some f =>
    have hcount := (count_spec (DateTime.fields_accepted hf) (fields_year hf)).2
    simp only [Noted.fits_bind, Noted.fits_pure, Bool.and_true, Option.some.injEq, forall_eq',
      hcount]

/-! ## Columns -/

/-- The conversions of `validate_row`. -/
def coerce : ColumnType → Datum → Noted Datum
  | .dateTime, d | .timestamp, d =>
    match d with
    | .text s => do return (← parseDatetimeStr s).elim (.text s) Datum.dateTime
    | .int sec => do return .dateTime (Int64.ofInt (← i64 (sec.toInt * 1000000)))
    | d => pure d
  | t, d => pure (t.coerce d)

/-- A value that is not `NULL`, or the default. -/
def admitValue (c : ColumnDef) (d : Datum) : Noted (Except Error Datum) := do
  let d ← coerce c.ctype d
  return if c.ctype.accepts d then .ok d else .error (.typeMismatch c.ctype.name d.typeName)

/-- The loop body of `validate_row`. -/
def normalize (c : ColumnDef) (d : Datum) : Noted (Except Error Datum) :=
  match d with
  | .null =>
    match c.defaultValue with
    | some v => admitValue c v
    | none => pure (if c.nullable then .ok .null else .error (.notNullViolation c.name))
  | d => admitValue c d

/-- `DATETIME` and `TIMESTAMP`. -/
def IsTime (t : ColumnType) : Prop := t = .dateTime ∨ t = .timestamp

/-- The microseconds that a value denotes are counted by 64 bits. -/
def Timely : Datum → Prop
  | .text s => ∃ f, DateTime.fields s = some f ∧ f.InRange
  | .int sec => -9223372036854 ≤ sec.toInt ∧ sec.toInt ≤ 9223372036854
  | _ => True

theorem ofInt_mul_toInt (a : Int64) (k : Int) : Int64.ofInt (a.toInt * k) = a * Int64.ofInt k := by
  rw [Int64.ofInt_mul, Int64.ofInt_toInt]

theorem value_coerce (t : ColumnType) (d : Datum) : (coerce t d).value = t.coerce d := by
  have htext : ∀ s : String, ((parseDatetimeStr s).value.elim (.text s) Datum.dateTime) =
      (HenchDB.parseDatetimeStr s).elim (.text s) Datum.dateTime := by
    intro s
    rw [value_parseDatetimeStr]
  have hint : ∀ sec : Int64, Int64.ofInt (i64 (sec.toInt * 1000000)).value = sec * 1000000 := by
    intro sec
    rw [value_i64, ofInt_bmod, ofInt_mul_toInt]
    rfl
  cases t with
  | dateTime | timestamp =>
    cases d with
    | text s => exact htext s
    | int sec => exact congrArg Datum.dateTime (hint sec)
    | _ => rfl
  | _ => rfl

theorem value_admitValue (c : ColumnDef) (d : Datum) : (admitValue c d).value = c.admit d := by
  simp only [admitValue, ColumnDef.admit, Noted.value_bind, Noted.value_pure, value_coerce]

theorem value_normalize (c : ColumnDef) (d : Datum) : (normalize c d).value = c.normalize d := by
  cases d with
  | null =>
    rw [normalize, ColumnDef.normalize]
    cases c.defaultValue with
    | none => rfl
    | some v => exact value_admitValue c v
  | _ => exact value_admitValue c _

theorem coerce_time {t : ColumnType} (ht : IsTime t) (d : Datum) :
    coerce t d = coerce .dateTime d ∧ ∀ d, t.accepts d = ColumnType.dateTime.accepts d := by
  rcases ht with rfl | rfl
  · exact ⟨rfl, fun d => rfl⟩
  · exact ⟨by cases d <;> rfl, fun d => by cases d <;> rfl⟩

/-- A text is counted if it is one of a time; another text is kept. -/
theorem coerce_text (s : String) :
    (coerce .dateTime (.text s)).value = (HenchDB.parseDatetimeStr s).elim (.text s) .dateTime ∧
      (coerce .dateTime (.text s)).fits = (parseDatetimeStr s).fits := by
  refine ⟨value_coerce .dateTime (.text s), ?_⟩
  simp only [coerce, Noted.fits_bind, Noted.fits_pure, Bool.and_true]

theorem coerce_int (sec : Int64) :
    (∃ v, (coerce .dateTime (.int sec)).value = .dateTime v) ∧
      ((coerce .dateTime (.int sec)).fits = true ↔
        -9223372036854 ≤ sec.toInt ∧ sec.toInt ≤ 9223372036854) := by
  refine ⟨⟨_, rfl⟩, ?_⟩
  simp only [coerce, Noted.fits_bind, Noted.fits_pure, Bool.and_true, fits_i64, InI64]
  omega

/-- The value of a column is computed within its width, or rejected. -/
theorem normalize_fits_iff {c : ColumnDef} (hc : IsTime c.ctype) {d : Datum} (hd : d ≠ .null) :
    ((∃ e, (normalize c d).value = .error e) ∨
      (∃ v, (normalize c d).value = .ok (.dateTime v)) ∧ (normalize c d).fits = true) ↔
      Timely d := by
  have hadmitted : normalize c d = admitValue c d := by
    cases d with
    | null => exact absurd rfl hd
    | _ => rfl
  obtain ⟨hcoerce, haccepts⟩ := coerce_time hc d
  rw [hadmitted, admitValue, hcoerce]
  simp only [haccepts, Noted.value_bind, Noted.fits_bind, Noted.value_pure, Noted.fits_pure,
    Bool.and_true]
  cases d with
  | null => exact absurd rfl hd
  | float _ | bool _ => exact iff_of_true (.inl ⟨_, rfl⟩) trivial
  | dateTime v => exact iff_of_true (.inr ⟨⟨v, rfl⟩, rfl⟩) trivial
  | int sec =>
    obtain ⟨⟨v, hv⟩, hfits⟩ := coerce_int sec
    rw [hv, Timely, ← hfits]
    simp [ColumnType.accepts.eq_def]
  | text s =>
    obtain ⟨hv, hfits⟩ := coerce_text s
    rw [hv, hfits, parseDatetimeStr_fits_iff, DateTime.parseDatetimeStr_eq, Timely]
    cases hf : DateTime.fields s with
    | none => simp [ColumnType.accepts.eq_def]
    | some f => simp [ColumnType.accepts.eq_def]

theorem validateRow_fits_iff {schema : Schema} {row stored : List Datum}
    (h : schema.validateRow row = .ok stored) :
    (∀ (i : Nat) c d, schema.columns[i]? = some c → IsTime c.ctype →
      (schema.fillDefaults row)[i]? = some d → d ≠ .null →
        (∃ v, stored[i]? = some (.dateTime v)) ∧ (normalize c d).fits = true) ↔
    ∀ (i : Nat) c d, schema.columns[i]? = some c → IsTime c.ctype →
      (schema.fillDefaults row)[i]? = some d → d ≠ .null → Timely d := by
  obtain ⟨hwidth, hcolumn⟩ := Schema.validateRow_spec h
  refine forall_congr' fun i => forall_congr' fun c => forall_congr' fun d =>
    forall_congr' fun hc => forall_congr' fun ht => forall_congr' fun hd =>
      forall_congr' fun hnull => ?_
  obtain ⟨hi, -⟩ := List.getElem?_eq_some_iff.mp hc
  have hstored : stored[i]? = some (stored.get ⟨i, by omega⟩) := List.getElem?_eq_getElem _
  have hvalue := hcolumn i c d _ hc hd hstored
  rw [← normalize_fits_iff ht hnull, value_normalize, hvalue, hstored]
  simp

/-! ## Binary values -/

def decodeBinary (fl : PgFloats) (oid : Nat) (bytes : Bytes) : Noted (Except PgError Datum) :=
  let badLen : Except PgError Datum := .error ("22P03", s!"bad binary length for OID {oid}")
  match oid with
  | 1114 | 1184 =>
    if bytes.length = 8 then do
      let micros ← i64 ((beInt bytes).toInt + pgEpochMicros.toInt)
      return .ok (.dateTime (Int64.ofInt micros))
    else pure badLen
  | 1082 =>
    if bytes.length = 4 then do
      let days ← i64 ((beInt bytes).toInt * 86400000000)
      let micros ← i64 (days + pgEpochMicros.toInt)
      return .ok (.dateTime (Int64.ofInt micros))
    else pure badLen
  | oid => pure (HenchDB.decodeBinary fl oid bytes)

def encodeBinaryCell (fl : PgFloats) (d : Datum) (ctype : ColumnType) :
    Noted (Except String (Option Bytes)) :=
  match d with
  | .dateTime m => do
    let micros ← i64 (m.toInt - pgEpochMicros.toInt)
    return .ok (some (beBytes (Int64.ofInt micros).toUInt64.toNat))
  | d => pure (HenchDB.encodeBinaryCell fl d ctype)

theorem toInt_pgEpochMicros : pgEpochMicros.toInt = 946684800000000 := rfl

theorem decodeBinary_timestamp (fl : PgFloats) {oid : Nat} (h : oid = 1114 ∨ oid = 1184)
    (bytes : Bytes) :
    decodeBinary fl oid bytes =
      if bytes.length = 8 then do
        let micros ← i64 ((beInt bytes).toInt + 946684800000000)
        return .ok (.dateTime (Int64.ofInt micros))
      else pure (.error ("22P03", s!"bad binary length for OID {oid}")) := by
  rcases h with rfl | rfl
  · rfl
  · rfl

theorem decodeBinary_date (fl : PgFloats) (bytes : Bytes) :
    decodeBinary fl 1082 bytes =
      if bytes.length = 4 then do
        let days ← i64 ((beInt bytes).toInt * 86400000000)
        let micros ← i64 (days + 946684800000000)
        return .ok (.dateTime (Int64.ofInt micros))
      else pure (.error ("22P03", s!"bad binary length for OID {(1082 : Nat)}")) := rfl

/-- A parameter is rejected for its length only. -/
theorem decodeBinary_fits_iff (fl : PgFloats) {oid : Nat} (h : oid = 1114 ∨ oid = 1184)
    (bytes : Bytes) :
    ((∃ e, (decodeBinary fl oid bytes).value = .error e) ∨
      (decodeBinary fl oid bytes).fits = true) ↔
      (bytes.length = 8 → (beInt bytes).toInt ≤ 9222425352054775807) := by
  rw [decodeBinary_timestamp fl h]
  split
  · next hlen =>
    have hlow := (beInt bytes).le_toInt
    simp only [Noted.value_bind, Noted.value_pure, Noted.fits_bind, Noted.fits_pure,
      Bool.and_true, fits_i64, InI64, hlen, forall_true_left, reduceCtorEq, exists_false,
      false_or]
    omega
  · next hlen => exact iff_of_true (.inl ⟨_, rfl⟩) fun h => absurd h hlen

theorem decodeBinary_date_fits_iff (fl : PgFloats) (bytes : Bytes) :
    ((∃ e, (decodeBinary fl 1082 bytes).value = .error e) ∨
      (decodeBinary fl 1082 bytes).fits = true) ↔
      (bytes.length = 4 →
        -106751991 ≤ (beInt bytes).toInt ∧ (beInt bytes).toInt ≤ 106741034) := by
  rw [decodeBinary_date]
  split
  · next hlen =>
    simp only [Noted.value_bind, Noted.value_pure, Noted.fits_bind, Noted.fits_pure,
      Bool.and_true, Bool.and_eq_true, fits_i64, hlen, forall_true_left, reduceCtorEq,
      exists_false, false_or]
    by_cases hprod : InI64 ((beInt bytes).toInt * 86400000000)
    · have hvalue := congrArg Noted.value (i64_of_fits hprod)
      rw [Noted.value_pure] at hvalue
      rw [hvalue, InI64, InI64]
      omega
    · refine iff_of_false (fun h => hprod h.1) fun h => hprod ?_
      rw [InI64]
      omega
  · next hlen => exact iff_of_true (.inl ⟨_, rfl⟩) fun h => absurd h hlen

theorem encodeBinaryCell_fits_iff (fl : PgFloats) (m : Int64) (ctype : ColumnType) :
    (encodeBinaryCell fl (.dateTime m) ctype).fits = true ↔ -9222425352054775808 ≤ m.toInt := by
  have hhigh := m.toInt_lt
  simp only [encodeBinaryCell, Noted.fits_bind, Noted.fits_pure, Bool.and_true, fits_i64, InI64,
    toInt_pgEpochMicros]
  omega

/-! ## All places -/

/-- Where the arithmetic of a timestamp stays within its width, or the input is
rejected: for texts, for the values of a time column and of the time columns of a row
that is stored, for binary parameters and for binary results. -/
theorem timestamps_fit_iff (s : String) :
    (((parseDatetimeStr s).value = none ∨ (parseDatetimeStr s).fits = true) ↔
      ∀ f, DateTime.fields s = some f → f.InRange) ∧
    (∀ c : ColumnDef, IsTime c.ctype → ∀ d : Datum, d ≠ .null →
      (((∃ e, (normalize c d).value = .error e) ∨
        (∃ v, (normalize c d).value = .ok (.dateTime v)) ∧ (normalize c d).fits = true) ↔
        Timely d)) ∧
    (∀ (schema : Schema) (row stored : List Datum), schema.validateRow row = .ok stored →
      ((∀ (i : Nat) c d, schema.columns[i]? = some c → IsTime c.ctype →
        (schema.fillDefaults row)[i]? = some d → d ≠ .null →
          (∃ v, stored[i]? = some (.dateTime v)) ∧ (normalize c d).fits = true) ↔
        ∀ (i : Nat) c d, schema.columns[i]? = some c → IsTime c.ctype →
          (schema.fillDefaults row)[i]? = some d → d ≠ .null → Timely d)) ∧
    (∀ (fl : PgFloats) (oid : Nat), oid = 1114 ∨ oid = 1184 → ∀ bytes : Bytes,
      (((∃ e, (decodeBinary fl oid bytes).value = .error e) ∨
        (decodeBinary fl oid bytes).fits = true) ↔
        (bytes.length = 8 → (beInt bytes).toInt ≤ 9222425352054775807))) ∧
    (∀ (fl : PgFloats) (bytes : Bytes),
      ((∃ e, (decodeBinary fl 1082 bytes).value = .error e) ∨
        (decodeBinary fl 1082 bytes).fits = true) ↔
        (bytes.length = 4 →
          -106751991 ≤ (beInt bytes).toInt ∧ (beInt bytes).toInt ≤ 106741034)) ∧
    ∀ (fl : PgFloats) (m : Int64) (ctype : ColumnType),
      (encodeBinaryCell fl (.dateTime m) ctype).fits = true ↔ -9222425352054775808 ≤ m.toInt := by
  refine ⟨?_, fun c hc d hd => normalize_fits_iff hc hd,
    fun schema row stored h => validateRow_fits_iff h,
    fun fl oid h bytes => decodeBinary_fits_iff fl h bytes, decodeBinary_date_fits_iff,
    encodeBinaryCell_fits_iff⟩
  rw [← parseDatetimeStr_fits_iff]
  refine or_iff_right_of_imp fun hnone => ?_
  rw [value_parseDatetimeStr, DateTime.parseDatetimeStr_eq, Option.map_eq_none_iff] at hnone
  rw [parseDatetimeStr_fits_iff, hnone]
  exact fun f h => by cases h

/-- The last number of seconds that a column takes. -/
theorem last_second_fits :
    (∃ e, (normalize ⟨"at", .dateTime, false, false, none⟩ (.int 9223372036854)).value =
      .error e) ∨
    (∃ v, (normalize ⟨"at", .dateTime, false, false, none⟩ (.int 9223372036854)).value =
      .ok (.dateTime v)) ∧
      (normalize ⟨"at", .dateTime, false, false, none⟩ (.int 9223372036854)).fits = true :=
  ((timestamps_fit_iff "").2.1 ⟨"at", .dateTime, false, false, none⟩ (.inl rfl) (.int 9223372036854)
    (by decide)).mpr ⟨by decide, by decide⟩

/-- The next number of seconds is stored as a time of the past, and so is the year 300000. -/
theorem later_times_wrap :
    normalize ⟨"at", .dateTime, false, false, none⟩ (.int 9223372036855) =
      ⟨.ok (.dateTime (-9223372036854551616)), false⟩ ∧
    parseDatetimeStr "300000-01-01" = ⟨some (-9041825692909551616), false⟩ :=
  ⟨by decide, by decide +kernel⟩

end Timestamps
end HenchDB
