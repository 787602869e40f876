import Mathlib.Tactic

/-!
# The Gregorian calendar

The proleptic Gregorian calendar by eras of 400 years whose years begin in March, so
that the leap day is the last day of its year.  A day of an era is a year with a day
of that year (`InYear`), and a day of a year is a month with a day of that month.
Both are found by division: `yearOfEra_eq` and `monthOfYear_eq`.
-/

namespace Calendar

def Leap (y : Int) : Prop := y % 4 = 0 ∧ y % 100 ≠ 0 ∨ y % 400 = 0

instance (y : Int) : Decidable (Leap y) := inferInstanceAs (Decidable (_ ∨ _))

def monthLength (y : Int) (m : Nat) : Nat :=
  if m = 2 then if Leap y then 29 else 28
  else if m = 4 ∨ m = 6 ∨ m = 9 ∨ m = 11 then 30
  else 31

/-- The day exists. -/
structure IsDate (y : Int) (m d : Nat) : Prop where
  month_pos : 1 ≤ m
  month_le : m ≤ 12
  day_pos : 1 ≤ d
  day_le : d ≤ monthLength y m

/-! ## Years of an era -/

def daysBefore (n : Nat) : Nat := 365 * n + n / 4 - n / 100

def InYear (n doy : Nat) : Prop := n < 400 ∧ (doy < 365 ∨ doy = 365 ∧ Leap (n + 1))

theorem exists_inYear {doe : Nat} (h : doe < 146097) :
    ∃ n doy, InYear n doy ∧ doe = daysBefore n + doy := by
  -- The fourth century has a day more, and the fourth year of four has one.
  obtain ⟨c, r, hc, hr, rfl⟩ : ∃ c r, c < 4 ∧ (r < 36524 ∨ r = 36524 ∧ c = 3) ∧ doe = 36524 * c + r := by
    rcases Nat.lt_or_ge doe (36524 * 4) with hlt | hge
    · exact ⟨doe / 36524, doe % 36524, by omega, .inl (by omega), by omega⟩
    · exact ⟨3, 36524, by omega, .inr ⟨rfl, rfl⟩, by omega⟩
  obtain ⟨q, s, hs, rfl⟩ : ∃ q s, s < 1461 ∧ r = 1461 * q + s :=
    ⟨r / 1461, r % 1461, Nat.mod_lt _ (by decide), (Nat.div_add_mod r 1461).symm⟩
  obtain ⟨k, doy, hk, hdoy, rfl⟩ : ∃ k doy, k < 4 ∧ (doy < 365 ∨ doy = 365 ∧ k = 3) ∧ s = 365 * k + doy := by
    rcases Nat.lt_or_ge s 1460 with hlt | hge
    · exact ⟨s / 365, s % 365, by omega, .inl (by omega), by omega⟩
    · exact ⟨3, 365, by omega, .inr ⟨rfl, rfl⟩, by omega⟩
  refine ⟨100 * c + 4 * q + k, doy, ⟨by omega, ?_⟩, ?_⟩
  · rcases hdoy with hdoy | ⟨rfl, rfl⟩
    · exact .inl hdoy
    · refine .inr ⟨rfl, ?_⟩
      rw [Leap]
      omega
  · have hq : q ≤ 24 := by omega
    have hfours : (100 * c + 4 * q + k) / 4 = 25 * c + q := by omega
    have hcenturies : (100 * c + 4 * q + k) / 100 = c := by omega
    rw [daysBefore, hfours, hcenturies]
    omega

variable {n doy mp : Nat} {y : Int}

theorem inYear_iff : InYear n doy ↔
    n < 400 ∧ (doy < 365 ∨ doy = 365 ∧ (n % 4 = 3 ∧ n % 100 ≠ 99 ∨ n = 399)) := by
  rw [InYear, Leap]
  omega

theorem daysBefore_add_lt (h : InYear n doy) : daysBefore n + doy < 146097 := by
  obtain ⟨hn, hdoy⟩ := inYear_iff.mp h
  rw [daysBefore]
  omega

theorem yearOfEra_eq {doe : Nat} (h : InYear n doy) (hdoe : doe = daysBefore n + doy) :
    (doe - doe / 1460 + doe / 36524 - doe / 146096) / 365 = n := by
  obtain ⟨hn, hdoy⟩ := inYear_iff.mp h
  rw [daysBefore] at hdoe
  -- The quotients are the counts of leap years up to the day, and at most one more.
  have hcentury : n / 100 = 0 ∨ n / 100 = 1 ∨ n / 100 = 2 ∨ n / 100 = 3 := by omega
  have hcenturies : doe / 36524 = n / 100 ∨ doe / 36524 = 4 := by
    rcases hcentury with hc | hc | hc | hc <;> omega
  have hera : doe / 146096 = if doe = 146096 then 1 else 0 := by
    split <;> omega
  have hfours : doe / 1460 = n / 4 ∨ doe / 1460 = n / 4 + 1 := by omega
  rcases hcentury with hc | hc | hc | hc <;> rcases hfours with hf | hf <;>
    rcases hcenturies with hs | hs <;> split at hera <;> omega

/-! ## Months of a year -/

/-- The days of a year before a month; March is the month 0. -/
def monthStart (mp : Nat) : Nat := (153 * mp + 2) / 5

/-- The civil month, and how many years after its March it lies. -/
def civilMonth (mp : Nat) : Nat := if mp < 10 then mp + 3 else mp - 9

theorem monthStart_le (doy : Nat) : monthStart ((5 * doy + 2) / 153) ≤ doy := by
  rw [monthStart]
  omega

theorem monthOfYear_eq {d : Nat} (hmp : mp < 12) (hpos : 1 ≤ d)
    (hd : d ≤ monthLength y (civilMonth mp)) : (5 * (monthStart mp + d - 1) + 2) / 153 = mp := by
  rw [monthStart]
  interval_cases mp <;> simp [monthLength, civilMonth] at hd <;> (try split at hd) <;> omega

theorem inYear_of_isDate {d : Nat} (hn : n < 400) (hmp : mp < 12) (hpos : 1 ≤ d)
    (hd : d ≤ monthLength y (civilMonth mp)) (hy : mp = 11 → (y - (n + 1)) % 400 = 0) :
    InYear n (monthStart mp + d - 1) := by
  refine ⟨hn, ?_⟩
  rw [monthStart, Leap]
  interval_cases mp <;> simp [monthLength, civilMonth, Leap] at hd hy <;> (try split at hd) <;> omega

theorem isDate_of_inYear (h : InYear n doy) (hmp : mp = (5 * doy + 2) / 153)
    (hy : mp = 11 → (y - (n + 1)) % 400 = 0) :
    mp < 12 ∧ IsDate y (civilMonth mp) (doy - monthStart mp + 1) := by
  obtain ⟨hn, hdoy⟩ := h
  have hlt : mp < 12 := by omega
  refine ⟨hlt, ?_, ?_, by omega, ?_⟩
  · rw [civilMonth]
    split <;> omega
  · rw [civilMonth]
    split <;> omega
  · rw [monthStart]
    rw [Leap] at hdoy
    interval_cases mp <;> simp [monthLength, civilMonth, Leap] at hy ⊢ <;> (try split) <;> omega

end Calendar
