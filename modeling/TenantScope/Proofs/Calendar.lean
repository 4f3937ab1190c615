import Mathlib.Order.Monotone.Basic
import Mathlib.Tactic.IntervalCases
import Mathlib.Tactic.SplitIfs
import TenantScope.Audit.Timestamp

/-!
# The Gregorian calendar

A year has 365 days, or 366 if it is a leap year, and each month has a length of its own.
Days are counted by adding up the years and months that have passed since the beginning of
1970.  This count undoes the conversion of day numbers into dates, which goes by cycles of 400
years that begin in March.
-/

namespace TenantScope

namespace Date

/-! ## Counting days -/

/-- Every fourth year is a leap year, but of the full centuries only every fourth one. -/
def IsLeap (year : Int) : Prop :=
  year % 4 = 0 ∧ (year % 100 = 0 → year % 400 = 0)

instance (year : Int) : Decidable (IsLeap year) :=
  inferInstanceAs (Decidable (_ ∧ _))

def yearLength (year : Int) : Nat :=
  if IsLeap year then 366 else 365

def monthLength (year : Int) : (month : Nat) → Nat
  | 2 => if IsLeap year then 29 else 28
  | 4 | 6 | 9 | 11 => 30
  | _ => 31

theorem monthLength_le (year : Int) (month : Nat) : monthLength year month ≤ 31 := by
  unfold monthLength
  split <;> (try split) <;> decide

/-- Number of days of the given number of years from 1970 on. -/
def daysOfYears : (years : Nat) → Nat
  | 0 => 0
  | years + 1 => daysOfYears years + yearLength (1970 + years)

/-- Number of days of the given number of months from the beginning of a year on. -/
def daysOfMonths (year : Int) : (months : Nat) → Nat
  | 0 => 0
  | months + 1 => daysOfMonths year months + monthLength year (months + 1)

/-- Number of days from 1970-01-01 to a later day. -/
def count (date : Date) : Nat :=
  daysOfYears (date.year - 1970).toNat + daysOfMonths date.year (date.month - 1) + (date.day - 1)

/-- The calendar has the day. -/
structure InCalendar (date : Date) : Prop where
  month_pos : 1 ≤ date.month
  month_le : date.month ≤ 12
  day_pos : 1 ≤ date.day
  day_le : date.day ≤ monthLength date.year date.month

instance (date : Date) : Decidable date.InCalendar :=
  decidable_of_iff (1 ≤ date.month ∧ date.month ≤ 12 ∧ 1 ≤ date.day ∧
    date.day ≤ monthLength date.year date.month)
    ⟨fun ⟨month_pos, month_le, day_pos, day_le⟩ => ⟨month_pos, month_le, day_pos, day_le⟩,
      fun listed => ⟨listed.month_pos, listed.month_le, listed.day_pos, listed.day_le⟩⟩

/-! ## Years that begin in March -/

/-- Number of days from 0000-03-01 to the first of March of a year. -/
def daysToMarch (year : Int) : Int :=
  146097 * (year / 400) + (365 * (year % 400) + year % 400 / 4 - year % 400 / 100)

/-- From one first of March to the next there is the leap day of the later year, if it has one. -/
theorem daysToMarch_eq (year : Int) :
    daysToMarch year = daysToMarch (year - 1) + 337 + monthLength year 2 := by
  have length_eq : (monthLength year 2 : Int) = if IsLeap year then 29 else 28 := by
    rw [monthLength]
    split <;> rfl
  rw [length_eq, daysToMarch, daysToMarch]
  by_cases first : year % 400 = 0
  · have leap : IsLeap year := ⟨by omega, fun _ => first⟩
    rw [if_pos leap]
    omega
  · have same_cycle : (year - 1) / 400 = year / 400 ∧ (year - 1) % 400 = year % 400 - 1 := by omega
    rw [same_cycle.1, same_cycle.2]
    by_cases fourth : year % 4 = 0
    · by_cases full : year % 100 = 0
      · rw [if_neg fun leap => first (leap.2 full)]
        omega
      · rw [if_pos ⟨fourth, fun century => absurd century full⟩]
        omega
    · rw [if_neg fun leap => fourth leap.1]
      omega

theorem dayNumber_of_late {date : Date} (late : 2 < date.month) :
    date.dayNumber = daysToMarch date.year + daysBeforeMonth (date.month - 3) + date.day - 1 -
      cycleOrigin := by
  have month_not_early : ¬ date.month ≤ 2 := by omega
  simp only [dayNumber, if_neg month_not_early, daysToMarch]

theorem dayNumber_of_early {date : Date} (early : date.month ≤ 2) :
    date.dayNumber = daysToMarch (date.year - 1) + daysBeforeMonth (date.month + 9) + date.day - 1 -
      cycleOrigin := by
  simp only [dayNumber, if_pos early, daysToMarch]

/-- The day number of the first day of a year. -/
def newYear (year : Int) : Int :=
  (⟨year, 1, 1⟩ : Date).dayNumber

theorem newYear_eq (year : Int) : newYear year = daysToMarch (year - 1) + 306 - cycleOrigin := by
  rw [newYear, dayNumber_of_early (Nat.one_le_ofNat : 1 ≤ 2)]
  simp [daysBeforeMonth]

/-- From one new year to the next there are the days up to the first of March and those after it. -/
theorem newYear_succ (year : Int) : newYear (year + 1) = newYear year + yearLength year := by
  have march := daysToMarch_eq year
  have length_eq : (yearLength year : Int) = monthLength year 2 + 337 := by
    rw [yearLength, monthLength]
    split <;> rfl
  rw [newYear_eq, newYear_eq, add_sub_cancel_right, march, length_eq]
  omega

/-- Within a year days are counted by months. -/
theorem dayNumber_eq {date : Date} (listed : date.InCalendar) :
    date.dayNumber =
      newYear date.year + (daysOfMonths date.year (date.month - 1) + (date.day - 1) : Nat) := by
  obtain ⟨year, month, day⟩ := date
  obtain ⟨month_pos, month_le, day_pos, -⟩ := listed
  simp only at month_pos month_le day_pos ⊢
  by_cases early : month ≤ 2
  · rw [dayNumber_of_early early, newYear_eq]
    interval_cases month <;> simp [daysBeforeMonth, daysOfMonths, monthLength] <;> omega
  · have march := daysToMarch_eq year
    rw [dayNumber_of_late (by omega : 2 < month), newYear_eq, march]
    interval_cases month <;> simp [daysBeforeMonth, daysOfMonths, monthLength] <;> omega

/-! ## The order of days -/

theorem daysOfMonths_twelve (year : Int) : daysOfMonths year 12 = yearLength year := by
  simp only [daysOfMonths, monthLength, yearLength]
  split <;> rfl

theorem monotone_daysOfMonths (year : Int) : Monotone (daysOfMonths year) :=
  monotone_nat_of_le_succ fun _ => Nat.le_add_right _ _

theorem newYear_mono {year other : Int} (le : year ≤ other) : newYear year ≤ newYear other := by
  induction other, le using Int.leInduction with
  | base => exact Int.le_refl _
  | succ other _ ih =>
      rw [newYear_succ]
      omega

/-- A month is over before the next one begins. -/
theorem InCalendar.lt_daysOfMonths {date : Date} (listed : date.InCalendar) {months : Nat}
    (past : date.month ≤ months) :
    daysOfMonths date.year (date.month - 1) + (date.day - 1) < daysOfMonths date.year months := by
  have month_end : daysOfMonths date.year (date.month - 1 + 1) ≤ daysOfMonths date.year months :=
    monotone_daysOfMonths date.year (by have := listed.month_pos; omega)
  rw [daysOfMonths, Nat.sub_add_cancel listed.month_pos] at month_end
  have := listed.day_pos
  have := listed.day_le
  omega

theorem newYear_le {date : Date} (listed : date.InCalendar) {year : Int}
    (begun : year ≤ date.year) : newYear year ≤ date.dayNumber := by
  have := newYear_mono begun
  rw [dayNumber_eq listed]
  omega

/-- A year is over before the next one begins. -/
theorem lt_newYear {date : Date} (listed : date.InCalendar) {year : Int} (past : date.year < year) :
    date.dayNumber < newYear year := by
  have next := newYear_mono (show date.year + 1 ≤ year by omega)
  have inside := listed.lt_daysOfMonths listed.month_le
  rw [daysOfMonths_twelve] at inside
  rw [newYear_succ] at next
  rw [dayNumber_eq listed]
  omega

/-- Days follow one another by year, month and day. -/
theorem dayNumber_lt {date other : Date} (listed : date.InCalendar)
    (other_listed : other.InCalendar) (before : date.year < other.year ∨ date.year = other.year ∧
      (date.month < other.month ∨ date.month = other.month ∧ date.day < other.day)) :
    date.dayNumber < other.dayNumber := by
  rcases before with year_lt | ⟨year_eq, month_lt | ⟨month_eq, day_lt⟩⟩
  · exact (lt_newYear listed year_lt).trans_le (newYear_le other_listed le_rfl)
  · have inside := listed.lt_daysOfMonths (show date.month ≤ other.month - 1 by omega)
    rw [dayNumber_eq listed, dayNumber_eq other_listed, ← year_eq]
    omega
  · have := listed.day_pos
    rw [dayNumber_eq listed, dayNumber_eq other_listed, ← year_eq, ← month_eq]
    omega

/-- From 1970 on the day number of a date is the number of days that have passed. -/
theorem dayNumber_eq_count {date : Date} (listed : date.InCalendar) (late : 1970 ≤ date.year) :
    date.dayNumber = date.count := by
  have years_eq (years : Nat) : newYear (1970 + years) = daysOfYears years := by
    induction years with
    | zero => rfl
    | succ years ih =>
        rw [daysOfYears, Nat.cast_add, Nat.cast_add, ← ih, ← newYear_succ]
        congr 1
  obtain ⟨years, year_eq⟩ := Int.eq_ofNat_of_zero_le (show 0 ≤ date.year - 1970 by omega)
  have year_shift : date.year = 1970 + years := by omega
  rw [dayNumber_eq listed, count, year_eq, Int.toNat_natCast]
  conv => lhs; rw [year_shift, years_eq, ← year_shift]
  omega

/-! ## The date of a day number -/

/-- The day of a year that begins in March, with the number of the day counted from 0. -/
def ofMarch (year : Int) (dayOfYear : Nat) : Date :=
  let month := (5 * dayOfYear + 2) / 153
  { year := year + if month < 10 then 0 else 1
    month := if month < 10 then month + 3 else month - 9
    day := dayOfYear - daysBeforeMonth month + 1 }

/-- A day of the cycle of 400 years lies in one of its years, and on the 366th day of a year only if
the year after it is a leap year. -/
theorem exists_yearOfCycle {dayOfCycle century olympiad yearOfOlympiad dayOfYear : Nat}
    (in_cycle : dayOfCycle < 146097) (century_eq : century = min (dayOfCycle / 36524) 3)
    (olympiad_eq : olympiad = (dayOfCycle - 36524 * century) / 1461)
    (year_eq : yearOfOlympiad = min ((dayOfCycle - 36524 * century) % 1461 / 365) 3)
    (day_eq : dayOfYear = (dayOfCycle - 36524 * century) % 1461 - 365 * yearOfOlympiad) :
    ∃ yearOfCycle, yearOfCycle = 100 * century + 4 * olympiad + yearOfOlympiad ∧ yearOfCycle < 400 ∧
      dayOfCycle = 365 * yearOfCycle + yearOfCycle / 4 - yearOfCycle / 100 + dayOfYear ∧
      dayOfYear ≤ 365 ∧ (dayOfYear = 365 → (yearOfCycle + 1) % 4 = 0 ∧
        ((yearOfCycle + 1) % 100 = 0 → (yearOfCycle + 1) % 400 = 0)) := by
  refine ⟨_, rfl, ?_⟩
  have olympiad_le : olympiad ≤ 24 := by omega
  have fourth : (100 * century + 4 * olympiad + yearOfOlympiad) / 4 = 25 * century + olympiad :=
    by omega
  have hundredth : (100 * century + 4 * olympiad + yearOfOlympiad) / 100 = century := by omega
  rw [fourth, hundredth]
  omega

/-- The date of a day number is found by the year that begins in March. -/
theorem exists_ofMarch (number : Int) :
    ∃ year dayOfYear, ofDayNumber number = ofMarch year dayOfYear ∧ dayOfYear ≤ 365 ∧
      (dayOfYear = 365 → IsLeap (year + 1)) ∧
      daysToMarch year + dayOfYear = number + cycleOrigin := by
  obtain ⟨cycle, dayOfCycle, shifted_eq, in_cycle, cycle_eq, day_eq⟩ :
      ∃ (cycle : Int) (dayOfCycle : Nat), number + cycleOrigin = 146097 * cycle + dayOfCycle ∧
        dayOfCycle < 146097 ∧ (number + cycleOrigin) / 146097 = cycle ∧
        ((number + cycleOrigin) % 146097).toNat = dayOfCycle :=
    ⟨_, _, by omega, by omega, rfl, rfl⟩
  obtain ⟨yearOfCycle, year_eq, in_years, split_cycle, in_year, leap⟩ :=
    exists_yearOfCycle in_cycle rfl rfl rfl rfl
  refine ⟨400 * cycle + yearOfCycle, _, ?_, in_year, fun last => ?_, ?_⟩
  · rw [year_eq, ← day_eq, ← cycle_eq]
    rfl
  · obtain ⟨fourth, full⟩ := leap last
    exact ⟨by omega, fun century => by omega⟩
  · have in_cycle_eq : (400 * cycle + yearOfCycle) / 400 = cycle ∧
        (400 * cycle + yearOfCycle) % 400 = yearOfCycle := by omega
    rw [daysToMarch, in_cycle_eq.1, in_cycle_eq.2, shifted_eq]
    omega

/-- Counted from the first of March, a day lies in one of twelve months, whose lengths are
those of the calendar. -/
theorem inCalendar_ofMarch {year : Int} {dayOfYear : Nat} (in_year : dayOfYear ≤ 365)
    (leap : dayOfYear = 365 → IsLeap (year + 1)) : (ofMarch year dayOfYear).InCalendar := by
  obtain ⟨month, month_eq⟩ : ∃ month, month = (5 * dayOfYear + 2) / 153 := ⟨_, rfl⟩
  have month_le : month ≤ 11 := by omega
  have february : 336 < dayOfYear → dayOfYear - 337 + 1 ≤ monthLength (year + 1) 2 := by
    intro late
    rw [monthLength]
    by_cases last : dayOfYear = 365
    · rw [if_pos (leap last)]
      omega
    · split <;> omega
  rw [ofMarch, ← month_eq]
  constructor <;> interval_cases month <;> simp [daysBeforeMonth, monthLength] at february ⊢
    <;> omega

theorem dayNumber_ofMarch {year : Int} {dayOfYear : Nat} (in_year : dayOfYear ≤ 365) :
    (ofMarch year dayOfYear).dayNumber = daysToMarch year + dayOfYear - cycleOrigin := by
  obtain ⟨month, month_eq⟩ : ∃ month, month = (5 * dayOfYear + 2) / 153 := ⟨_, rfl⟩
  have begun : daysBeforeMonth month ≤ dayOfYear := by
    rw [daysBeforeMonth]
    omega
  rw [ofMarch, ← month_eq]
  by_cases late : month < 10
  · simp only [late, if_true, add_zero]
    rw [dayNumber_of_late (show 2 < month + 3 by omega)]
    simp only [Nat.add_sub_cancel]
    omega
  · simp only [late, if_false]
    rw [dayNumber_of_early (show month - 9 ≤ 2 by omega)]
    simp only [Nat.sub_add_cancel (show 9 ≤ month by omega), add_sub_cancel_right]
    omega

/-- A day number belongs to one day of the calendar. -/
theorem ofDayNumber_spec (number : Int) :
    (ofDayNumber number).InCalendar ∧ (ofDayNumber number).dayNumber = number := by
  obtain ⟨year, dayOfYear, date_eq, in_year, leap, total⟩ := exists_ofMarch number
  rw [date_eq]
  refine ⟨inCalendar_ofMarch in_year leap, ?_⟩
  rw [dayNumber_ofMarch in_year, total, add_sub_cancel_right]

/-- From 1970 on the date of a day number is so many days later than 1970-01-01. -/
theorem count_ofDayNumber {number : Int} (late : 0 ≤ number) :
    1970 ≤ (ofDayNumber number).year ∧ (ofDayNumber number).count = number := by
  obtain ⟨listed, number_eq⟩ := ofDayNumber_spec number
  have year_le : 1970 ≤ (ofDayNumber number).year := by
    by_contra early
    have before := lt_newYear listed (not_le.mp early)
    have origin : newYear 1970 = 0 := rfl
    omega
  exact ⟨year_le, by rw [← dayNumber_eq_count listed year_le, number_eq]⟩

end Date

end TenantScope
