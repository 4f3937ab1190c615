import TenantScope.Decimal

/-!
# Times in records

A moment is a number of microseconds since the beginning of 1970, universal time.  Records show it
by the Gregorian calendar, which repeats every 400 years, down to milliseconds.  Seconds and
milliseconds are cut towards zero, so before 1970 the milliseconds carry a sign of their own.
-/

namespace TenantScope

/-- A day of the Gregorian calendar, extended to all years. -/
structure Date where
  year : Int
  month : Nat
  day : Nat
  deriving DecidableEq, Repr

namespace Date

/-- Number of days from the first of March to the first day of a month, counted from March as 0. -/
def daysBeforeMonth (month : Nat) : Nat :=
  (153 * month + 2) / 5

/-- Number of days from 1970-01-01 to 0000-03-01, where the cycle of 400 years is taken to begin. -/
def cycleOrigin : Int :=
  719468

/-- The day so many days after 1970-01-01. -/
def ofDayNumber (number : Int) : Date :=
  let shifted := number + cycleOrigin
  let cycle := shifted / 146097
  let dayOfCycle := (shifted % 146097).toNat
  let century := min (dayOfCycle / 36524) 3
  let dayOfCentury := dayOfCycle - 36524 * century
  let dayOfOlympiad := dayOfCentury % 1461
  let yearOfOlympiad := min (dayOfOlympiad / 365) 3
  let dayOfYear := dayOfOlympiad - 365 * yearOfOlympiad
  let month := (5 * dayOfYear + 2) / 153
  let yearOfCycle := 100 * century + 4 * (dayOfCentury / 1461) + yearOfOlympiad
  { year := 400 * cycle + yearOfCycle + if month < 10 then 0 else 1
    month := if month < 10 then month + 3 else month - 9
    day := dayOfYear - daysBeforeMonth month + 1 }

/-- Number of days from 1970-01-01 to a day. -/
def dayNumber (date : Date) : Int :=
  let year := if date.month ≤ 2 then date.year - 1 else date.year
  let month := if date.month ≤ 2 then date.month + 9 else date.month - 3
  let yearOfCycle := year % 400
  146097 * (year / 400) + (365 * yearOfCycle + yearOfCycle / 4 - yearOfCycle / 100) +
    daysBeforeMonth month + date.day - 1 - cycleOrigin

end Date

/-- A moment, in microseconds since the beginning of 1970. -/
structure Moment where
  microseconds : Int
  deriving DecidableEq, Repr

namespace Moment

/-- The whole seconds of a moment, cut towards zero. -/
def seconds (moment : Moment) : Int :=
  moment.microseconds.tdiv 1000000

/-- The whole milliseconds of a moment, less those of its whole seconds. -/
def milliseconds (moment : Moment) : Int :=
  moment.microseconds.tdiv 1000 - 1000 * moment.seconds

/-- The form of a moment in records, such as `2023-11-14T22:13:20.123Z`. -/
def text (moment : Moment) : Text :=
  let date := Date.ofDayNumber (moment.seconds / 86400)
  let second := (moment.seconds % 86400).toNat
  let two (value : Nat) : Text := Text.zeroFilled 2 (Text.decimal value)
  Text.zeroFilled 4 (Text.integer date.year) ++ Text.ascii "-" ++ two date.month ++
    Text.ascii "-" ++ two date.day ++ Text.ascii "T" ++ two (second / 3600) ++ Text.ascii ":" ++
    two (second / 60 % 60) ++ Text.ascii ":" ++ two (second % 60) ++ Text.ascii "." ++
    Text.zeroFilled 3 (Text.integer moment.milliseconds) ++ Text.ascii "Z"

end Moment

end TenantScope
