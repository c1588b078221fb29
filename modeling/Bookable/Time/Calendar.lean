/-!
# The calendar

Days are counted from 0001-01-01, which is day 0 and a Monday, through
9999-12-31. Counting days makes weekdays, weeks and differences plain
arithmetic; a date with year, month and day is needed only where it is read or
written. `Date.number` and `Date.ofNumber` go back and forth.
-/

namespace Bookable.Time

/-- A date of the Gregorian calendar. -/
structure Date where
  year : Nat
  month : Nat
  day : Nat
  deriving DecidableEq, Repr

/-- The number of days from 0001-01-01 through 9999-12-31. -/
def calendarDays : Nat := 3652059

/-- Every fourth year is a leap year, except centuries that 400 does not divide. -/
def isLeap (year : Nat) : Bool :=
  year % 4 == 0 && (year % 100 != 0 || year % 400 == 0)

/-- The lengths of the months of a year. -/
def monthLengths (year : Nat) : List Nat :=
  [31, if isLeap year then 29 else 28, 31, 30, 31, 30, 31, 31, 30, 31, 30, 31]

/-- The length of a month, and zero for a month that does not exist. -/
def daysInMonth (year month : Nat) : Nat :=
  if month = 0 then 0 else (monthLengths year).getD (month - 1) 0

/-- The number of days in a year. -/
def daysInYear (year : Nat) : Nat :=
  if isLeap year then 366 else 365

/-- The number of days before the first day of a year. -/
def daysBeforeYear (year : Nat) : Nat :=
  let past := year - 1
  365 * past + past / 4 - past / 100 + past / 400

/-- The number of days of a year before the first day of a month. -/
def daysBeforeMonth (year month : Nat) : Nat :=
  ((monthLengths year).take (month - 1)).foldl (· + ·) 0

/-- The year that holds a day: an estimate from the mean length of a year, which is never off
by more than one. -/
def yearOf (n : Nat) : Nat :=
  let year := 400 * n / 146097 + 1
  if n < daysBeforeYear year then year - 1
  else if daysBeforeYear (year + 1) ≤ n then year + 1
  else year

/-- The month, counted from zero, and the day in it, counted from zero, of a day counted
through months of the given lengths. -/
def monthAndDay : List Nat → Nat → Nat × Nat
  | [], day => (0, day)
  | length :: rest, day =>
      if day < length then (0, day)
      else
        let (month, day) := monthAndDay rest (day - length)
        (month + 1, day)

namespace Date

def Valid (d : Date) : Prop :=
  1 ≤ d.year ∧ d.year ≤ 9999 ∧ 1 ≤ d.month ∧ d.month ≤ 12 ∧ 1 ≤ d.day ∧
    d.day ≤ daysInMonth d.year d.month

instance (d : Date) : Decidable d.Valid := by unfold Valid; infer_instance

/-- The number of days from 0001-01-01 to a date. -/
def number (d : Date) : Nat :=
  daysBeforeYear d.year + daysBeforeMonth d.year d.month + (d.day - 1)

def ofNumber (n : Nat) : Date :=
  let year := yearOf n
  let (month, day) := monthAndDay (monthLengths year) (n - daysBeforeYear year)
  ⟨year, month + 1, day + 1⟩

/-- The date of a day of the year, counted from one. -/
def ofOrdinal? (year ordinal : Nat) : Option Date :=
  if 1 ≤ year ∧ year ≤ 9999 ∧ 1 ≤ ordinal ∧ ordinal ≤ daysInYear year then
    some (ofNumber (daysBeforeYear year + (ordinal - 1)))
  else none

end Date

/-- The weekday of a day, Sunday being 0 and Saturday 6. -/
def weekday (day : Nat) : Nat :=
  (day + 1) % 7

/-- The Monday that begins the week with January 4, the first week of a year. -/
def firstMonday (year : Nat) : Nat :=
  let fourth := daysBeforeYear year + 3
  fourth - fourth % 7

/-- Whether a year has 53 weeks. -/
def isLongYear (year : Nat) : Bool :=
  firstMonday year + 371 ≤ firstMonday (year + 1)

/-- The date of a weekday of a week. Week 0 is the week before the first, and day 0 the
Sunday before a week's Monday; week 53 is there in long years only. -/
def Date.ofWeek? (year week day : Nat) : Option Date :=
  if 1 ≤ year ∧ (week ≤ 52 ∨ week = 53 ∧ isLongYear year) ∧ day ≤ 7 then
    let number : Int := (firstMonday year : Int) + 7 * ((week : Int) - 1) + ((day : Int) - 1)
    if 0 ≤ number ∧ number < calendarDays then some (Date.ofNumber number.toNat) else none
  else none

end Bookable.Time
