import Bookable.Text.Digit
import Bookable.Time.Calendar

/-!
# Instants

An instant is a number of microseconds since 0001-01-01T00:00:00 UTC, and it lies
before the end of the year 9999: there is no instant outside the calendar, so
whatever would lead there has no result. Order, differences and shifts are those
of the numbers.

`Civil` is the same number spread over date and time of day. It serves UTC
instants and local clock readings alike.
-/

namespace Bookable.Time

/-- Microseconds in a second. -/
def second : Nat := 1000000

def minute : Nat := 60 * second

def hour : Nat := 60 * minute

def day : Nat := 24 * hour

/-- Microseconds from the first instant of the calendar to its end. -/
def horizon : Nat := calendarDays * day

def unixEpoch : Int := 62135596800

/-- A date and a time of day. -/
structure Civil where
  date : Date
  hour : Nat
  minute : Nat
  second : Nat
  micro : Nat
  deriving DecidableEq, Repr

namespace Civil

/-- The reading of a clock that has run for a number of microseconds. -/
def ofMicros (micros : Nat) : Civil where
  date := Date.ofNumber (micros / day)
  hour := micros / Time.hour % 24
  minute := micros / Time.minute % 60
  second := micros / Time.second % 60
  micro := micros % Time.second

/-- The number of microseconds from the beginning of the calendar to a reading. -/
def micros (c : Civil) : Nat :=
  c.date.number * day + c.hour * Time.hour + c.minute * Time.minute + c.second * Time.second +
    c.micro

/-- Whether date and time of day exist. -/
def Valid (c : Civil) : Prop :=
  c.date.Valid ∧ c.hour < 24 ∧ c.minute < 60 ∧ c.second < 60 ∧ c.micro < 1000000

instance (c : Civil) : Decidable c.Valid := by unfold Valid; infer_instance

/-- Year, month and day, with dashes. -/
def dateDigits (c : Civil) : List Char :=
  Text.paddedDigits 4 c.date.year ++ '-' :: Text.paddedDigits 2 c.date.month ++
    '-' :: Text.paddedDigits 2 c.date.day

/-- Hour, minute and second with colons, and the microseconds when there are any. -/
def timeDigits (c : Civil) : List Char :=
  Text.paddedDigits 2 c.hour ++ ':' :: Text.paddedDigits 2 c.minute ++
    ':' :: Text.paddedDigits 2 c.second ++
    (if c.micro = 0 then [] else '.' :: Text.paddedDigits 6 c.micro)

def hourMinute (c : Civil) : String :=
  Text.padded 2 c.hour ++ ":" ++ Text.padded 2 c.minute

end Civil

/-- A point in time within the years 1 to 9999. -/
structure Instant where
  micros : Nat
  lt_horizon : micros < horizon
  deriving DecidableEq

namespace Instant

instance : LT Instant := ⟨fun a b => a.micros < b.micros⟩

instance : LE Instant := ⟨fun a b => a.micros ≤ b.micros⟩

instance (a b : Instant) : Decidable (a < b) := Nat.decLt a.micros b.micros

instance (a b : Instant) : Decidable (a ≤ b) := Nat.decLe a.micros b.micros

/-- The instant a number of microseconds after the beginning of the calendar. -/
def ofMicros? (micros : Int) : Option Instant :=
  if h : 0 ≤ micros ∧ micros < horizon then some ⟨micros.toNat, by omega⟩ else none

/-- The instant a number of microseconds later, or earlier if it is negative. -/
def shift? (t : Instant) (amount : Int) : Option Instant :=
  ofMicros? (t.micros + amount)

/-- The day of an instant, as a number of days from 0001-01-01. -/
def dayNumber (t : Instant) : Nat := t.micros / day

/-- The whole seconds from 1970-01-01T00:00:00, rounded down. -/
def unixSecond (t : Instant) : Int := (t.micros / second : Nat) - unixEpoch

/-- The date and time of day of an instant in UTC. -/
def civil (t : Instant) : Civil := Civil.ofMicros t.micros

/-- The ISO 8601 text of an instant in UTC. -/
def iso (t : Instant) : String :=
  String.ofList (t.civil.dateDigits ++ 'T' :: t.civil.timeDigits ++ ['Z'])

/-- The text of an instant in messages. -/
def spoken (t : Instant) : String :=
  String.ofList (t.civil.dateDigits ++ ' ' :: t.civil.timeDigits) ++ "+00:00"

end Instant

end Bookable.Time
