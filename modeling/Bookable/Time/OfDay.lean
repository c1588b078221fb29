import Bookable.Text.Blank
import Bookable.Text.Digit
import Bookable.Time.Instant

/-!
# Times of day

A time of day is an hour and a minute. Its text is an hour, a colon and a minute,
of one or two digits each. The first of two digits is an ASCII digit that leaves
the number in range, and after a leading 2 the second digit of the hour is ASCII
too; every other digit may be a decimal digit of any script. `text` writes two
ASCII digits on each side, so that the order of texts is the order of times.
-/

namespace Bookable.Time

/-- An hour and a minute of a day. -/
structure OfDay where
  hour : Nat
  minute : Nat
  hour_lt : hour < 24
  minute_lt : minute < 60
  deriving DecidableEq

namespace OfDay

def minutes (t : OfDay) : Nat := 60 * t.hour + t.minute

def micros (t : OfDay) : Nat := t.minutes * Time.minute

/-- The number that the digits of an hour spell. -/
def readHour? : List Char → Option Nat
  | [c] => Text.digitValue? c
  | [first, c] =>
      if first = '0' then Text.digitValue? c
      else if first = '1' then (Text.digitValue? c).map (10 + ·)
      else if first = '2' ∧ '0' ≤ c ∧ c ≤ '3' then some (20 + (c.toNat - '0'.toNat))
      else none
  | _ => none

/-- The number that the digits of a minute spell. -/
def readMinute? : List Char → Option Nat
  | [c] => Text.digitValue? c
  | [first, c] =>
      if '0' ≤ first ∧ first ≤ '5' then
        (Text.digitValue? c).map (10 * (first.toNat - '0'.toNat) + ·)
      else none
  | _ => none

/-- The time of day that a text spells. -/
def read? (text : List Char) : Option OfDay :=
  match text.span (· != ':') with
  | (hourPart, _ :: minutePart) => do
      let hour ← readHour? hourPart
      let minute ← readMinute? minutePart
      if h : hour < 24 ∧ minute < 60 then some ⟨hour, minute, h.1, h.2⟩ else none
  | _ => none

/-- Two digits for the hour, a colon, two digits for the minute. -/
def text (t : OfDay) : List Char :=
  Text.paddedDigits 2 t.hour ++ ':' :: Text.paddedDigits 2 t.minute

/-- Whether the text of a time comes before that of another one, by the first character in which
they differ. -/
def writtenBefore (t u : OfDay) : Bool := t.text.lex u.text fun c d => c.toNat < d.toNat

end OfDay

end Bookable.Time
