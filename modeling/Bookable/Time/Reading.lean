import Bookable.Text.Digit
import Bookable.Time.Instant

/-!
# Readings of instants

What a text can say about time before a clock and a zone are brought in: the
word for the present, a date and time with or without an offset, a time of day
alone, or a span of time, which is no instant. This module also reads the pieces
that the formats share.
-/

namespace Bookable.Time

/-- A time of day to the microsecond. -/
structure Clock where
  hour : Nat
  minute : Nat
  second : Nat
  micro : Nat
  deriving DecidableEq, Repr

namespace Clock

def midnight : Clock := ⟨0, 0, 0, 0⟩

def Valid (c : Clock) : Prop := c.hour < 24 ∧ c.minute < 60 ∧ c.second < 60

instance (c : Clock) : Decidable c.Valid := by unfold Valid; infer_instance

/-- A time of day on a date. -/
def on (c : Clock) (date : Date) : Civil := ⟨date, c.hour, c.minute, c.second, c.micro⟩

end Clock

/-- What a text says about time. -/
inductive Reading where
  | now
  /-- A date and time, and its offset from UTC in minutes if it has one. -/
  | moment (reading : Civil) (offset : Option Int)
  | clock (time : Clock)
  /-- A length of time or an interval. -/
  | span
  deriving DecidableEq, Repr

/-- Microseconds from the digits of a fraction: six places, further ones cut off. -/
def microsOfFraction (digits : List Nat) : Nat :=
  Text.ofDigits ((digits ++ List.replicate 6 0).take 6)

/-- Splits off the digits at the front of a text. -/
def spanDigits (digit? : Char → Option Nat) : List Char → List Nat × List Char
  | [] => ([], [])
  | c :: rest =>
      match digit? c with
      | some digit =>
          let (digits, rest) := spanDigits digit? rest
          (digit :: digits, rest)
      | none => ([], c :: rest)

end Bookable.Time
