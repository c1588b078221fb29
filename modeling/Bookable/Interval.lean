import Bookable.Error
import Bookable.Number.Shortest

/-!
# Intervals

An interval runs from a start to a later stop; an interval without duration does
not exist. Slots, request windows and the ranges in which bookings are looked up
are intervals. Two intervals overlap when each starts before the other stops, so
intervals that only touch do not.
-/

namespace Bookable

open Time

/-- The time from a start to a later stop. -/
structure Interval where
  start : Instant
  stop : Instant
  ordered : start < stop
  deriving DecidableEq

namespace Interval

def between (start stop : Instant) : Except Error Interval :=
  if h : start < stop then .ok ⟨start, stop, h⟩ else .error (.emptyRange start stop)

/-- Whether two intervals have time in common. -/
def overlaps (a b : Interval) : Bool :=
  a.start < b.stop && b.start < a.stop

/-- Whether an interval runs from one given instant to another. -/
def isFrom (a : Interval) (start stop : Instant) : Bool :=
  a.start == start && a.stop == stop

/-- An interval widened by a number of microseconds on both sides. -/
def padded (a : Interval) (micros : Int) : Except Error Interval := do
  let start ← inCalendar (a.start.shift? (-micros))
  let stop ← inCalendar (a.stop.shift? micros)
  between start stop

/-- A number of microseconds in seconds, as a number of double precision. -/
def secondsOf (micros : Nat) : Number.Binary :=
  .ofRatio false micros second

/-- The microseconds in a number of seconds: the fraction is scaled in double precision and then
rounded to the nearest microsecond. -/
def microsOf : Number.Binary → Nat
  | .finite _ mantissa exponent =>
      let (num, den) := Number.Binary.ratio mantissa exponent
      let scaled := Number.Binary.ofRatio false (num % den * second) den
      let micros :=
        match scaled with
        | .finite _ m e =>
            let (num, den) := Number.Binary.ratio m e
            Number.roundDiv num den
        | _ => 0
      num / den * second + micros
  | _ => 0

/-- The whole minutes of an interval. The duration passes through seconds in double precision,
which is exact for less than two centuries; a longer duration with a fraction of a second may be
rounded up to the next minute. -/
def minutes (a : Interval) : Nat :=
  let seconds := secondsOf (microsOf (secondsOf (a.stop.micros - a.start.micros)))
  match seconds with
  | .finite _ mantissa exponent =>
      let (num, den) := Number.Binary.ratio mantissa exponent
      (Number.Binary.ofRatio false num (den * 60)).floor
  | _ => 0

/-- An interval in running text, to the minute, with the date of its start. -/
def spoken (a : Interval) : String :=
  let start := a.start.civil
  toString start.date.year ++ "-" ++ Text.padded 2 start.date.month ++ "-" ++
    Text.padded 2 start.date.day ++ " " ++ start.hourMinute ++ " - " ++ a.stop.civil.hourMinute

end Interval

end Bookable
