import Bookable.Time.Reading.Instant

/-!
# Timestamps

A date and time with an offset from UTC, or without one; a timestamp without an
offset is read in a zone.
-/

namespace Bookable.Time

/-- A date and time, and perhaps its offset from UTC in minutes, to which some seconds may come. -/
structure Timestamp where
  reading : Civil
  offset : Option Int := none
  offsetSeconds : Int := 0
  deriving DecidableEq, Repr

/-- How far the reading of a timestamp is ahead of UTC, in microseconds, if the timestamp says so. -/
def Timestamp.ahead? (t : Timestamp) : Option Int :=
  t.offset.map fun minutes => minutes * minute + t.offsetSeconds * second

/-- The instant of a timestamp, read in a zone if it has no offset. -/
def Timestamp.instant (t : Timestamp) (zone : Zone) (preference : Preference) :
    Except Error Instant :=
  match t.ahead? with
  | some ahead => inCalendar (Instant.ofMicros? (t.reading.micros - ahead))
  | none => Instant.ofZone zone preference t.reading

/-- An instant as a timestamp in UTC. -/
def Instant.timestamp (t : Instant) : Timestamp := { reading := t.civil, offset := some 0 }

end Bookable.Time
