import Bookable.Time.Instant

/-!
# Time zones

A zone says which offset from UTC is in force at a time, and which time a clock
reading names. In a zone that changes its offset a reading may name two instants or
none; a preference for the later or the earlier offset decides both cases. Which
zones there are is up to `Zones`: whatever reads or shows local times works with any
zones, known by any names.

`Zones.current` has some zones by the rules in force since 2024. They have a standard
offset and perhaps a second offset for a season that returns every year. Where the
season begins and ends is given as a Sunday of a month and a UTC time on it, counted
in minutes, which may lie before that Sunday's midnight.
-/

namespace Bookable.Time

/-- The changes of offset in a year: `week` counts the Sundays of the month from one, or asks
for the last one. -/
structure Change where
  month : Nat
  week : Option Nat
  minuteUtc : Int

/-- A season with an offset of its own. -/
structure Season where
  offset : Int
  begins : Change
  ends : Change

/-- Offsets in minutes to be added to UTC. -/
structure Offsets where
  standard : Int
  season : Option Season

/-- Where two clock readings compete, the later or the earlier of the offsets in force around
the change. -/
inductive Preference where
  | afterChange
  | beforeChange
  deriving DecidableEq, Repr

/-- A time zone. All times are in microseconds. -/
structure Zone where
  /-- What is added to a UTC time for a clock reading. -/
  offsetAt : Int → Int
  /-- The UTC time of a clock reading. -/
  resolve : Preference → Int → Int

/-- The zones that are known, by name. -/
class Zones where
  find? : String → Option Zone

namespace Change

/-- The day of a year's change, before the time on it is applied. -/
def dayIn (c : Change) (year : Nat) : Nat :=
  match c.week with
  | some week =>
      let first := Date.number ⟨year, c.month, 1⟩
      first + (7 - weekday first) % 7 + 7 * (week - 1)
  | none =>
      let last := Date.number ⟨year, c.month, daysInMonth year c.month⟩
      last - weekday last

/-- The microsecond of a year's change, in UTC. -/
def microsIn (c : Change) (year : Nat) : Int :=
  (c.dayIn year * day : Nat) + c.minuteUtc * minute

end Change

namespace Offsets

/-- The offset in minutes at a UTC time. Where the season spans the turn of the year, it holds
outside the span from its end to its beginning. -/
def minutesAt (o : Offsets) (micros : Int) : Int :=
  match o.season with
  | none => o.standard
  | some s =>
      let year := yearOf (micros / day).toNat
      let first := s.begins.microsIn year
      let last := s.ends.microsIn year
      let inSeason :=
        if first ≤ last then first ≤ micros ∧ micros < last
        else ¬(last ≤ micros ∧ micros < first)
      if inSeason then s.offset else o.standard

/-- The UTC time of a clock reading. With two candidates the preference decides between them, and
with none it decides which offset is applied all the same. -/
def resolve (o : Offsets) (preference : Preference) (reading : Int) : Int :=
  match o.season with
  | none => reading - o.standard * minute
  | some s =>
      let seasonal := reading - s.offset * minute
      let regular := reading - o.standard * minute
      let fits (micros offset : Int) : Bool := o.minutesAt micros == offset
      match preference with
      | .afterChange =>
          if fits regular o.standard || !fits seasonal s.offset then regular else seasonal
      | .beforeChange =>
          if fits seasonal s.offset || !fits regular o.standard then seasonal else regular

def zone (o : Offsets) : Zone where
  offsetAt micros := o.minutesAt micros * minute
  resolve := o.resolve

end Offsets

namespace Zone

def utc : Zone := Offsets.zone ⟨0, none⟩

def find? [Zones] (name : String) : Option Zone := Zones.find? name

/-- The clock reading of an instant, if it lies within the calendar. -/
def reading? (z : Zone) (t : Instant) : Option Civil :=
  (t.shift? (z.offsetAt t.micros)).map (·.civil)

end Zone

namespace Zones

/-- The offsets of zones by name, universal time apart. -/
def named : List (String × Offsets) := [
  ("Asia/Tokyo", ⟨540, none⟩),
  ("Asia/Kolkata", ⟨330, none⟩),
  ("Europe/Berlin", ⟨60, some ⟨120, ⟨3, none, 60⟩, ⟨10, none, 60⟩⟩⟩),
  ("America/New_York", ⟨-300, some ⟨-240, ⟨3, some 2, 420⟩, ⟨11, some 1, 360⟩⟩⟩),
  ("Australia/Lord_Howe", ⟨630, some ⟨660, ⟨10, some 1, -510⟩, ⟨4, some 1, -540⟩⟩⟩)]

/-- Whether a name is that of universal time, in any case. -/
def isUtc (name : String) : Bool := name.toList.map Char.toLower == ['u', 't', 'c']

instance current : Zones where
  find? name :=
    if isUtc name then some .utc
    else (named.find? fun entry => entry.1 == name).map (·.2.zone)

end Zones

end Bookable.Time
