import Bookable.Error
import Bookable.Time.Reading.Iso
import Bookable.Time.Reading.Loose
import Bookable.Time.Zone

/-!
# From texts to instants

A text is tried as an ISO 8601 text, then in the looser formats, and as an
interval only if it has the shape of neither. A reading becomes an instant by means
of a clock, which supplies the present and the date of a time alone, and of a zone,
which supplies the offset that the text leaves out. A zone that is not known matters
only if it is needed.
-/

namespace Bookable.Time

def Reading.ofText? (text : String) : Option Reading :=
  if text = "now" then some .now
  else
    let chars := text.toList
    (Iso.read chars).or
      (if (Loose.ways chars).isEmpty then Iso.readInterval chars else Loose.read chars)

namespace Instant

/-- The instant of a clock reading at an offset in minutes. -/
def ofOffset (reading : Civil) (offset : Int) : Except Error Instant :=
  inCalendar (ofMicros? (reading.micros - offset * minute))

/-- The instant of a clock reading in a zone. -/
def ofZone (zone : Zone) (preference : Preference) (reading : Civil) : Except Error Instant :=
  inCalendar (ofMicros? (zone.resolve preference reading.micros))

/-- The instant that a text names, read by a clock in the zone of a name. -/
def read [Zones] (clock : Instant) (zone text : String) : Except Error Instant :=
  let inZone (reading : Civil) : Except Error Instant :=
    match Zone.find? zone with
    | some found => ofZone found .afterChange reading
    | none => .error (.unreadableInstant text)
  match Reading.ofText? text with
  | none => .error (.unreadableInstant text)
  | some .span => .error (.dateMissing text)
  | some .now => .ok clock
  | some (.moment reading (some offset)) => ofOffset reading offset
  | some (.moment reading none) => inZone reading
  | some (.clock time) => inZone (time.on clock.civil.date)

end Instant

end Bookable.Time
