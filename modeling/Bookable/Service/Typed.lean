import Bookable.Service.Reservation
import Bookable.Time.Reading.Instant

/-!
# Requests as they are typed

The services for callers who write instants as texts. A text is read in UTC, by the
clock of the moment at which the service is called, and only where it counts: the
bounds of a listing only if both are there, and the times of a booking only after
its e-mail address was found to be there.
-/

namespace Bookable.Service.Typed

open Time

/-- A booking request with its times as texts. -/
structure BookingForm where
  user : String
  email : Option String
  start : String
  stop : String
  source : Option String := some ""
  kind : Option String := some ""
  description : Option String := some ""
  title : Option String := some ""

/-- The instant of a text in UTC. -/
def instant (clock : Instant) (text : String) : Except Error Instant :=
  Instant.read clock "UTC" text

def BookingForm.request (form : BookingForm) (clock : Instant) : Except Error BookingRequest := do
  unless hasEmail form.email do throw .emailMissing
  return {
    user := form.user
    email := form.email
    start := ← instant clock form.start
    stop := ← instant clock form.stop
    source := form.source
    kind := form.kind
    description := form.description
    title := form.title }

def createBooking (clock : Instant) (form : BookingForm) : Program Booking := do
  Service.createBooking (← form.request clock)

/-- The free slots of a user between two instants. -/
def listSlots (clock : Instant) (user start stop : String) : Program (List Interval) := do
  let start ← instant clock start
  let stop ← instant clock stop
  Service.listSlots user start stop

/-- The free slots of a user between two instants, read through the transaction at hand. -/
def slotsThrough (clock : Instant) (user start stop : String) : Program (List Interval) := do
  let start ← instant clock start
  let stop ← instant clock stop
  Service.slotsThrough user start stop

/-- The bookings of a user that are not cancelled. -/
def listBookings (clock : Instant) (user : String) (start stop : Option String) :
    Program (List Booking) := do
  match start, stop with
  | some start, some stop => do
      let start ← instant clock start
      let stop ← instant clock stop
      Service.listBookings user (some start) (some stop)
  | _, _ => Service.listBookings user none none

end Bookable.Service.Typed
