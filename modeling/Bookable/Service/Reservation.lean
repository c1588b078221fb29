import Bookable.Service.Availability

/-!
# Reservations

Making and cancelling bookings. A booking is made in one transaction: the start is
locked and looked up, the free slots around the request are derived, the request
has to be one of them, and the booking is inserted. Two requests for the same
start therefore take turns, and the second one finds the first one's booking.
-/

namespace Bookable.Service

open Time

/-- How far around a request free slots are derived again. -/
def revalidationMargin : Int := second

def hasEmail (email : Option String) : Bool :=
  match email with
  | some address => !address.isEmpty
  | none => false

def createBooking (request : BookingRequest) : Program Booking := do
  unless hasEmail request.email do Program.fail .emailMissing
  unless request.start < request.stop do Program.fail .requestNotOrdered
  Program.transaction do
    match ← Program.send (.confirmedAt request.user request.start true) with
    | some _ => Program.fail .alreadyBooked
    | none =>
        let start ← inCalendar (request.start.shift? (-revalidationMargin))
        let stop ← inCalendar (request.stop.shift? revalidationMargin)
        let slots ← slotsThrough request.user start stop
        unless slots.any (·.isFrom request.start request.stop) do
          Program.fail .slotNotAvailable
        Program.send (.insertBooking request)

def cancelBooking (id : String) : Program Unit :=
  Program.transaction do
    match ← Program.send (.statusOf id) with
    | none => Program.fail .bookingNotFound
    | some .cancelled => Program.fail .alreadyCancelled
    | some .confirmed =>
        if (← Program.send (.cancelBooking id)) = 0 then Program.fail .bookingNotFound

end Bookable.Service
