import Bookable.Interval

/-!
# Bookings

A booking reserves one interval for a user. It is confirmed when it is made and
may be cancelled later; it is never changed in any other way.
-/

namespace Bookable

open Time

/-- The state of a booking. -/
inductive Status where
  | confirmed
  | cancelled
  deriving DecidableEq, Repr

def Status.word : Status → String
  | confirmed => "confirmed"
  | cancelled => "cancelled"

/-- What a caller asks to be booked. -/
structure BookingRequest where
  user : String
  email : Option String
  start : Instant
  stop : Instant
  source : Option String := some ""
  kind : Option String := some ""
  description : Option String := some ""
  title : Option String := some ""
  deriving DecidableEq

/-- A booking on record. -/
structure Booking extends BookingRequest where
  id : String
  status : Status := .confirmed
  createdAt : Instant
  deriving DecidableEq

namespace Booking

def isConfirmed (b : Booking) : Bool := b.status == .confirmed

/-- Whether a booking starts within a half-open range. -/
def startsWithin (b : Booking) (start stop : Instant) : Bool :=
  start ≤ b.start && b.start < stop

/-- Bookings in the order of their starts; those that start together keep their order. -/
def sortByStart (bookings : List Booking) : List Booking :=
  bookings.mergeSort fun a b => a.start ≤ b.start

/-- Bookings in the order of their identifiers. -/
def sortById (bookings : List Booking) : List Booking :=
  bookings.mergeSort fun a b => a.id ≤ b.id

end Booking

end Bookable
