import Bookable.Program

/-!
# Committed records

The rules and bookings that a store has committed, in the order in which they were
first committed. Identifiers come with each write from outside, together with the
time, as a `Stamp`.
-/

namespace Bookable.Store

open Time

/-- What a write takes from outside: the time and a new identifier. -/
structure Stamp where
  now : Instant
  id : String

/-- Rules and bookings on record. -/
structure Records where
  rules : List Rule := []
  bookings : List Booking := []

/-- Puts a record in the place of the first one that has the same key, or else at the end. -/
def put {α κ : Type} [DecidableEq κ] (key : α → κ) (a : α) : List α → List α
  | [] => [a]
  | b :: rest => if key b = key a then a :: rest else b :: put key a rest

/-- Marks the booking of an identifier as cancelled. -/
def cancelOne (id : String) (bookings : List Booking) : List Booking :=
  bookings.map fun b => if b.id = id then { b with status := .cancelled } else b

/-- A rule as it is first stored. -/
def newRule (stamp : Stamp) (rule : Rule) : Rule :=
  { rule with id := some stamp.id, createdAt := some stamp.now, updatedAt := some stamp.now }

/-- A booking as it is first stored. -/
def newBooking (stamp : Stamp) (request : BookingRequest) : Booking :=
  { toBookingRequest := request, id := stamp.id, createdAt := stamp.now }

namespace Records

def rulesOf (r : Records) (user : String) : List Rule :=
  r.rules.filter (·.user == user)

/-- The rule of a user with an identifier. -/
def findRule (r : Records) (user id : String) : Option Rule :=
  r.rules.find? fun rule => rule.id == some id && rule.user == user

/-- The bookings of a user that are not cancelled, by start. -/
def bookingsOf (r : Records) (user : String) (range : Option (Instant × Instant)) :
    List Booking :=
  let mine := r.bookings.filter fun b => b.user == user && b.status != .cancelled
  let inRange := match range with
    | some (start, stop) => mine.filter (·.startsWithin start stop)
    | none => mine
  Booking.sortByStart inRange

/-- The confirmed bookings of a user that start in a half-open range. -/
def confirmedWithin (r : Records) (user : String) (start stop : Instant) : List Booking :=
  r.bookings.filter fun b => b.user == user && b.isConfirmed && b.startsWithin start stop

/-- The identifier of the first confirmed booking of a user with a start. -/
def confirmedAt (r : Records) (user : String) (start : Instant) : Option String :=
  (r.bookings.find? fun b => b.user == user && b.isConfirmed && b.start == start).map (·.id)

/-- The status of the booking with an identifier. -/
def statusOf (r : Records) (id : String) : Option Status :=
  (r.bookings.find? (·.id == id)).map (·.status)

end Records

end Bookable.Store
