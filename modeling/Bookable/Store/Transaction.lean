import Bookable.Store.Records

/-!
# Transactions that buffer their writes

A transaction keeps its writes to itself until it commits. It reads the committed
records of the moment with its own changes laid over them, followed by its own new
records: its `view`. Committing publishes what the transaction wrote, unless one
of its new bookings starts when a committed booking of the same user does that it
has not cancelled itself.

A lookup with a lock and a cancellation take hold of a key, which the transaction
keeps until it ends. A transaction that has ended can still be asked, but nothing
that it writes is published any more.
-/

namespace Bookable.Store

open Time

/-- What a transaction can lock: a second in which bookings of a user start, counted from
1970-01-01, or a booking. -/
inductive Key where
  | start (user : String) (second : Int)
  | booking (id : String)
  deriving DecidableEq, Repr

/-- The key that a request has to hold. -/
def keyOf? : Request → Option Key
  | .confirmedAt user start true => some (.start user start.unixSecond)
  | .cancelBooking id => some (.booking id)
  | _ => none

/-- A transaction: its writes, the keys that it holds in the order of locking, and whether it
has ended. -/
structure Transaction where
  newRules : List Rule := []
  updatedRules : List Rule := []
  newBookings : List Booking := []
  cancelled : List String := []
  held : List Key := []
  ended : Bool := false

namespace Transaction

/-- A rule as a transaction sees it, with its own change if it made one. -/
def seenRule (t : Transaction) (rule : Rule) : Rule :=
  (t.updatedRules.find? (·.id == rule.id)).getD rule

/-- A booking as a transaction sees it, cancelled if it cancelled it. -/
def seenBooking (t : Transaction) (b : Booking) : Booking :=
  if b.id ∈ t.cancelled then { b with status := .cancelled } else b

/-- The committed records with a transaction's changes and its new records. -/
def view (t : Transaction) (r : Records) : Records where
  rules := r.rules.map t.seenRule ++ t.newRules
  bookings := (r.bookings ++ t.newBookings).map t.seenBooking

/-- Replaces a rule that the transaction sees, among its new rules or as a change. -/
def update (t : Transaction) (rule : Rule) : Transaction :=
  if t.newRules.any (·.id == rule.id) then { t with newRules := put Rule.id rule t.newRules }
  else { t with updatedRules := put Rule.id rule t.updatedRules }

/-- Answers a request, the keys for which are held. -/
def perform (t : Transaction) (r : Records) (stamp : Stamp) :
    (request : Request) → request.Reply × Transaction
  | .insertRule rule =>
      (stamp.id, { t with newRules := put Rule.id (newRule stamp rule) t.newRules })
  | .findRule user id => ((t.view r).findRule user id, t)
  | .rulesOf user => ((t.view r).rulesOf user, t)
  | .updateRule rule =>
      match rule.id with
      | none => (none, t)
      | some id =>
          match (t.view r).findRule rule.user id with
          | none => (none, t)
          | some _ =>
              let stored := { rule with updatedAt := some stamp.now }
              (some stored, t.update stored)
  | .bookingsOf user range => ((t.view r).bookingsOf user range, t)
  | .confirmedWithin user start stop => ((t.view r).confirmedWithin user start stop, t)
  | .confirmedAt user start _ => ((t.view r).confirmedAt user start, t)
  | .insertBooking request =>
      let booking := newBooking stamp request
      (booking, { t with newBookings := put Booking.id booking t.newBookings })
  | .statusOf id => ((t.view r).statusOf id, t)
  | .cancelBooking id =>
      match (t.view r).statusOf id with
      | some .confirmed => ((1 : Nat), { t with cancelled := t.cancelled ++ [id] })
      | _ => ((0 : Nat), t)

/-- Whether a new booking starts when a committed booking of the same user does that the
transaction has not cancelled. -/
def conflicts (t : Transaction) (r : Records) : Bool :=
  t.newBookings.any fun new => r.bookings.any fun old =>
    old.isConfirmed && old.user == new.user && old.start == new.start &&
      old.id ∉ t.cancelled

/-- The committed records after a transaction's writes are applied to them. -/
def publish (t : Transaction) (r : Records) : Records where
  rules := (t.updatedRules ++ t.newRules).foldl (fun rules rule => put Rule.id rule rules) r.rules
  bookings :=
    let added := t.newBookings.foldl (fun bookings b => put Booking.id b bookings) r.bookings
    t.cancelled.foldl (fun bookings id => cancelOne id bookings) added

def cleared (t : Transaction) : Transaction :=
  { held := t.held, ended := t.ended }

end Transaction

end Bookable.Store
