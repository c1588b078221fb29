import Bookable.Slots

/-!
# Programs over a store

A service call is a program: it opens a transaction, sends requests to the store
and goes on with their replies, and closes the transaction or fails. What a
program is does not depend on the store that answers it. A store may let other
programs take their turns between any two steps.

A program has at most one transaction of its own open at a time. Failing rolls it
back.
-/

namespace Bookable

open Time

/-- A request to a store, made within a transaction. -/
inductive Request where
  /-- Stores a new rule; the reply is its identifier. -/
  | insertRule (rule : Rule)
  | findRule (user id : String)
  /-- All rules of a user in the order in which they were stored. -/
  | rulesOf (user : String)
  /-- Replaces the stored rule of the same identifier and user, if there is one. -/
  | updateRule (rule : Rule)
  /-- The bookings of a user that are not cancelled, by start, perhaps only those that start in
  a half-open range. -/
  | bookingsOf (user : String) (range : Option (Instant × Instant))
  /-- The confirmed bookings of a user that start in a half-open range. -/
  | confirmedWithin (user : String) (start stop : Instant)
  /-- The identifier of a confirmed booking of a user with a start. With `lock`, nobody else may
  look that start up in the same way until the transaction ends. -/
  | confirmedAt (user : String) (start : Instant) (lock : Bool)
  | insertBooking (request : BookingRequest)
  | statusOf (id : String)
  /-- Cancels a booking that is not cancelled; the reply is the number of bookings changed. -/
  | cancelBooking (id : String)

namespace Request

abbrev Reply : Request → Type
  | insertRule _ => String
  | findRule _ _ => Option Rule
  | rulesOf _ => List Rule
  | updateRule _ => Option Rule
  | bookingsOf _ _ => List Booking
  | confirmedWithin _ _ _ => List Booking
  | confirmedAt _ _ _ => Option String
  | insertBooking _ => Booking
  | statusOf _ => Option Status
  | cancelBooking _ => Nat

/-- Whether a request uses up an identifier. -/
def inserts : Request → Bool
  | insertRule _ | insertBooking _ => true
  | _ => false

end Request

/-- A computation over a store. -/
inductive Program (α : Type) where
  | done (result : α)
  /-- Ends without result and rolls the program's transaction back. -/
  | fail (cause : Error)
  /-- Opens a transaction. -/
  | opening (next : Program α)
  /-- Sends a request within the transaction. -/
  | ask (request : Request) (next : request.Reply → Program α)
  /-- Commits the transaction. -/
  | closing (next : Program α)

namespace Program

variable {α β : Type}

def bind (p : Program α) (f : α → Program β) : Program β :=
  match p with
  | done result => f result
  | fail cause => fail cause
  | opening next => opening (next.bind f)
  | ask request next => ask request fun reply => (next reply).bind f
  | closing next => closing (next.bind f)

instance : Monad Program where
  pure := done
  bind := bind

/-- A result or an error as a program that asks nothing. -/
def ofExcept : Except Error α → Program α
  | .ok result => done result
  | .error cause => fail cause

instance : MonadLift (Except Error) Program := ⟨ofExcept⟩

def send (request : Request) : Program request.Reply := ask request done

/-- A program that runs in a transaction of its own: it commits when the program is done, and
rolls back when it fails. -/
def transaction (p : Program α) : Program α :=
  opening (p.bind fun result => closing (done result))

end Program

end Bookable
