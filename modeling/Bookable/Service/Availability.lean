import Bookable.Program

/-!
# Availability

Setting and changing the rules of a user, listing them, and listing free slots and
bookings. Rules are checked before they are written. A batch of rules is written
one rule a transaction, so that an unusable rule leaves the ones before it stored.

Free slots are listed in a transaction of their own, or, for a booking, within the
transaction that holds the lock on the start.
-/

namespace Bookable.Service

open Time

/-- A request window from two instants in order. -/
def window (start stop : Instant) : Except Error Interval :=
  if start < stop then Interval.between start stop else .error .windowNotOrdered

/-- Stores a rule and reads it back. -/
def storeRule (user : String) (rule : Rule) : Program (Option Rule) :=
  Program.transaction do
    let id ← Program.send (.insertRule rule)
    Program.send (.findRule user id)

/-- Creates rules for a user, in order, up to the first one that is not a rule. -/
def setAvailability (user : String) : List RuleDraft → Program (List Rule)
  | [] => return []
  | draft :: drafts => do
      let rule ← (draft.rule user).normalized
      let stored ← storeRule user rule
      let others ← setAvailability user drafts
      return stored.toList ++ others

def updateAvailability (user id : String) (changes : RuleChanges) : Program Rule :=
  Program.transaction do
    match ← Program.send (.findRule user id) with
    | none => Program.fail .ruleNotFound
    | some existing =>
        let merged ← existing.merged changes
        let rule ← merged.normalized
        match ← Program.send (.updateRule rule) with
        | none => Program.fail .ruleNotFound
        | some updated => return updated

/-- The rules of a user in the order in which they were stored. -/
def listAvailability (user : String) : Program (List Rule) :=
  Program.transaction (Program.send (.rulesOf user))

/-- The free slots of a user in a window, read through the transaction at hand. -/
def slotsWithin (user : String) (request : Interval) : Program (List Interval) := do
  let rules ← Program.send (.rulesOf user)
  if rules.isEmpty then return []
  freeSlots rules request fun range =>
    Program.send (.confirmedWithin user range.start range.stop)

/-- The free slots of a user between two instants, read through the transaction at hand. -/
def slotsThrough (user : String) (start stop : Instant) : Program (List Interval) := do
  slotsWithin user (← window start stop)

/-- The free slots of a user between two instants. -/
def listSlots (user : String) (start stop : Instant) : Program (List Interval) := do
  let request ← window start stop
  Program.transaction (slotsWithin user request)

/-- The bookings of a user that are not cancelled, by start. A range counts only if both of its
bounds are given. -/
def listBookings (user : String) (start stop : Option Instant) : Program (List Booking) := do
  let range ← match start, stop with
    | some start, some stop => do
        let request ← window start stop
        pure (some (request.start, request.stop))
    | _, _ => pure none
  Program.transaction (Program.send (.bookingsOf user range))

end Bookable.Service
