import Bookable.Store.Column
import Bookable.Store.Supply
import Bookable.Text.WholeNumber

/-!
# Tables with constraints

The second store keeps rules and bookings in two tables and checks every write at
once. Columns that must have a value refuse a missing one, except those with a
default; whole numbers have to fit into 64 bits with a sign; no two rules and no two
bookings have the same identifier; and no two confirmed bookings of a user start at
the same instant. A write that a table refuses leaves its transaction unusable until
it is rolled back.

A column gives a value the form that it keeps: a column of whole numbers turns
truth values, whole fractions and texts of whole numbers into numbers, and a column
of text turns numbers into text. An instant is kept as a text, and it is by these
texts that bookings are looked up and put in order.

One transaction is open at a time. It works on a copy of the committed tables,
which takes their place when it commits.
-/

namespace Bookable.Store

open Time

namespace Table

/-- Whether a whole number fits into 64 bits with a sign. -/
def fits (n : Int) : Bool := -Number.wordBound ≤ n && n < Number.wordBound

/-- A value in a column without default. -/
def required (v : Value) : Except Error Value :=
  match v with
  | .null => .error .notAccepted
  | .int n => if fits n then .ok v else .error .integerTooLarge
  | .list _ | .map _ => .error .notStorable
  | _ => .ok v

/-- A value in a column of truth values. -/
def truthValue (v : Value) : Except Error Value :=
  match v with
  | .null => .error .notAccepted
  | _ => if v.isNumber 0 || v.isNumber 1 then .ok (.bool v.truthy) else .error .notStorable

/-- A value, or a default in the place of null. -/
def orDefault (v default : Value) : Value :=
  match v with
  | .null => default
  | _ => v

/-- A rule whose fields the table accepts. -/
def acceptedRule (rule : Rule) : Except Error Rule := do
  let available ← truthValue rule.available
  let dayOfWeek ← required rule.dayOfWeek
  let startTime ← required rule.startTime
  let endTime ← required rule.endTime
  let slotLength ← required rule.slotLength
  let title ← required rule.title
  return { rule with
    dayOfWeek, startTime, endTime, slotLength, available
    title := if title.truthy then title else .text "" }

/-- A value as a column of whole numbers keeps it: a truth value, a whole fraction or the text of
a whole number as that number. -/
def keptNumber (v : Value) : Value :=
  let found := match v with
    | .text s => Text.readStored? s
    | _ => v.toInt?
  match found.filter fits with
  | some n => .int n
  | none => v

/-- A value as a column of text keeps it: a truth value or a number as its text. -/
def keptText (v : Value) : Value :=
  match v with
  | .bool b => .text (if b then "1" else "0")
  | .int _ | .float _ => .text v.plain
  | _ => v

/-- A rule as its columns keep it. -/
def keptRule (rule : Rule) : Except Error Rule := do
  let createdAt ← rule.createdAt.mapM Column.kept
  let updatedAt ← rule.updatedAt.mapM Column.kept
  return { rule with
    dayOfWeek := keptNumber rule.dayOfWeek
    startTime := keptText rule.startTime
    endTime := keptText rule.endTime
    slotLength := keptNumber rule.slotLength
    title := keptText rule.title
    createdAt, updatedAt }

/-- A booking as its columns keep it. -/
def keptBooking (b : Booking) : Except Error Booking := do
  let start ← Column.kept b.start
  let stop ← Column.kept b.stop
  let createdAt ← Column.kept b.createdAt
  return { b with start, stop, createdAt }

/-- A text, or the empty text in the place of a missing one. -/
def textOrEmpty (text : Option String) : Option String := some (text.getD "")

/-- A booking request whose fields the table accepts. -/
def acceptedRequest (request : BookingRequest) : Except Error BookingRequest :=
  match request.email with
  | none => .error .notAccepted
  | some _ => .ok { request with
      source := textOrEmpty request.source
      kind := textOrEmpty request.kind
      description := textOrEmpty request.description
      title := textOrEmpty request.title }

/-- Whether a booking has a start. -/
def startsAt (b : Booking) (start : Instant) : Bool := Column.key b.start == Column.key start

/-- Whether a booking starts within a half-open range. -/
def startsWithin (b : Booking) (start stop : Instant) : Bool :=
  !Column.precedes (Column.key b.start) (Column.key start) &&
    Column.precedes (Column.key b.start) (Column.key stop)

/-- The bookings of a user that are not cancelled, by start. -/
def bookingsOf (r : Records) (user : String) (range : Option (Instant × Instant)) :
    List Booking :=
  let mine := r.bookings.filter fun b => b.user == user && b.status != .cancelled
  let inRange := match range with
    | some (start, stop) => mine.filter (startsWithin · start stop)
    | none => mine
  inRange.mergeSort fun a b => !Column.precedes (Column.key b.start) (Column.key a.start)

/-- The confirmed bookings of a user that start in a half-open range. -/
def confirmedWithin (r : Records) (user : String) (start stop : Instant) : List Booking :=
  r.bookings.filter fun b => b.user == user && b.isConfirmed && startsWithin b start stop

/-- The identifier of the first confirmed booking of a user with a start. -/
def confirmedAt (r : Records) (user : String) (start : Instant) : Option String :=
  (r.bookings.find? fun b => b.user == user && b.isConfirmed && startsAt b start).map (·.id)

/-- Whether a rule has an identifier. -/
def hasRule (r : Records) (id : String) : Bool := r.rules.any (·.id == some id)

/-- Whether a booking has an identifier. -/
def hasBooking (r : Records) (id : String) : Bool := r.bookings.any (·.id == id)

/-- Whether a user has a confirmed booking with a start. -/
def isTaken (r : Records) (user : String) (start : Instant) : Bool :=
  r.bookings.any fun b => b.isConfirmed && b.user == user && startsAt b start

/-- Stores a booking. A booking that the table does not accept, for whatever reason, is reported
as a conflict. -/
def insertBooking (r : Records) (stamp : Stamp) (request : BookingRequest) :
    Except Error (Booking × Records) :=
  match acceptedRequest request with
  | .error _ => .error .alreadyBooked
  | .ok accepted =>
      if hasBooking r stamp.id || isTaken r request.user request.start then
        .error .alreadyBooked
      else do
        let booking := newBooking stamp accepted
        let row ← keptBooking booking
        return (booking, { r with bookings := r.bookings ++ [row] })

/-- Replaces the fields of a stored rule. The reply holds them as they were given. -/
def updateRule (r : Records) (stamp : Stamp) (rule : Rule) :
    Except Error (Option Rule × Records) :=
  match rule.id.bind (r.findRule rule.user) with
  | none => .ok (none, r)
  | some old => do
      let accepted ← acceptedRule rule
      let stored :=
        { accepted with createdAt := old.createdAt, updatedAt := some stamp.now }
      let row ← keptRule stored
      return (some stored, { r with rules := put Rule.id row r.rules })

def perform (r : Records) (stamp : Stamp) :
    (request : Request) → Except Error (request.Reply × Records)
  | .insertRule rule => do
      let available := orDefault rule.available (.bool true)
      let title := orDefault rule.title (.text "")
      let accepted ← acceptedRule { rule with available, title }
      let row ← keptRule (newRule stamp accepted)
      if hasRule r stamp.id then throw .notAccepted
      return (stamp.id, { r with rules := r.rules ++ [row] })
  | .findRule user id => .ok (r.findRule user id, r)
  | .rulesOf user => .ok (r.rulesOf user, r)
  | .updateRule rule => updateRule r stamp rule
  | .bookingsOf user range => .ok (bookingsOf r user range, r)
  | .confirmedWithin user start stop => .ok (confirmedWithin r user start stop, r)
  | .confirmedAt user start _ => .ok (confirmedAt r user start, r)
  | .insertBooking request => insertBooking r stamp request
  | .statusOf id => .ok (r.statusOf id, r)
  | .cancelBooking id =>
      match r.statusOf id with
      | some .confirmed => .ok ((1 : Nat), { r with bookings := cancelOne id r.bookings })
      | _ => .ok ((0 : Nat), r)

end Table

/-- A transaction on tables: the tables as it sees them, whether a write of it was refused, and
whether it has ended. -/
structure Work where
  records : Records
  refused : Bool := false
  ended : Bool := false

/-- Committed tables at work. -/
structure TableDesk where
  records : Records := {}
  supply : Supply

namespace TableDesk

def begin (d : TableDesk) : Work := { records := d.records }

/-- Commits a transaction, unless one of its writes was refused. A transaction that has ended is
left as it is. -/
def commit (d : TableDesk) (w : Work) : Except Error Unit × TableDesk :=
  if w.ended then (.ok (), d)
  else if w.refused then (.error .abandoned, d)
  else (.ok (), { d with records := w.records })

/-- Runs a program, within a transaction if one is given, and gives that transaction back. -/
def serve {α : Type} :
    Program α → Option Work → TableDesk → Except Error α × Option Work × TableDesk
  | .done result, work, d => (.ok result, work, d)
  | .fail cause, work, d => (.error cause, work, d)
  | .opening next, _, d => serve next (some d.begin) d
  | .ask request next, work?, d =>
      match work? with
      | none => (.error .abandoned, none, d)
      | some work =>
          if work.refused then (.error .abandoned, some work, d)
          else
            let supply := d.supply.after request
            match Table.perform work.records d.supply.stamp request with
            | .ok (reply, records) =>
                serve (next reply) (some { work with records }) { d with supply }
            | .error cause => (.error cause, some { work with refused := true }, { d with supply })
  | .closing next, work?, d =>
      match work? with
      | none => (.error .abandoned, none, d)
      | some work =>
          match d.commit work with
          | (.ok (), d) => serve next none d
          | (.error cause, d) => (.error cause, none, d)

end TableDesk

end Bookable.Store
