import Bookable.Store.Supply
import Bookable.Text.Cut
import Bookable.Text.WholeNumber

/-!
# Archives

Committed records as text, for a store that outlives the command that wrote it.
Each record is a line, and its fields stand between tabs. A backslash announces a
tab, a line feed or a backslash that belongs to a field, so no field can be taken
for two.
-/

namespace Bookable.Store

open Time

/-- Committed records, and the number of identifiers used up so far. -/
structure Archive where
  records : Records := {}
  issued : Nat := 0

namespace Archive

/-- A field as it stands in a line. -/
def escaped : List Char → List Char
  | [] => []
  | '\\' :: rest => '\\' :: '\\' :: escaped rest
  | '\t' :: rest => '\\' :: 't' :: escaped rest
  | '\n' :: rest => '\\' :: 'n' :: escaped rest
  | c :: rest => c :: escaped rest

/-- The field that stands in a line. -/
def unescaped? : List Char → Option (List Char)
  | [] => some []
  | '\\' :: '\\' :: rest => (unescaped? rest).map ('\\' :: ·)
  | '\\' :: 't' :: rest => (unescaped? rest).map ('\t' :: ·)
  | '\\' :: 'n' :: rest => (unescaped? rest).map ('\n' :: ·)
  | '\\' :: _ => none
  | c :: rest => (unescaped? rest).map (c :: ·)

def line (fields : List String) : List Char :=
  Text.joinWith '\t' (fields.map fun field => escaped field.toList)

def fields? (line : List Char) : Option (List String) :=
  ((Text.cutAt '\t' line).mapM unescaped?).map (·.map String.ofList)

/-- A value as a field. Only values that a table keeps have a field of their own. -/
def ofValue : Value → String
  | .bool b => if b then "yes" else "no"
  | .int n => toString n
  | .text s => "=" ++ s
  | _ => ""

def value? (field : String) : Option Value :=
  if field = "" then some .null
  else if field = "yes" then some (.bool true)
  else if field = "no" then some (.bool false)
  else
    match field.toList with
    | '=' :: text => some (.text (String.ofList text))
    | _ => (Text.readStored? field).map .int

/-- A text that may be missing as a field. -/
def ofOptional : Option String → String
  | some s => "=" ++ s
  | none => ""

/-- The text of a field that may be missing. -/
def optional? (field : String) : Option (Option String) :=
  match value? field with
  | some (.text s) => some (some s)
  | some .null => some none
  | _ => none

def ofInstant (t : Instant) : String := toString t.micros

def instant? (field : String) : Option Instant :=
  (Text.readStored? field).bind Instant.ofMicros?

def ofRule (r : Rule) : List String :=
  ["rule", ofOptional r.id, r.user, ofValue r.dayOfWeek, ofValue r.startTime, ofValue r.endTime,
    ofValue r.slotLength, ofValue r.available, ofValue r.title,
    (r.createdAt.map ofInstant).getD "", (r.updatedAt.map ofInstant).getD ""]

def ofBooking (b : Booking) : List String :=
  ["booking", b.id, b.user, ofOptional b.email, ofInstant b.start, ofInstant b.stop,
    b.status.word, ofOptional b.source, ofOptional b.kind, ofOptional b.description,
    ofOptional b.title, ofInstant b.createdAt]

/-- The state that a word stands for. -/
def status? (word : String) : Option Status :=
  [Status.confirmed, Status.cancelled].find? (·.word == word)

/-- An archive with the record of some fields added at its end. -/
def add? (a : Archive) : List String → Option Archive
  | ["issued", n] => do
      let n ← Text.readStored? n
      return { a with issued := n.toNat }
  | ["rule", id, user, dayOfWeek, startTime, endTime, slotLength, available, title, created,
      updated] => do
      let rule : Rule := {
        id := ← optional? id
        user
        dayOfWeek := ← value? dayOfWeek
        startTime := ← value? startTime
        endTime := ← value? endTime
        slotLength := ← value? slotLength
        available := ← value? available
        title := ← value? title
        createdAt := instant? created
        updatedAt := instant? updated }
      return { a with records := { a.records with rules := a.records.rules ++ [rule] } }
  | ["booking", id, user, email, start, stop, status, source, kind, description, title,
      created] => do
      let booking : Booking := {
        id
        user
        email := ← optional? email
        start := ← instant? start
        stop := ← instant? stop
        status := ← status? status
        source := ← optional? source
        kind := ← optional? kind
        description := ← optional? description
        title := ← optional? title
        createdAt := ← instant? created }
      return { a with records := { a.records with bookings := a.records.bookings ++ [booking] } }
  | _ => none

def text (a : Archive) : String :=
  let lines := ["issued", toString a.issued] :: a.records.rules.map ofRule ++
    a.records.bookings.map ofBooking
  String.ofList (Text.joinWith '\n' (lines.map line) ++ ['\n'])

def read? (text : String) : Option Archive := do
  let lines := (Text.cutAt '\n' text.toList).filter (!·.isEmpty)
  let found ← lines.mapM fields?
  found.foldlM add? {}

end Archive

end Bookable.Store
