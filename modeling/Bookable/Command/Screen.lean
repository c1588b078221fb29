import Bookable.Booking
import Bookable.Rule
import Bookable.Time.Zone

/-!
# What a command shows

A command shows lines of text, which may hold marks for colours, and tables. Dates
and times are those of a zone, except for the ISO texts of slots and the times at
which rules were changed.
-/

namespace Bookable.Command

open Time

/-- A table: its title, the headers of its columns, and its rows of cells. -/
structure Table where
  title : String
  columns : List String
  rows : List (List String)
  deriving DecidableEq, Repr

/-- Something that is shown. -/
inductive Item where
  | line (text : String)
  | table (t : Table)
  deriving DecidableEq, Repr

def weekdayNames : List String :=
  ["Sunday", "Monday", "Tuesday", "Wednesday", "Thursday", "Friday", "Saturday"]

/-- The name of a weekday that a rule holds. -/
def weekdayName (v : Value) : String :=
  match v.toInt? with
  | some n => weekdayNames.getD n.toNat ""
  | none => ""

/-- Day, month and year with points. -/
def dottedDate (c : Civil) : String :=
  Text.padded 2 c.date.day ++ "." ++ Text.padded 2 c.date.month ++ "." ++ toString c.date.year

/-- The first three letters of the weekday of a date. -/
def shortWeekday (c : Civil) : String :=
  String.ofList ((weekdayNames.getD (weekday c.date.number) "").toList.take 3)

/-- Date and time to the second. -/
def dateTime (t : Instant) : String :=
  let c := t.civil
  toString c.date.year ++ "-" ++ Text.padded 2 c.date.month ++ "-" ++ Text.padded 2 c.date.day ++
    " " ++ c.hourMinute ++ ":" ++ Text.padded 2 c.second

/-- A cell of a table, which can only be text. -/
def cell : Value → Except Error String
  | .text s => .ok s
  | .null => .ok ""
  | _ => .error .notShowable

def ruleRow (r : Rule) : Except Error (List String) := do
  let start ← r.startTime.written
  let stop ← r.endTime.written
  let length ← r.slotLength.written
  let title ← cell r.title
  return [
    r.id.getD "", weekdayName r.dayOfWeek, start ++ " - " ++ stop, length,
    if r.isAvailable then "yes" else "no", title, (r.updatedAt.map dateTime).getD ""]

def ruleTable (title : String) (rules : List Rule) : Except Error Table := do
  return {
    title
    columns := ["ID", "Day", "Window", "Slot (min)", "Available", "Title", "Updated (UTC)"]
    rows := ← rules.mapM ruleRow }

/-- The row of a booking in a zone. -/
def bookingRow (zone : Zone) (b : Booking) : Except Error (List String) := do
  let start ← inCalendar (zone.reading? b.start)
  let stop ← inCalendar (zone.reading? b.stop)
  return [
    b.id, shortWeekday start ++ " " ++ dottedDate start ++ " " ++ start.hourMinute,
    stop.hourMinute, b.email.getD "", b.status.word, b.title.getD ""]

def bookingTable (zone : Zone) (bookings : List Booking) : Except Error Table := do
  return {
    title := "Bookings"
    columns := ["ID", "Start", "End", "Candidate", "Status", "Title"]
    rows := ← bookings.mapM (bookingRow zone) }

/-- The two lines of a slot: in a zone, and in ISO 8601. -/
def slotLines (zone : Zone) (slot : Interval) : Except Error (List Item) := do
  let start ← inCalendar (zone.reading? slot.start)
  let stop ← inCalendar (zone.reading? slot.stop)
  return [
    .line ("  " ++ shortWeekday start ++ ", " ++ dottedDate start ++ " | " ++ start.hourMinute ++
      " – " ++ stop.hourMinute ++ " (" ++ toString slot.minutes ++ " min)"),
    .line ("    [dim]" ++ slot.start.iso ++ " → " ++ slot.stop.iso ++ "[/dim]")]

/-- The line that reports an error to a person. -/
def errorLine (e : Error) : Item :=
  if e.kind.ofDomain then
    .line ("[bold red]Error (" ++ e.kind.name ++ "):[/bold red] " ++ e.message)
  else .line ("[bold red]Error:[/bold red] " ++ e.message)

def marks : List String := [
  "[bold cyan]", "[/bold cyan]", "[bold green]", "[/bold green]", "[bold red]", "[/bold red]",
  "[green]", "[/green]", "[yellow]", "[/yellow]", "[bold]", "[/bold]", "[dim]", "[/dim]"]

def withoutMarks (text : String) : String :=
  marks.foldl (fun text mark => text.replace mark "") text

/-- What is shown on a screen without colours. -/
def Item.plainLines : Item → List String
  | .line text => [withoutMarks text]
  | .table t => t.title :: (t.columns :: t.rows).map (" | ".intercalate ·)

end Bookable.Command
