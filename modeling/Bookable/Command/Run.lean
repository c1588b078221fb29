import Bookable.Command.Line
import Bookable.Command.Screen
import Bookable.RuleFile
import Bookable.Service.Typed
import Bookable.Settings
import Bookable.Store.Table

/-!
# Running a command

A command reads its settings, works on the database that they name, and shows what
came of it. It ends with exit code 0, with 1 after an error, or with 2 if the
command line was wrong, in which case nothing is shown. An error that is not
reported to a person is the `fault` of the run; what was shown before it stays.
-/

namespace Bookable.Command

open Time Store

/-- What surrounds a command: files, the tables of each database by path, and the supply of
stamps. -/
structure World where
  folder : Folder
  databases : List (String × Records) := []
  supply : Supply

/-- What a command left: its exit code, what it showed, and the fault that ended it, if any. -/
structure Run where
  exit : Nat
  shown : List Item := []
  fault : Option Kind := none

namespace Run

def well (shown : List Item) : Run := { exit := 0, shown }

def misused : Run := { exit := 2 }

/-- A run that ends in an error after something was shown. -/
def failed (shown : List Item) (e : Error) : Run :=
  if e.kind.reported then { exit := 1, shown := shown ++ [errorLine e] }
  else { exit := 1, shown, fault := some e.kind }

/-- A run that ends with what an expression gives, or in its error. An error at this point is a
fault, whatever its kind. -/
def showing (shown : List Item) (rest : Except Error (List Item)) : Run :=
  match rest with
  | .ok items => well (shown ++ items)
  | .error e => { exit := 1, shown, fault := some e.kind }

end Run

/-- The path of the database at an address, or nothing for a database that lives no longer than
the command. Only addresses of one kind are known. -/
def databasePath (url : String) : Except Error (Option String) :=
  let scheme := url.toList.takeWhile fun c => c != ':' && c != '+'
  let rest := (url.toList.dropWhile (· != ':')).drop 3
  if String.ofList scheme = "sqlite" then
    match rest with
    | [] => .ok none
    | '/' :: path =>
        let file := String.ofList (path.takeWhile (· != '?'))
        if file = "" ∨ file = ":memory:" then .ok none
        else .ok (some (Folder.plainPath file))
    | _ => .error .databaseUnknown
  else .error .databaseUnknown

/-- The path of the database on which a command line works, if it comes to that. -/
def databaseOf [Zones] (folder : Folder) (arguments : List String) : Option String :=
  match Line.read arguments with
  | .found line =>
      match Settings.load folder line.settingsFile with
      | .ok settings => (databasePath settings.databaseUrl).toOption.join
      | .error _ => none
  | _ => none

namespace World

/-- Runs a program on the database of an address. -/
def serve {α : Type} (w : World) (url : String) (program : Program α) :
    Except Error α × World :=
  match databasePath url with
  | .error e => (.error e, w)
  | .ok path =>
      let records := (path.bind fun p => (w.databases.find? (·.1 == p)).map (·.2)).getD {}
      let (result, _, desk) := TableDesk.serve program none { records, supply := w.supply }
      let databases := match path with
        | some p => (p, desk.records) :: w.databases.filter (·.1 != p)
        | none => w.databases
      (result, { w with databases, supply := desk.supply })

end World

/-- A text that an option gave, if there is anything in it. -/
def filled (text : Option String) : Option String := text.filter (· != "")

/-- The lines of slots one after the other, up to one that cannot be shown. -/
def showSlots (zone : Zone) (shown : List Item) : List Interval → Run
  | [] => .well shown
  | slot :: rest =>
      match slotLines zone slot with
      | .ok items => showSlots zone (shown ++ items) rest
      | .error e => .showing shown (.error e)

def perform [Zones] (w : World) (settings : Settings) : Task → Run × World :=
  let zone := (Zone.find? settings.timezone).getD .utc
  let instant (text : String) := Instant.read w.supply.now settings.timezone text
  let serve {α : Type} (program : Program α) (show_ : α → Run) : Run × World :=
    match w.serve settings.databaseUrl program with
    | (.ok a, w) => (show_ a, w)
    | (.error e, w) => (.failed [] e, w)
  let given {α : Type} (input : Except Error α) (next : α → Run × World) : Run × World :=
    match input with
    | .ok a => next a
    | .error e => (.failed [] e, w)
  fun
  | .version =>
      (.well [.line "\n[bold cyan]slotbook[/bold cyan] version [bold]0.1.0[/bold]\n"], w)
  | .initDatabase =>
      serve (pure ()) fun () =>
        .well [.line ("[green]✓ Database ready:[/green] " ++ settings.databaseUrl)]
  | .setAvailability user file =>
      given (RuleFile.load w.folder file settings.slotLength) fun drafts =>
        serve (Service.setAvailability user drafts) fun saved =>
          .showing [.line (s!"[bold green]✓ {saved.length} rule(s) saved.[/bold green]")] do
            return [.table (← ruleTable ("Rules saved for " ++ user) saved)]
  | .updateAvailability user rule changes =>
      serve (Service.updateAvailability user rule changes) fun updated =>
        .showing [.line "[bold green]✓ Rule updated.[/bold green]"] do
          return [.table (← ruleTable ("Rule " ++ rule) [updated])]
  | .listAvailability user =>
      serve (Service.listAvailability user) fun rules =>
        if rules.isEmpty then
          .well [.line ("[yellow]No availability rules for " ++ user ++ ".[/yellow]")]
        else
          .showing [] do return [.table (← ruleTable ("Availability of " ++ user) rules)]
  | .slots user start stop =>
      let bounds : Except Error (Instant × Instant) := do
        let first ← match filled start with
          | some text => instant text
          | none => pure w.supply.now
        let last ← match filled stop with
          | some text => instant text
          | none => inCalendar (first.shift? (settings.windowDays * day))
        return (first, last)
      given bounds fun (first, last) =>
        serve (Service.listSlots user first last) fun found =>
          if found.isEmpty then
            .well [.line "[yellow]⚠ No free slots found in this window.[/yellow]"]
          else
            showSlots zone
              [.line (s!"[bold green]✓ {found.length} free slot(s):[/bold green]\n")] found
  | .book user start stop email title description source kind =>
      let request : Except Error BookingRequest := do
        return {
          user
          email := some email
          start := ← instant start
          stop := ← instant stop
          source := some source
          kind := some kind
          description := some description
          title := some title }
      given request fun request =>
        serve (Service.createBooking request) fun booking =>
          .showing [.line ("[bold green]✓ Booking " ++ booking.id ++ " confirmed.[/bold green]")]
            do return [.table (← bookingTable zone [booking])]
  | .bookings user start stop =>
      let bounds : Except Error (Option Instant × Option Instant) := do
        unless start.isSome = stop.isSome do throw .boundMissing
        let read (text : Option String) : Except Error (Option Instant) :=
          match filled text with
          | some text => (instant text).map some
          | none => .ok none
        return (← read start, ← read stop)
      given bounds fun (first, last) =>
        serve (Service.listBookings user first last) fun found =>
          if found.isEmpty then .well [.line ("[yellow]No bookings for " ++ user ++ ".[/yellow]")]
          else .showing [] do return [.table (← bookingTable zone found)]
  | .cancel booking =>
      serve (Service.cancelBooking booking) fun () =>
        .well [.line ("[green]✓ Booking " ++ booking ++ " cancelled.[/green]")]

def run [Zones] (w : World) (arguments : List String) : Run × World :=
  match Line.read arguments with
  | .wrong => (.misused, w)
  | .help => (.well [], w)
  | .found line =>
      match Settings.load w.folder line.settingsFile with
      | .error e => (.failed [] e.cause, w)
      | .ok settings =>
          match Task.read line with
          | .wrong => (.misused, w)
          | .help => (.well [], w)
          | .found task => perform w settings task

end Bookable.Command
