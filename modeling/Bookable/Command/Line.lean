import Bookable.Command.Arguments
import Bookable.Rule
import Bookable.Text.WholeNumber

/-!
# Command lines

A command line names a settings file, perhaps, and a command with its arguments.
It is read in two parts, because the settings are loaded in between: a line that
names no known command is wrong in any case, whereas wrong arguments of a command
come to light only after its settings were found in order.
-/

namespace Bookable.Command

/-- What a command is asked to do. -/
inductive Task where
  | initDatabase
  | setAvailability (user file : String)
  | updateAvailability (user rule : String) (changes : RuleChanges)
  | listAvailability (user : String)
  | slots (user : String) (start stop : Option String)
  | book (user start stop email title description source kind : String)
  | bookings (user : String) (start stop : Option String)
  | cancel (booking : String)
  | version

/-- The first part of a command line: the settings file, the name of a command and its
arguments. -/
structure Line where
  settingsFile : Option String
  command : String
  arguments : List String

/-- A part of a command line that was read, or a request for help in its place. -/
inductive Parsed (α : Type) where
  | found (a : α)
  | help
  | wrong

def helpSpec : OptionSpec := { name := "help", takesValue := false }

def commandNames : List String :=
  ["init-db", "set-availability", "update-availability", "list-availability", "slots", "book",
    "bookings", "cancel", "version"]

/-- Reads the first part of a command line. -/
def Line.read (arguments : List String) : Parsed Line :=
  match Arguments.read [{ name := "config", letter := some 'c' }, helpSpec] false {} arguments with
  | none => .wrong
  | some found =>
      if found.has "help" then .help
      else
        match found.others with
        | [] => .wrong
        | command :: rest =>
            if command ∈ commandNames then .found ⟨found.value? "config", command, rest⟩
            else .wrong

def valued (name : String) : OptionSpec := { name }

def flag (name : String) : OptionSpec := { name, takesValue := false }

def specsOf (command : String) : List OptionSpec :=
  if command = "update-availability" then
    [valued "day", valued "start", valued "end", valued "slot-length", valued "title",
      flag "available", flag "unavailable"]
  else if command = "slots" ∨ command = "bookings" then [valued "start", valued "end"]
  else if command = "book" then
    [valued "start", valued "end", { name := "email", letter := some 'e' }, valued "title",
      valued "description", valued "source", valued "type"]
  else []

/-- The whole number that an option gives, if the option is there. -/
def numberOption (a : Arguments) (name : String) : Option (Option Value) :=
  match a.value? name with
  | none => some none
  | some text => (Text.readWhole? text).map fun n => some (.int n)

/-- The text that an option gives, if the option is there. -/
def textOption (a : Arguments) (name : String) : Option Value := (a.value? name).map .text

/-- The changes to a rule that the options of a command line give. -/
def changesOf (a : Arguments) : Option RuleChanges := do
  let available := (a.options.find? fun o => o.1 == "available" || o.1 == "unavailable").map
    fun o => Value.bool (o.1 == "available")
  return {
    dayOfWeek := ← numberOption a "day"
    startTime := textOption a "start"
    endTime := textOption a "end"
    slotLength := ← numberOption a "slot-length"
    available
    title := textOption a "title" }

/-- The task of a command with its arguments. -/
def taskOf (command : String) (a : Arguments) : Option Task :=
  match command, a.others with
  | "init-db", [] => some .initDatabase
  | "set-availability", [user, file] => some (.setAvailability user file)
  | "update-availability", [user, rule] => (changesOf a).map (.updateAvailability user rule)
  | "list-availability", [user] => some (.listAvailability user)
  | "slots", [user] => some (.slots user (a.value? "start") (a.value? "end"))
  | "book", [user] => do
      let start ← a.value? "start"
      let stop ← a.value? "end"
      let email ← a.value? "email"
      return .book user start stop email ((a.value? "title").getD "")
        ((a.value? "description").getD "") ((a.value? "source").getD "cli")
        ((a.value? "type").getD "")
  | "bookings", [user] => some (.bookings user (a.value? "start") (a.value? "end"))
  | "cancel", [booking] => some (.cancel booking)
  | "version", [] => some .version
  | _, _ => none

/-- Reads the second part of a command line. -/
def Task.read (line : Line) : Parsed Task :=
  match Arguments.read (helpSpec :: specsOf line.command) true {} line.arguments with
  | none => .wrong
  | some found =>
      if found.has "help" then .help
      else
        match taskOf line.command found with
        | some task => .found task
        | none => .wrong

end Bookable.Command
