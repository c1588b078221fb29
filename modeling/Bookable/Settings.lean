import Bookable.Error
import Bookable.Folder
import Bookable.Text.WholeNumber
import Bookable.Time.Zone

/-!
# Settings

Settings come from a map of values, or are the default ones. A value may have a
form that is close to the one asked for: a number for a truth value, a text for a
number. Each field that has no usable value is a `Problem`, and all problems are
found at once.
-/

namespace Bookable

open Time

/-- The settings of a command. -/
structure Settings where
  databaseUrl : String := "sqlite:///slotbook.db"
  timezone : String := "UTC"
  logLevel : String := "WARNING"
  echoSql : Bool := false
  slotLength : Int := 30
  windowDays : Int := 7
  deriving DecidableEq, Repr

/-- Why a value is of no use. -/
inductive Fault where
  | notText
  | noTruthValue
  | notTruthValue
  | noNumber
  | notNumber
  | fraction
  | notFinite
  | notMap
  /-- A value of the right form that is refused, with the reason. -/
  | refused (reason : String)
  deriving DecidableEq, Repr

/-- A field without usable value. -/
structure Problem where
  field : String
  fault : Fault
  deriving DecidableEq, Repr

namespace Settings

def asText : Value → Except Fault String
  | .text s => .ok s
  | _ => .error .notText

/-- The words for truth values, in small letters. -/
def truthWords : List (String × Bool) := [
  ("0", false), ("off", false), ("f", false), ("false", false), ("n", false), ("no", false),
  ("1", true), ("on", true), ("t", true), ("true", true), ("y", true), ("yes", true)]

/-- A truth value, the number zero or one, or a word for one of them. -/
def asBool : Value → Except Fault Bool
  | .bool b => .ok b
  | .int n =>
      if n = 0 then .ok false else if n = 1 then .ok true else .error .noTruthValue
  | .float x =>
      match x.toInt? with
      | some n => if n = 0 then .ok false else if n = 1 then .ok true else .error .notTruthValue
      | none => .error .notTruthValue
  | .text s =>
      let word := String.ofList (s.toList.map Char.toLower)
      match truthWords.find? (·.1 == word) with
      | some (_, b) => .ok b
      | none => .error .noTruthValue
  | _ => .error .notTruthValue

/-- A whole number, as a number, a truth value, or a text. A number with a point has to fit into
64 bits. -/
def asInt : Value → Except Fault Int
  | .bool b => .ok (if b then 1 else 0)
  | .int n => .ok n
  | .float x =>
      match x with
      | .finite _ _ _ =>
          match x.toInt? with
          | some n =>
              if -Number.wordBound < n ∧ n < Number.wordBound then .ok n else .error .fraction
          | none => .error .fraction
      | _ => .error .notFinite
  | .text s =>
      match Text.readSetting? s with
      | some n => .ok n
      | none => .error .noNumber
  | _ => .error .notNumber

def asPositive (v : Value) : Except Fault Int := do
  let n ← asInt v
  if 0 < n then return n
  else if Number.isWritable n then
    throw (.refused ("Value must be greater than zero, got " ++ toString n))
  else throw (.refused Error.numberTooLong.message)

def asTimezone [Zones] (v : Value) : Except Fault String := do
  let name ← asText v
  if (Zone.find? name).isSome then return name
  else throw (.refused ("Unknown timezone: " ++ name))

def levels : List String :=
  ["CRITICAL", "FATAL", "ERROR", "WARN", "WARNING", "INFO", "DEBUG", "NOTSET"]

/-- The capital of a letter. Levels are ASCII words, so beside the ASCII letters only those two
matter whose capitals are ASCII letters: the dotless i and the long s. -/
def capital (c : Char) : Char :=
  if c = 'ı' then 'I' else if c = 'ſ' then 'S' else c.toUpper

def asLevel (v : Value) : Except Fault String := do
  let name ← asText v
  let level := String.ofList (name.toList.map capital)
  if level ∈ levels then return level
  else throw (.refused ("Unknown log level: " ++ name))

/-- Whether a text holds a colon with two slashes. -/
def hasScheme : List Char → Bool
  | [] => false
  | ':' :: '/' :: '/' :: _ => true
  | _ :: rest => hasScheme rest

def asDatabase (v : Value) : Except Fault String := do
  let url ← asText v
  if hasScheme url.toList then return url
  else
    throw (.refused ("database_url must be a SQLAlchemy URL, got " ++ Text.quoted url))

/-- A field with its default, and its problem if its value is of no use. -/
def read {α : Type} (entries : List (Value × Value)) (place name : String) (default : α)
    (as : Value → Except Fault α) : α × List Problem :=
  match Value.field? entries name with
  | none => (default, [])
  | some v =>
      match as v with
      | .ok a => (a, [])
      | .error fault => (default, [⟨place ++ name, fault⟩])

/-- The settings that a map gives, or all its problems, in the order of the fields. Entries that
are no settings do not count. -/
def ofEntries [Zones] (entries : List (Value × Value)) : Except (List Problem) Settings :=
  let base : Settings := {}
  let (databaseUrl, p₁) := read entries "" "database_url" base.databaseUrl asDatabase
  let (timezone, p₂) := read entries "" "timezone" base.timezone asTimezone
  let (logLevel, p₃) := read entries "" "log_level" base.logLevel asLevel
  let (echoSql, p₄) := read entries "" "echo_sql" base.echoSql asBool
  let (defaults, p₅) : List (Value × Value) × List Problem :=
    match Value.field? entries "defaults" with
    | none => ([], [])
    | some (.map inner) => (inner, [])
    | some _ => ([], [⟨"defaults", .notMap⟩])
  let (slotLength, p₆) :=
    read defaults "defaults." "slot_length_minutes" base.slotLength asPositive
  let (windowDays, p₇) := read defaults "defaults." "window_days" base.windowDays asPositive
  match p₁ ++ p₂ ++ p₃ ++ p₄ ++ p₅ ++ p₆ ++ p₇ with
  | [] => .ok { databaseUrl, timezone, logLevel, echoSql, slotLength, windowDays }
  | problems => .error problems

/-- Why no settings could be loaded. -/
inductive LoadError where
  | failed (cause : Error)
  | rejected (problems : List Problem)

/-- The cause of a failure to load settings in one error. -/
def LoadError.cause : LoadError → Error
  | failed cause => cause
  | rejected problems => .settingsRejected problems.length

/-- The settings in a file that is printed under a name. -/
def ofDocument [Zones] (shownAs : String) : Option Value → Except LoadError Settings
  | none => .error (.failed (.malformedSettings shownAs))
  | some .null => .ok {}
  | some (.map entries) => (ofEntries entries).mapError .rejected
  | some _ => .error (.failed (.settingsNotMapping shownAs))

/-- The name of the file that is read when none is named. -/
def defaultFile : String := "config.yaml"

/-- The settings in the file at a path, which has to exist, or else in the default file if it
exists. -/
def load [Zones] (folder : Folder) : Option String → Except LoadError Settings
  | some path =>
      match folder.open? path with
      | some document => ofDocument (Folder.plainPath path) document
      | none => .error (.failed (.settingsFileMissing (Folder.plainPath path)))
  | none =>
      match folder.open? defaultFile with
      | some document => ofDocument (folder.path ++ "/" ++ defaultFile) document
      | none => .ok {}

end Settings

end Bookable
