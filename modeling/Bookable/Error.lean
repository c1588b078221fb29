import Bookable.Time.Instant
import Bookable.Value

/-!
# What can go wrong

`Error` lists the causes for which an operation gives no result. Every cause is of
one `Kind`, which says whose fault it is, and has one wording, given by
`Error.message`.
-/

namespace Bookable

open Time

/-- The kinds of errors. -/
inductive Kind where
  /-- Data that breaks a rule of the domain. -/
  | validation
  /-- A range that does not start before it ends. -/
  | invalidRange
  | notFound
  | conflict
  | alreadyCancelled
  | missingFile
  /-- Settings that cannot be used. -/
  | settings
  /-- A time outside the years 1 to 9999, or an integer too large to be stored. -/
  | overflow
  /-- A value of a kind on which an operation is not defined. -/
  | mistyped
  /-- A number that is too long to be written out, or is not finite where it has to be. -/
  | number
  /-- A record that a table does not accept. -/
  | constraint
  /-- A value that no column can hold. -/
  | unstorable
  /-- A transaction that went on after one of its writes had failed. -/
  | abandoned
  /-- A database that cannot be opened. -/
  | database
  /-- A table cell that cannot be shown. -/
  | unshowable
  deriving DecidableEq, Repr

namespace Kind

/-- The name of a kind. Errors of the domain are reported under these names. -/
def name : Kind → String
  | validation => "ValidationError"
  | invalidRange => "InvalidRangeError"
  | notFound => "NotFoundError"
  | conflict => "ConflictError"
  | alreadyCancelled => "AlreadyCancelledError"
  | missingFile => "missing file"
  | settings => "unusable settings"
  | overflow => "number out of range"
  | mistyped => "value of the wrong kind"
  | number => "unusable number"
  | constraint => "record not accepted"
  | unstorable => "value not storable"
  | abandoned => "transaction given up"
  | database => "unknown database"
  | unshowable => "value not showable"

/-- Whether errors of a kind are part of the booking domain, and so named when they are
reported to a person. -/
def ofDomain : Kind → Bool
  | validation | invalidRange | notFound | conflict | alreadyCancelled => true
  | _ => false

/-- Whether errors of a kind are reported to a person at all. The others are faults. -/
def reported (k : Kind) : Bool :=
  k.ofDomain || k == missingFile || k == settings || k == number

end Kind

/-- A cause of failure. -/
inductive Error where
  /-- A text that names no instant. -/
  | unreadableInstant (text : String)
  /-- A text for a length of time or an interval where an instant is asked for. -/
  | dateMissing (text : String)
  /-- A stored rule's time that cannot be read. -/
  | storedTime (found : Value)
  /-- A time of day that is not a text. -/
  | timeNotText (found : Value)
  /-- A text that is no time of day. -/
  | timeNotHourMinute (found : String)
  | dayOfWeek (found : Value)
  | slotLength (found : Value)
  /-- The times of a new or changed rule in the wrong order. -/
  | timesNotOrdered
  /-- The times of a stored rule in the wrong order. -/
  | storedTimesNotOrdered (rule : Option String)
  /-- The slot length of a stored rule that is not positive. -/
  | storedLengthNotPositive (rule : Option String)
  | emailMissing
  | slotNotAvailable
  /-- One bound of a listing without the other. -/
  | boundMissing
  | malformedRules (path : String)
  | rulesNotList
  | ruleNotMapping (index : Nat)
  | ruleFieldsUnknown (index : Nat) (names : List String)
  | ruleFieldsMissing (index : Nat) (names : List String)
  /-- A range whose start is not before its stop. -/
  | emptyRange (start stop : Instant)
  /-- A listing window whose start is not before its end. -/
  | windowNotOrdered
  /-- A booking request whose start is not before its end. -/
  | requestNotOrdered
  | ruleNotFound
  | bookingNotFound
  | alreadyBooked
  | alreadyCancelled
  | rulesFileMissing (path : String)
  | settingsFileMissing (path : String)
  | malformedSettings (path : String)
  | settingsNotMapping (path : String)
  /-- Settings with a number of unusable values. -/
  | settingsRejected (count : Nat)
  /-- A time that would lie outside the calendar. -/
  | outsideCalendar
  /-- An integer that a column cannot hold. -/
  | integerTooLarge
  | mistyped
  /-- An integer of too many digits where a value has to be written out. -/
  | numberTooLong
  /-- A slot length that is infinite or undefined. -/
  | lengthNotFinite
  | notAccepted
  | notStorable
  | abandoned
  | databaseUnknown
  | notShowable

namespace Error

def kind : Error → Kind
  | unreadableInstant _ | dateMissing _ | storedTime _ | timeNotText _ | timeNotHourMinute _
  | dayOfWeek _ | slotLength _ | timesNotOrdered | storedTimesNotOrdered _
  | storedLengthNotPositive _ | emailMissing | slotNotAvailable | boundMissing
  | malformedRules _ | rulesNotList | ruleNotMapping _ | ruleFieldsUnknown _ _
  | ruleFieldsMissing _ _ => .validation
  | emptyRange _ _ | windowNotOrdered | requestNotOrdered => .invalidRange
  | ruleNotFound | bookingNotFound => .notFound
  | alreadyBooked => .conflict
  | alreadyCancelled => .alreadyCancelled
  | rulesFileMissing _ | settingsFileMissing _ => .missingFile
  | malformedSettings _ | settingsNotMapping _ | settingsRejected _ => .settings
  | outsideCalendar | integerTooLarge => .overflow
  | mistyped => .mistyped
  | numberTooLong | lengthNotFinite => .number
  | notAccepted => .constraint
  | notStorable => .unstorable
  | abandoned => .abandoned
  | databaseUnknown => .database
  | notShowable => .unshowable

/-- The identifier of a rule in a message. -/
def ruleName (rule : Option String) : String := rule.getD "None"

/-- The wording of a cause. Faults have none. -/
def message : Error → String
  | unreadableInstant text => s!"Invalid timestamp: {Text.quoted text}"
  | dateMissing text => s!"Timestamp must include a date: {Text.quoted text}"
  | storedTime found => s!"Invalid time of day: {found.shown}"
  | timeNotText found => s!"Time of day must be a string, got {found.shown}"
  | timeNotHourMinute found => s!"Time of day must be HH:MM, got {Text.quoted found}"
  | dayOfWeek found => s!"day_of_week must be between 0 and 6, got {found.shown}"
  | slotLength found => s!"slot_length_minutes must be a positive integer, got {found.shown}"
  | timesNotOrdered => "end_time must be after start_time"
  | storedTimesNotOrdered rule => s!"end_time must be after start_time for rule {ruleName rule}"
  | storedLengthNotPositive rule =>
      s!"slot_length_minutes must be positive for rule {ruleName rule}"
  | emailMissing => "candidate_email is required"
  | slotNotAvailable => "slot not available"
  | boundMissing => "--start and --end must be given together"
  | malformedRules path => s!"Invalid YAML in {path}"
  | rulesNotList => "Rules file must contain a list of rules."
  | ruleNotMapping index => s!"Rule #{index} must be a mapping"
  | ruleFieldsUnknown index names =>
      s!"Rule #{index} has unknown field(s): {Value.joined names}"
  | ruleFieldsMissing index names => s!"Rule #{index} is missing: {Value.joined names}"
  | emptyRange start stop =>
      s!"Start time {start.spoken} must be before end time {stop.spoken}"
  | windowNotOrdered => "from must be before to"
  | requestNotOrdered => "start must be before end"
  | ruleNotFound => "availability not found"
  | bookingNotFound => "booking not found"
  | alreadyBooked => "slot already booked"
  | alreadyCancelled => "already cancelled"
  | rulesFileMissing path => s!"Rules file not found: {path}"
  | settingsFileMissing path =>
      s!"Config file not found: {path}\nCopy config.example.yaml to config.yaml and adjust " ++
        "database_url."
  | malformedSettings path => s!"Invalid YAML in {path}"
  | settingsNotMapping path => s!"{path} must contain a mapping of settings"
  | settingsRejected count =>
      toString count ++ (if count = 1 then " validation error" else " validation errors") ++
        " for AppConfig"
  | numberTooLong =>
      s!"Exceeds the limit ({Number.digitLimit} digits) for integer string conversion; " ++
        "use sys.set_int_max_str_digits() to increase the limit"
  | lengthNotFinite => "cannot convert float NaN to integer"
  | outsideCalendar | integerTooLarge | mistyped | notAccepted | notStorable | abandoned
  | databaseUnknown | notShowable => ""

/-- The cause that blames a value, if the message about it can be worded. -/
def blaming (found : Value) (cause : Value → Error) : Error :=
  if found.isWritable then cause found else .numberTooLong

end Error

/-- The text of a value, unless it is too long to be written out. -/
def Value.written (v : Value) : Except Error String :=
  if v.isWritable then .ok v.plain else .error .numberTooLong

/-- A result that may be missing because it would lie outside the calendar. -/
def inCalendar {α : Type} : Option α → Except Error α
  | some a => .ok a
  | none => .error .outsideCalendar

end Bookable
