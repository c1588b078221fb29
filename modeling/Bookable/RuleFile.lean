import Bookable.Folder
import Bookable.Rule

/-!
# Rules files

A rules file holds a list of maps, one for each rule. A map has to have a day and
two times, may have other fields of a rule, and has no further field. A time that
was written without quotes may have been taken for a whole number, that of its
minutes since midnight, and is turned back into a time.
-/

namespace Bookable.RuleFile

/-- The names of the fields of a rule. -/
def fieldNames : List String :=
  ["day_of_week", "start_time", "end_time", "slot_length_minutes", "available", "title"]

/-- The names of the fields that a rule has to have, in alphabetical order. -/
def requiredNames : List String := ["day_of_week", "end_time", "start_time"]

/-- A whole number with at least two characters, filled with zeros on the left. -/
def atLeastTwo (n : Int) : String :=
  if n < 0 then toString n else Text.padded 2 n.toNat

/-- A time of day as text. A number counts minutes since midnight. -/
def timeText : Value → Except Error Value
  | .int n =>
      if Number.isWritable (n / 60) then
        .ok (.text (atLeastTwo (n / 60) ++ ":" ++ atLeastTwo (n % 60)))
      else .error .numberTooLong
  | v => v.written.map .text

/-- The keys of a map as texts, if all of them are texts. -/
def textKeys : List Value → Option (List String)
  | [] => some []
  | .text s :: rest => (textKeys rest).map (s :: ·)
  | _ :: _ => none

/-- Whether a value is the name of a field of a rule. -/
def isFieldName (v : Value) : Bool := fieldNames.any v.isText

/-- The draft of a rule from the item with a number, counted from one. Unknown fields are named
in alphabetical order, which keys that are not texts do not have. -/
def draft (defaultLength : Int) (index : Nat) : Value → Except Error RuleDraft
  | .map entries => do
      let unknown := (entries.map (·.1)).filter fun key => !isFieldName key
      match textKeys unknown with
      | none => throw .mistyped
      | some [] => pure ()
      | some names => throw (.ruleFieldsUnknown index (names.mergeSort fun a b => a ≤ b))
      let missing := requiredNames.filter fun name => (Value.field? entries name).isNone
      unless missing.isEmpty do throw (.ruleFieldsMissing index missing)
      let field (name : String) (default : Value) : Value :=
        (Value.field? entries name).getD default
      let startTime ← timeText (field "start_time" .null)
      let endTime ← timeText (field "end_time" .null)
      let title := field "title" .null
      return {
        dayOfWeek := field "day_of_week" .null
        startTime
        endTime
        slotLength := field "slot_length_minutes" (.int defaultLength)
        available := field "available" (.bool true)
        title := if title.truthy then title else .text "" }
  | _ => throw (.ruleNotMapping index)

/-- The drafts of the items from a number on. -/
def drafts (defaultLength : Int) (index : Nat) : List Value → Except Error (List RuleDraft)
  | [] => return []
  | item :: rest => do
      let first ← draft defaultLength index item
      let others ← drafts defaultLength (index + 1) rest
      return first :: others

/-- The drafts in a document. A document that counts as false holds none. -/
def ofDocument (defaultLength : Int) (v : Value) : Except Error (List RuleDraft) :=
  if v.truthy then
    match v with
    | .list items => drafts defaultLength 1 items
    | _ => .error .rulesNotList
  else .ok []

/-- The drafts in the file at a path. -/
def load (folder : Folder) (path : String) (defaultLength : Int) :
    Except Error (List RuleDraft) :=
  match folder.open? path with
  | none => .error (.rulesFileMissing (Folder.plainPath path))
  | some none => .error (.malformedRules (Folder.plainPath path))
  | some (some v) => ofDocument defaultLength v

end Bookable.RuleFile
