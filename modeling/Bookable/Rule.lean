import Bookable.Interval
import Bookable.Time.OfDay

/-!
# Availability rules

A rule opens a window on one weekday of every week, to be cut into slots of a
fixed length. Its fields are kept as they were stored, which may be in a shape
that no new rule is allowed: times with seconds or further text after the minute
are read by their first five characters.

New and changed rules are checked before they are stored, by `Rule.checked`, and
stored rules are checked again whenever they are used, by `Rule.windowOn`.
-/

namespace Bookable

open Time

/-- An availability rule. A rule that has not been stored has no identifier. -/
structure Rule where
  id : Option String := none
  user : String
  dayOfWeek : Value
  startTime : Value
  endTime : Value
  slotLength : Value
  available : Value := .bool true
  title : Value := .text ""
  createdAt : Option Instant := none
  updatedAt : Option Instant := none
  deriving Inhabited

/-- The fields of a rule that a caller gives for a new one. -/
structure RuleDraft where
  dayOfWeek : Value
  startTime : Value
  endTime : Value
  slotLength : Value
  available : Value := .bool true
  title : Value := .text ""

/-- New values for fields of a rule. A field without one keeps its value. -/
structure RuleChanges where
  dayOfWeek : Option Value := none
  startTime : Option Value := none
  endTime : Option Value := none
  slotLength : Option Value := none
  available : Option Value := none
  title : Option Value := none

/-- The time of day that a caller gives for a new or changed rule. -/
def givenTime : Value → Except Error OfDay
  | .text s =>
      match OfDay.read? (Text.stripped s.toList) with
      | some time => .ok time
      | none => .error (.timeNotHourMinute s)
  | found => .error (.blaming found .timeNotText)

/-- The time of day of a stored rule, read from its first five characters. -/
def storedTime : Value → Except Error OfDay
  | .text s =>
      if s.length < 5 then .error (.storedTime (.text s))
      else
        match OfDay.read? (s.toList.take 5) with
        | some time => .ok time
        | none => .error (.storedTime (.text s))
  | .null => .error (.storedTime .null)
  | .list items =>
      if items.length < 5 then .error (.blaming (.list items) .storedTime) else .error .mistyped
  | .map entries =>
      if entries.length < 5 then .error (.blaming (.map entries) .storedTime) else .error .mistyped
  | _ => .error .mistyped

/-- A time of day as a rule's field holds it. -/
def Value.ofTime (time : OfDay) : Value := .text (String.ofList time.text)

/-- The times of a rule with the given fields, if the fields are those of a rule: a whole number
from 0 to 6 for the day, a positive whole number for the slot length, and two times of day whose
texts are in order. Truth values are not numbers here. The first field that is wrong is blamed. -/
def Rule.checked (dayOfWeek startTime endTime slotLength : Value) :
    Except Error (OfDay × OfDay) := do
  match dayOfWeek with
  | .int n => unless 0 ≤ n ∧ n ≤ 6 do throw (.blaming dayOfWeek .dayOfWeek)
  | _ => throw (.blaming dayOfWeek .dayOfWeek)
  match slotLength with
  | .int n => unless 0 < n do throw (.blaming slotLength .slotLength)
  | _ => throw (.blaming slotLength .slotLength)
  let start ← givenTime startTime
  let stop ← givenTime endTime
  unless start.writtenBefore stop do throw .timesNotOrdered
  return (start, stop)

/-- Whether a slot length counts as positive. What is no number cannot be compared. -/
def lengthCounts : Value → Except Error Bool
  | .int n => .ok (0 < n)
  | .bool b => .ok b
  | .float x => .ok (!x.isAtMostZero)
  | _ => .error .mistyped

/-- A slot length in microseconds. -/
def slotMicros : Value → Except Error Int
  | .int n => .ok (n * minute)
  | .bool b => .ok (if b then minute else 0)
  | .float (.finite negative mantissa exponent) =>
      let (num, den) := Number.Binary.ratio mantissa exponent
      let micros : Int := Number.roundDiv (num * minute) den
      .ok (if negative then -micros else micros)
  | .float _ => .error .lengthNotFinite
  | _ => .error .mistyped

namespace Rule

def isAvailable (r : Rule) : Bool := r.available.truthy

/-- Whether a rule is for a weekday, Sunday being 0. -/
def isFor (r : Rule) (weekday : Nat) : Bool := r.dayOfWeek.isNumber weekday

/-- The window of a rule on a day. -/
def windowOn (r : Rule) (day : Nat) : Except Error Interval := do
  let start ← storedTime r.startTime
  let stop ← storedTime r.endTime
  unless start.minutes < stop.minutes do throw (.storedTimesNotOrdered r.id)
  unless ← lengthCounts r.slotLength do throw (.storedLengthNotPositive r.id)
  let start ← inCalendar (Instant.ofMicros? (day * Time.day + start.micros : Nat))
  let stop ← inCalendar (Instant.ofMicros? (day * Time.day + stop.micros : Nat))
  Interval.between start stop

/-- A stored time cut to the length of a time of day. -/
def cutTime : Value → Except Error Value
  | .text s => .ok (.text (String.ofList (s.toList.take 5)))
  | .list items => .ok (.list (items.take 5))
  | _ => .error .mistyped

/-- A rule with new values for some of its fields. Times that are not replaced are cut to five
characters. -/
def merged (r : Rule) (changes : RuleChanges) : Except Error Rule := do
  return { r with
    dayOfWeek := changes.dayOfWeek.getD r.dayOfWeek
    startTime := changes.startTime.getD (← cutTime r.startTime)
    endTime := changes.endTime.getD (← cutTime r.endTime)
    slotLength := changes.slotLength.getD r.slotLength
    available := changes.available.getD r.available
    title := changes.title.getD r.title }

/-- A rule with its times in normal form, if its fields are those of a rule. -/
def normalized (r : Rule) : Except Error Rule := do
  let (start, stop) ← checked r.dayOfWeek r.startTime r.endTime r.slotLength
  return { r with startTime := .ofTime start, endTime := .ofTime stop }

end Rule

/-- The rule of a user with the fields of a draft. A title that counts as false is empty. -/
def RuleDraft.rule (d : RuleDraft) (user : String) : Rule where
  user := user
  dayOfWeek := d.dayOfWeek
  startTime := d.startTime
  endTime := d.endTime
  slotLength := d.slotLength
  available := d.available
  title := if d.title.truthy then d.title else .text ""

end Bookable
