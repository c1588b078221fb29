import Bookable.Time.Reading

/-!
# Texts in looser formats

A date is a year, or a year with month and day of two digits each and a slash, a
colon or nothing before each. A time is an hour and minute, and perhaps a second,
of one or two digits with colons between them, and may end in a fraction. A text
is a date, a time, or a date and a time with or without a blank between them. The
digits may be of any script, and there is no offset.

A text can fit in more than one way. A date with month and day is tried first,
then a year, then a time; the first way that uses the whole text is taken, even
if the date or time it gives does not exist.
-/

namespace Bookable.Time.Loose

/-- Exactly `count` digits of any script. -/
def take : Nat → List Char → Option (List Nat × List Char)
  | 0, rest => some ([], rest)
  | _ + 1, [] => none
  | count + 1, c :: rest => do
      let digit ← Text.digitValue? c
      let (digits, rest) ← take count rest
      return (digit :: digits, rest)

/-- A number of exactly `count` digits. -/
def number (count : Nat) (text : List Char) : Option (Nat × List Char) :=
  (take count text).map fun (digits, rest) => (Text.ofDigits digits, rest)

/-- A number of one or two digits. -/
def short (text : List Char) : Option (Nat × List Char) :=
  match number 2 text with
  | some found => some found
  | none => number 1 text

/-- A text without the slash or colon that it may begin with. -/
def skipMark : List Char → List Char
  | '/' :: rest => rest
  | ':' :: rest => rest
  | rest => rest

/-- The ways to read a date at the front of a text, the preferred one first. -/
def dates (text : List Char) : List (Date × List Char) :=
  match number 4 text with
  | none => []
  | some (year, rest) =>
      let full : Option (Date × List Char) := do
        let (month, rest) ← number 2 (skipMark rest)
        let (day, rest) ← number 2 (skipMark rest)
        return (⟨year, month, day⟩, rest)
      full.toList ++ [(⟨year, 1, 1⟩, rest)]

/-- A fraction at the end of a text: up to nine digits after a point or comma. -/
def fraction : List Char → Option Nat
  | [] => some 0
  | c :: rest =>
      if c = '.' ∨ c = ',' then
        match spanDigits Text.digitValue? rest with
        | ([], _) => none
        | (digits, []) => if digits.length ≤ 9 then some (microsOfFraction digits) else none
        | _ => none
      else none

/-- A time that is the whole text. -/
def time (text : List Char) : Option Clock := do
  let (hour, rest) ← short text
  match rest with
  | ':' :: rest => do
      let (minute, rest) ← short rest
      match rest with
      | ':' :: rest => do
          let (second, rest) ← short rest
          return ⟨hour, minute, second, ← fraction rest⟩
      | rest => return ⟨hour, minute, 0, ← fraction rest⟩
  | _ => none

/-- A time that is the whole text, after the blank it may begin with. -/
def spacedTime : List Char → Option Clock
  | ' ' :: rest => time rest
  | rest => time rest

/-- The ways to read a whole text: a date or none, and a time or none. -/
def ways (text : List Char) : List (Option Date × Option Clock) :=
  ((dates text).filterMap fun (date, rest) =>
    if rest = [] then some (some date, none)
    else (spacedTime rest).map fun time => (some date, some time)) ++
  ((spacedTime text).map fun time => (none, some time)).toList

def read (text : List Char) : Option Reading := do
  let (date?, time?) ← (ways text).head?
  let time := time?.getD .midnight
  if ¬time.Valid then none
  else
    match date? with
    | some date => if date.Valid then some (.moment (time.on date) none) else none
    | none => some (.clock time)

end Bookable.Time.Loose
