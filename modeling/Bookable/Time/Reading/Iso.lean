import Bookable.Time.Reading

/-!
# ISO 8601 texts

Dates are calendar dates, ordinal dates and week dates, with dashes or without,
and may end after the month or, without dashes, after the year. A time follows a
`T` or one blank. After a date with dashes it is written with colons or as an hour
alone; after any other date, and after a `T` that begins the text, colons may be
left out. A text that begins with hour and colon is a time of day. An offset ends
the text: `Z`, or a sign with hours and perhaps minutes, up to sixty of them.

Lengths of time and intervals are recognised so that they can be told from texts
that mean nothing.
-/

namespace Bookable.Time.Iso

/-- How the parts of a date are set apart, which decides the times that may follow. -/
inductive DateForm where
  | yearAlone
  | dashed
  | compact
  deriving DecidableEq, Repr

def existing (date : Date) : Option Date := if date.Valid then some date else none

/-- The rest of a date after its year and a dash. -/
def readDashed (year : Nat) : List Char → Option (Date × List Char)
  | 'W' :: rest => do
      let (week, rest) ← Text.takeDigits 2 rest
      match rest with
      | '-' :: rest => do
          let (day, rest) ← Text.takeDigits 1 rest
          return (← Date.ofWeek? year week day, rest)
      | rest => return (← Date.ofWeek? year week 1, rest)
  | rest =>
      match Text.takeDigits 3 rest with
      | some (ordinal, rest) => do return (← Date.ofOrdinal? year ordinal, rest)
      | none => do
          let (month, rest) ← Text.takeDigits 2 rest
          match rest with
          | '-' :: rest => do
              let (day, rest) ← Text.takeDigits 2 rest
              return (← existing ⟨year, month, day⟩, rest)
          | rest => return (← existing ⟨year, month, 1⟩, rest)

/-- The rest of a date without dashes after its year. -/
def readCompact (year : Nat) : List Char → Option (Date × List Char)
  | 'W' :: rest => do
      let (week, rest) ← Text.takeDigits 2 rest
      match Text.takeDigits 1 rest with
      | some (day, rest) => return (← Date.ofWeek? year week day, rest)
      | none => return (← Date.ofWeek? year week 1, rest)
  | rest =>
      match Text.takeDigits 4 rest with
      | some (monthDay, rest) => do
          return (← existing ⟨year, monthDay / 100, monthDay % 100⟩, rest)
      | none => do
          let (ordinal, rest) ← Text.takeDigits 3 rest
          return (← Date.ofOrdinal? year ordinal, rest)

/-- A date at the front of a text. -/
def readDate (text : List Char) : Option (Date × DateForm × List Char) := do
  let (year, rest) ← Text.takeDigits 4 text
  match rest with
  | [] => return (← existing ⟨year, 1, 1⟩, .yearAlone, [])
  | '-' :: rest => do
      let (date, rest) ← readDashed year rest
      return (date, .dashed, rest)
  | rest => do
      let (date, rest) ← readCompact year rest
      return (date, .compact, rest)

/-- A fraction of a second at the front of a text, if there is one. -/
def readFraction : List Char → Option (Nat × List Char)
  | c :: rest =>
      if c = '.' ∨ c = ',' then
        match spanDigits Text.asciiDigit? rest with
        | ([], _) => none
        | (digits, rest) => some (microsOfFraction digits, rest)
      else some (0, c :: rest)
  | [] => some (0, [])

/-- The rest of a time after its hour and a colon. -/
def readColons (hour : Nat) (text : List Char) : Option (Clock × List Char) := do
  let (minute, rest) ← Text.takeDigits 2 text
  match rest with
  | ':' :: rest => do
      let (second, rest) ← Text.takeDigits 2 rest
      let (micro, rest) ← readFraction rest
      return (⟨hour, minute, second, micro⟩, rest)
  | rest => return (⟨hour, minute, 0, 0⟩, rest)

/-- The rest of a time without colons after its hour. -/
def readRun (hour : Nat) (text : List Char) : Option (Clock × List Char) :=
  match Text.takeDigits 2 text with
  | none => some (⟨hour, 0, 0, 0⟩, text)
  | some (minute, rest) =>
      match Text.takeDigits 2 rest with
      | none => some (⟨hour, minute, 0, 0⟩, rest)
      | some (second, rest) => do
          let (micro, rest) ← readFraction rest
          return (⟨hour, minute, second, micro⟩, rest)

/-- A time of day at the front of a text; `runs` permits minutes without a colon. -/
def readTime (runs : Bool) (text : List Char) : Option (Clock × List Char) := do
  let (hour, rest) ← Text.takeDigits 2 text
  let (time, rest) ←
    match rest with
    | ':' :: rest => readColons hour rest
    | rest => if runs then readRun hour rest else some (⟨hour, 0, 0, 0⟩, rest)
  if time.Valid then some (time, rest) else none

/-- Hours and perhaps minutes of an offset, as minutes. -/
def readHours (text : List Char) : Option (Nat × List Char) := do
  let (hours, rest) ← Text.takeDigits 2 text
  let (minutes, rest) ←
    match rest with
    | ':' :: rest => Text.takeDigits 2 rest
    | [] => some (0, [])
    | rest => Text.takeDigits 2 rest
  if minutes ≤ 60 then some (60 * hours + minutes, rest) else none

/-- The offset that ends a text, in minutes; `none` inside when the text ends without one. -/
def readOffset : List Char → Option (Option Int)
  | [] => some none
  | ['Z'] => some (some 0)
  | '+' :: rest =>
      match readHours rest with
      | some (minutes, []) => some (some minutes)
      | _ => none
  | '-' :: rest =>
      match readHours rest with
      | some (minutes, []) => some (some (-(minutes : Int)))
      | _ => none
  | _ => none

/-- Whether an offset is less than a day, as an offset of a date and time has to be. -/
def offsetFits : Option Int → Bool
  | some offset => offset.natAbs < 1440
  | none => true

/-- A time of day alone. Its offset is read and dropped. -/
def readClock (runs : Bool) (text : List Char) : Option Reading := do
  let (time, rest) ← readTime runs text
  let _ ← readOffset rest
  return .clock time

/-- A date, or a date and time. -/
def readMoment (text : List Char) : Option Reading := do
  let (date, form, rest) ← readDate text
  match rest with
  | [] => return .moment (Clock.midnight.on date) none
  | c :: rest => do
      if (c = 'T' ∨ c = ' ') ∧ form ≠ .yearAlone then
        let (time, rest) ← readTime (form = .compact) rest
        let offset ← readOffset rest
        if offsetFits offset then return .moment (time.on date) offset else none
      else none

/-- A number in a length of time, with a mark for a fraction. -/
def readAmount (text : List Char) : Option (Bool × List Char) :=
  match spanDigits Text.asciiDigit? text with
  | ([], _) => none
  | (_, c :: rest) =>
      if c = '.' ∨ c = ',' then
        match spanDigits Text.asciiDigit? rest with
        | ([], _) => none
        | (_, rest) => some (true, rest)
      else some (false, c :: rest)
  | (_, []) => none

/-- Reads amounts of the given units in their order, each at most once, and gives what
follows. Only the last amount of all may have a fraction. -/
def readAmounts : List Char → List Char → Option (List Char)
  | [], text => some text
  | unit :: units, text =>
      match readAmount text with
      | some (fraction, c :: rest) =>
          if c ≠ unit then readAmounts units text
          else if fraction then (if rest = [] then some [] else none)
          else readAmounts units rest
      | _ => some text

/-- Whether a text is a length of time, after its `P`, which needs something after it. -/
def isLength (text : List Char) : Bool :=
  match readAmounts ['W'] text with
  | some [] => text ≠ []
  | _ =>
      match readAmounts ['Y', 'M', 'D'] text with
      | some [] => true
      | some ('T' :: rest) => readAmounts ['H', 'M', 'S'] rest == some []
      | _ => false

/-- The reading of an ISO 8601 text that is no interval. -/
def read (text : List Char) : Option Reading :=
  match text with
  | 'P' :: rest => if isLength rest then some .span else none
  | 'T' :: rest => readClock true rest
  | _ :: _ :: ':' :: _ => readClock false text
  | _ => readMoment text

/-- Whether a text is a date without a time. -/
def isDate (text : List Char) : Bool :=
  match readDate text with
  | some (_, _, []) => true
  | _ => false

/-- Whether two texts are the ends of an interval: two dates, two dates with times, or one of
these and a length of time. -/
def isInterval (first last : List Char) : Bool :=
  match read first, read last with
  | some (.moment _ _), some (.moment _ _) => isDate first == isDate last
  | some (.moment _ _), some .span => true
  | some .span, some (.moment _ _) => true
  | _, _ => false

def readInterval (text : List Char) : Option Reading :=
  match text.span (· != '/') with
  | (first, _ :: last) =>
      if '/' ∉ last ∧ isInterval first last then some .span else none
  | _ => none

end Bookable.Time.Iso
