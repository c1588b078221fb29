import Bookable.Time.Timestamp

/-!
# Columns of instants

A table keeps an instant as a date and time in UTC. One dialect writes it without
an offset, the other one marks it as UTC. A timestamp without an offset means UTC
on the way in and on the way out. Without offsets the values are texts of fixed
width, and such a column compares instants as texts.
-/

namespace Bookable.Store

open Time

/-- How a database writes instants. -/
inductive Dialect where
  /-- Without an offset, as text. -/
  | plain
  /-- With the offset of UTC. -/
  | marked
  deriving DecidableEq, Repr

/-- The value of a column: a timestamp. -/
abbrev Bound := Timestamp

namespace Column

/-- The value that a column gets for a timestamp. -/
def bind (dialect : Dialect) (t : Timestamp) : Except Error Bound := do
  let instant ← t.instant .utc .afterChange
  return {
    reading := instant.civil
    offset := match dialect with
      | .plain => none
      | .marked => some 0 }

/-- The instant that a column's value is read back as. -/
def load (b : Bound) : Except Error Instant := b.instant .utc .afterChange

/-- The ISO 8601 text of a column's value. -/
def iso (b : Bound) : String :=
  String.ofList (b.reading.dateDigits ++ 'T' :: b.reading.timeDigits) ++
    (if b.offset.isSome then "+00:00" else "")

/-- The text of fixed width that stands in a column without offsets. -/
def fixedText (b : Bound) : List Char :=
  b.reading.dateDigits ++ ' ' :: Text.paddedDigits 2 b.reading.hour ++
    ':' :: Text.paddedDigits 2 b.reading.minute ++ ':' :: Text.paddedDigits 2 b.reading.second ++
    '.' :: Text.paddedDigits 6 b.reading.micro

/-- An instant as a column without offsets gives it back. -/
def kept (t : Instant) : Except Error Instant := do
  load (← bind .plain t.timestamp)

/-- The text by which a column without offsets finds and sorts an instant. -/
def key (t : Instant) : List Char := fixedText { reading := t.civil }

/-- Whether a text comes before another one, by the first character in which they differ. -/
def precedes (a b : List Char) : Bool := a.lex b fun c d => c.toNat < d.toNat

end Column

end Bookable.Store
