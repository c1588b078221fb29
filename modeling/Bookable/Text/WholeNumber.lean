import Bookable.Number.Binary
import Bookable.Text.Blank
import Bookable.Text.Digit

/-!
# Whole numbers in typed text

Three readers. `readWhole?` is for numbers on a command line: blanks around, a
sign, digits of any script, but not too many, and single underscores between them.
`readSetting?` is for numbers in a settings file that were written as text: white
space around, a sign, ASCII digits with single underscores between them, and a
fraction of zeros. `readStored?` is for texts in a column of whole numbers: ASCII
blanks around, a sign, ASCII digits, and a fraction of zeros.
-/

namespace Bookable.Text

/-- Values of digits with at most one underscore between two of them. -/
def digitsBetween (digit? : Char → Option Nat) : List Char → Option (List Nat)
  | [] => none
  | [c] => (digit? c).map ([·])
  | c :: '_' :: rest => do
      let first ← digit? c
      let others ← digitsBetween digit? rest
      return first :: others
  | c :: rest => do
      let first ← digit? c
      let others ← digitsBetween digit? rest
      return first :: others

def signed (digit? : Char → Option Nat) : List Char → Option Int
  | '-' :: rest => (digitsBetween digit? rest).map fun digits => -(ofDigits digits : Int)
  | '+' :: rest => (digitsBetween digit? rest).map fun digits => (ofDigits digits : Int)
  | rest => (digitsBetween digit? rest).map fun digits => (ofDigits digits : Int)

/-- A whole number as typed on a command line. -/
def readWhole? (text : String) : Option Int :=
  let typed := stripped text.toList
  if Number.digitLimit < (typed.filter fun c => (digitValue? c).isSome).length then none
  else signed digitValue? typed

/-- A text without a final point followed by zeros only. -/
def withoutZeroFraction (text : List Char) : List Char :=
  match text.span (· != '.') with
  | (whole, '.' :: fraction) => if fraction.all (· == '0') then whole else text
  | _ => text

/-- A whole number as written in a settings file. -/
def readSetting? (text : String) : Option Int :=
  signed asciiDigit? (withoutZeroFraction (trimBoth isWhite text.toList))

/-- A whole number as a column of whole numbers finds it in a text. -/
def readStored? (text : String) : Option Int :=
  let digits := withoutZeroFraction (trimBoth (fun c => isWhite c && c.toNat ≤ 0x20) text.toList)
  if digits.contains '_' then none else signed asciiDigit? digits

end Bookable.Text
