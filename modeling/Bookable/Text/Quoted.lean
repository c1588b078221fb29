import Bookable.Text.Printable

/-!
# Quoted text

Messages show the text they complain about between quotes, so that blanks and
hidden characters can be seen. Apostrophes enclose it, unless the text itself
holds an apostrophe and no double quote. The enclosing quote and the backslash
are escaped, tab, line feed and carriage return have short names, and every
other hidden character is spelled by its code point in two, four or eight hex
digits, whichever fits first.
-/

namespace Bookable.Text

/-- The last `width` hexadecimal digits of a number, in small letters. -/
def hexDigits : Nat → Nat → List Char
  | 0, _ => []
  | width + 1, n => hexDigits width (n / 16) ++ [Nat.digitChar (n % 16)]

def spelled (c : Char) : List Char :=
  if c.toNat < 0x100 then '\\' :: 'x' :: hexDigits 2 c.toNat
  else if c.toNat < 0x10000 then '\\' :: 'u' :: hexDigits 4 c.toNat
  else '\\' :: 'U' :: hexDigits 8 c.toNat

/-- A character inside quotes of the given kind. -/
def escaped (quote c : Char) : List Char :=
  if c = quote ∨ c = '\\' then ['\\', c]
  else if c = '\t' then ['\\', 't']
  else if c = '\n' then ['\\', 'n']
  else if c = '\r' then ['\\', 'r']
  else if isPrintable c then [c]
  else spelled c

def enclosing (text : List Char) : Char :=
  if '\'' ∈ text ∧ '"' ∉ text then '"' else '\''

def quoted (text : String) : String :=
  let quote := enclosing text.toList
  String.ofList (quote :: (text.toList.flatMap (escaped quote) ++ [quote]))

end Bookable.Text
