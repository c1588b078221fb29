/-!
# Blanks

Two sets of blank characters meet in texts that people type. White space is the
property of that name; a time of day or a whole number may in addition be
surrounded by the four ASCII separators `U+001C` to `U+001F`.
-/

namespace Bookable.Text

/-- Runs of white space, first and last included. -/
def whiteRuns : List (Nat × Nat) := [
    (0x09, 0x0d), (0x20, 0x20), (0x85, 0x85), (0xa0, 0xa0), (0x1680, 0x1680),
    (0x2000, 0x200a), (0x2028, 0x2029), (0x202f, 0x202f), (0x205f, 0x205f),
    (0x3000, 0x3000)]

def isWhite (c : Char) : Bool :=
  whiteRuns.any fun run => run.1 ≤ c.toNat && c.toNat ≤ run.2

/-- Whether a character is white space or one of the ASCII separators. -/
def isBlank (c : Char) : Bool :=
  isWhite c || (0x1c ≤ c.toNat && c.toNat ≤ 0x1f)

/-- A text without the characters of a class on either end. -/
def trimBoth (drop : Char → Bool) (text : List Char) : List Char :=
  ((text.dropWhile drop).reverse.dropWhile drop).reverse

/-- A text without blanks on either end. -/
def stripped (text : List Char) : List Char :=
  trimBoth isBlank text

end Bookable.Text
