/-!
# Cutting texts

A text is cut at every occurrence of a character, which belongs to no part. There
is always at least one part, and joining the parts with the character gives the
text back.
-/

namespace Bookable.Text

/-- The parts of a text between the occurrences of a character. -/
def cutAt (mark : Char) : List Char → List (List Char)
  | [] => [[]]
  | c :: rest =>
      if c = mark then [] :: cutAt mark rest
      else
        match cutAt mark rest with
        | [] => [[c]]
        | part :: parts => (c :: part) :: parts

def joinWith (mark : Char) : List (List Char) → List Char
  | [] => []
  | [part] => part
  | part :: parts => part ++ mark :: joinWith mark parts

end Bookable.Text
