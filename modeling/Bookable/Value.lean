import Bookable.Number.Shortest
import Bookable.Text.Quoted

/-!
# Values

The fields of a rule and the contents of a settings or rules file come from
outside and may be of any kind until they have been checked. `Value` holds such
a field as it came. A map keeps its entries in the order in which they were
written, each key once.

Two texts belong to a value. `shown` is how it appears between quotes in a
message that complains about it; `plain` is the same except that a text stands
for itself. Integers of too many digits cannot be written out, and neither can a
value that holds one.
-/

namespace Bookable

open Number

/-- A value of any kind. -/
inductive Value where
  | null
  | bool (b : Bool)
  | int (n : Int)
  | float (x : Binary)
  | text (s : String)
  | list (items : List Value)
  | map (entries : List (Value × Value))
  /-- A scalar of a further kind, such as a date, known by its two texts. -/
  | other (plain shown : String)
  deriving Inhabited

namespace Value

/-- Whether a value counts as true: all do but null, false, zero and what is empty. -/
def truthy : Value → Bool
  | null => false
  | bool b => b
  | int n => n != 0
  | float x => !x.isZero
  | text s => !s.isEmpty
  | list items => !items.isEmpty
  | map entries => !entries.isEmpty
  | other _ _ => true

/-- The number that a value stands for in arithmetic, if it is a whole one: true counts as one
and false as zero. -/
def toInt? : Value → Option Int
  | bool b => some (if b then 1 else 0)
  | int n => some n
  | float x => x.toInt?
  | _ => none

/-- Whether a value is equal to a whole number. -/
def isNumber (v : Value) (n : Int) : Bool :=
  v.toInt? == some n

/-- The items of a list, or the entries of a map, between commas. -/
def joined : List String → String
  | [] => ""
  | [item] => item
  | item :: rest => item ++ ", " ++ joined rest

mutual

def shown : Value → String
  | null => "None"
  | bool b => if b then "True" else "False"
  | int n => toString n
  | float x => x.text
  | text s => Text.quoted s
  | list items => "[" ++ joined (shownItems items) ++ "]"
  | map entries => "\x7b" ++ joined (shownEntries entries) ++ "\x7d"
  | other _ s => s

def shownItems : List Value → List String
  | [] => []
  | item :: rest => shown item :: shownItems rest

def shownEntries : List (Value × Value) → List String
  | [] => []
  | (key, value) :: rest => (shown key ++ ": " ++ shown value) :: shownEntries rest

end

def plain : Value → String
  | text s => s
  | other s _ => s
  | v => v.shown

mutual

/-- Whether a value can be written out: all integers in it can. -/
def isWritable : Value → Bool
  | int n => Number.isWritable n
  | list items => areWritable items
  | map entries => entriesWritable entries
  | _ => true

def areWritable : List Value → Bool
  | [] => true
  | item :: rest => item.isWritable && areWritable rest

def entriesWritable : List (Value × Value) → Bool
  | [] => true
  | (key, value) :: rest => key.isWritable && value.isWritable && entriesWritable rest

end

/-- Whether a value is the given text. -/
def isText (s : String) : Value → Bool
  | text t => t == s
  | _ => false

/-- The value that a map gives to a name. -/
def field? (entries : List (Value × Value)) (name : String) : Option Value :=
  (entries.find? fun entry => entry.1.isText name).map (·.2)

end Value

end Bookable
