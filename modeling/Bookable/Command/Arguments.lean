/-!
# Arguments of a command line

Options have a long name after two dashes and perhaps a letter after one dash. An
option that takes a value finds it after an equals sign, directly after its letter,
or in the next argument, whatever that is. Of an option that is given twice the
last value counts. Two dashes alone end the options, and a dash alone is no option.

A command takes options before, between and after its other arguments; what comes
before the name of a command ends at the first argument that is no option.
-/

namespace Bookable.Command

/-- An option: its long name without dashes, its letter if it has one, and whether it takes a
value. -/
structure OptionSpec where
  name : String
  letter : Option Char := none
  takesValue : Bool := true

/-- The arguments of a command line: the options with their values, the first one given last, and
the other arguments in order. -/
structure Arguments where
  options : List (String × String) := []
  others : List String := []

namespace Arguments

def value? (a : Arguments) (name : String) : Option String :=
  (a.options.find? (·.1 == name)).map (·.2)

def has (a : Arguments) (name : String) : Bool := a.options.any (·.1 == name)

def withOption (a : Arguments) (name value : String) : Arguments :=
  { a with options := (name, value) :: a.options }

/-- The arguments with one more argument that is no option. -/
def withOther (a : Arguments) (other : String) : Arguments :=
  { a with others := a.others ++ [other] }

/-- How an argument is to be taken. -/
inductive Shape where
  | endOfOptions
  /-- A long option, and the value after its equals sign. -/
  | long (name : String) (value : Option String)
  /-- A letter, and what follows it in the same argument. -/
  | short (letter : Char) (rest : List Char)
  | plain

def shapeOf (argument : String) : Shape :=
  match argument.toList with
  | ['-', '-'] => .endOfOptions
  | '-' :: '-' :: rest =>
      match rest.span (· != '=') with
      | (name, '=' :: value) => .long (String.ofList name) (some (String.ofList value))
      | (name, _) => .long (String.ofList name) none
  | '-' :: letter :: rest => .short letter rest
  | _ => .plain

/-- Reads arguments. With `mixed` options may follow other arguments. There is no result if an
option is unknown, lacks its value, or has one that it does not take. -/
def read (specs : List OptionSpec) (mixed : Bool) (found : Arguments) :
    List String → Option Arguments
  | [] => some found
  | argument :: rest =>
      match shapeOf argument with
      | .endOfOptions => some { found with others := found.others ++ rest }
      | .plain =>
          if mixed then read specs mixed (found.withOther argument) rest
          else some { found with others := argument :: rest }
      | .long name value => do
          let spec ← specs.find? (·.name == name)
          match value, spec.takesValue with
          | some value, true => read specs mixed (found.withOption name value) rest
          | none, false => read specs mixed (found.withOption name "") rest
          | some _, false => none
          | none, true =>
              match rest with
              | value :: rest => read specs mixed (found.withOption name value) rest
              | [] => none
      | .short letter tail => do
          let spec ← specs.find? (·.letter == some letter)
          match tail, rest with
          | [], value :: rest => read specs mixed (found.withOption spec.name value) rest
          | [], [] => none
          | tail, rest =>
              read specs mixed (found.withOption spec.name (String.ofList tail)) rest

end Arguments

end Bookable.Command
