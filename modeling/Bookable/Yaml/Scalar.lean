import Bookable.Time.Calendar
import Bookable.Text.Cut
import Bookable.Text.Digit
import Bookable.Value

/-!
# Scalars without quotes

What a scalar without quotes stands for in YAML 1.1: null, a truth value, a whole
number in base 2, 8, 10, 16 or 60, a number with a point, a date, or else a text.
Numbers may hold underscores, which do not count.
-/

namespace Bookable.Yaml

def nulls : List String := ["", "~", "null", "Null", "NULL"]

def trues : List String := ["yes", "Yes", "YES", "true", "True", "TRUE", "on", "On", "ON"]

def falses : List String := ["no", "No", "NO", "false", "False", "FALSE", "off", "Off", "OFF"]

/-- The value of a digit in a base up to 16. -/
def digitIn? (base : Nat) (c : Char) : Option Nat :=
  let value? :=
    if '0' ≤ c ∧ c ≤ '9' then some (c.toNat - '0'.toNat)
    else if 'a' ≤ c ∧ c ≤ 'f' then some (c.toNat - 'a'.toNat + 10)
    else if 'A' ≤ c ∧ c ≤ 'F' then some (c.toNat - 'A'.toNat + 10)
    else none
  value?.filter (· < base)

/-- A number of one or more digits in a base. -/
def numberIn? (base : Nat) (digits : List Char) : Option Nat := do
  if digits.isEmpty then none
  let values ← digits.mapM (digitIn? base)
  return values.foldl (fun n value => base * n + value) 0

/-- A part of a number in base 60 after the first one. -/
def sixtieth? (part : List Char) : Option Nat :=
  if part.length ≤ 2 then (numberIn? 10 part).filter (· < 60) else none

def natural? (digits : List Char) : Option Nat :=
  match digits with
  | ['0'] => some 0
  | '0' :: 'b' :: rest => numberIn? 2 rest
  | '0' :: 'x' :: rest => numberIn? 16 rest
  | '0' :: rest => numberIn? 8 rest
  | _ =>
      match Text.cutAt ':' digits with
      | [whole] => numberIn? 10 whole
      | first :: others => do
          let first ← numberIn? 10 first
          let others ← others.mapM sixtieth?
          return others.foldl (fun n part => 60 * n + part) first
      | [] => none

def splitSign : List Char → Bool × List Char
  | '-' :: rest => (true, rest)
  | '+' :: rest => (false, rest)
  | rest => (false, rest)

def integer? (text : List Char) : Option Int := do
  let (negative, rest) := splitSign text
  match rest with
  | '_' :: _ => none
  | _ =>
      let n ← natural? (rest.filter (· != '_'))
      return if negative then -(n : Int) else n

/-- The power of ten that ends a number with a point: nothing, or a letter, a sign and digits. -/
def power? : List Char → Option Int
  | [] => some 0
  | c :: sign :: digits =>
      if (c = 'e' ∨ c = 'E') ∧ (sign = '-' ∨ sign = '+') then
        (numberIn? 10 digits).map fun n => if sign = '-' then -(n : Int) else n
      else none
  | _ => none

def fraction? (text : List Char) : Option Number.Binary := do
  let (negative, rest) := splitSign text
  let word := String.ofList rest
  if word = ".inf" ∨ word = ".Inf" ∨ word = ".INF" then return .infinite negative
  if text = rest ∧ (word = ".nan" ∨ word = ".NaN" ∨ word = ".NAN") then return .undefined
  let isDigit (c : Char) : Bool := (digitIn? 10 c).isSome || c == '_'
  match rest.span isDigit with
  | (whole, '.' :: rest) =>
      let (part, rest) := rest.span isDigit
      let digits := whole.filter (· != '_')
      let places := part.filter (· != '_')
      if whole.head? = some '_' ∨ (whole.isEmpty ∧ places.isEmpty) then none
      let n ← numberIn? 10 (digits ++ places)
      return .ofDecimal negative n ((← power? rest) - places.length)
  | _ => none

/-- A date of four, two and two digits. -/
def date? (text : List Char) : Option Time.Date := do
  let (year, rest) ← Text.takeDigits 4 text
  match rest with
  | '-' :: rest =>
      let (month, rest) ← Text.takeDigits 2 rest
      match rest with
      | '-' :: rest =>
          let (day, rest) ← Text.takeDigits 2 rest
          if rest = [] ∧ (Time.Date.mk year month day).Valid then some ⟨year, month, day⟩
          else none
      | _ => none
  | _ => none

/-- What a scalar without quotes stands for. -/
def resolve (text : List Char) : Value :=
  let word := String.ofList text
  if word ∈ nulls then .null
  else if word ∈ trues then .bool true
  else if word ∈ falses then .bool false
  else
    match integer? text, fraction? text, date? text with
    | some n, _, _ => .int n
    | none, some x, _ => .float x
    | none, none, some d =>
        .other word s!"datetime.date({d.year}, {d.month}, {d.day})"
    | none, none, none => .text word

end Bookable.Yaml
