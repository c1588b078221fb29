import Bookable.Yaml.Scalar

/-!
# Values on one line

Quoted scalars, lists in brackets, maps in braces, and scalars without quotes. A
scalar without quotes ends before a comment; inside brackets or braces it also ends
before a comma or a bracket. A colon with a blank after it never belongs to it.
-/

namespace Bookable.Yaml

def isGap (c : Char) : Bool := c == ' ' || c == '\t'

/-- A scalar in apostrophes, after the first one. An apostrophe inside is written twice. -/
def singleQuoted : List Char → Option (List Char × List Char)
  | [] => none
  | '\'' :: '\'' :: rest => do
      let (text, rest) ← singleQuoted rest
      return ('\'' :: text, rest)
  | '\'' :: rest => some ([], rest)
  | c :: rest => do
      let (text, rest) ← singleQuoted rest
      return (c :: text, rest)

/-- The character that a letter after a backslash stands for. -/
def escapeOf? : Char → Option Char
  | 'n' => some '\n'
  | 't' => some '\t'
  | 'r' => some '\r'
  | '0' => some (Char.ofNat 0)
  | 'a' => some (Char.ofNat 7)
  | 'b' => some (Char.ofNat 8)
  | 'v' => some (Char.ofNat 11)
  | 'f' => some (Char.ofNat 12)
  | 'e' => some (Char.ofNat 27)
  | 'N' => some (Char.ofNat 0x85)
  | '_' => some (Char.ofNat 0xa0)
  | 'L' => some (Char.ofNat 0x2028)
  | 'P' => some (Char.ofNat 0x2029)
  | ' ' => some ' '
  | '"' => some '"'
  | '/' => some '/'
  | '\\' => some '\\'
  | _ => none

/-- The number of hexadecimal digits after a letter that announces a code point. -/
def codeWidth? : Char → Option Nat
  | 'x' => some 2
  | 'u' => some 4
  | 'U' => some 8
  | _ => none

/-- A scalar in double quotes, after the first one. -/
def doubleQuoted (text : List Char) : Option (List Char × List Char) :=
  go text.length text
where
  go : Nat → List Char → Option (List Char × List Char)
    | 0, _ => none
    | _ + 1, [] => none
    | _ + 1, '"' :: rest => some ([], rest)
    | fuel + 1, '\\' :: c :: rest =>
        match codeWidth? c with
        | some width => do
            if rest.length < width then none
            let code ← numberIn? 16 (rest.take width)
            let (text, rest) ← go fuel (rest.drop width)
            return (Char.ofNat code :: text, rest)
        | none => do
            let found ← escapeOf? c
            let (text, rest) ← go fuel rest
            return (found :: text, rest)
    | fuel + 1, c :: rest => do
        let (text, rest) ← go fuel rest
        return (c :: text, rest)

/-- Splits a text before the first colon that ends it or has a blank or, inside brackets, a comma
or bracket after it, before the first comment, or before a character that `stops`. -/
def plainSpan (stops : Char → Bool) : List Char → List Char × List Char
  | [] => ([], [])
  | ':' :: rest =>
      match rest with
      | [] => ([], [':'])
      | c :: _ =>
          if isGap c || stops c then ([], ':' :: rest)
          else
            let (text, rest) := plainSpan stops rest
            (':' :: text, rest)
  | c :: rest =>
      if stops c then ([], c :: rest)
      else
        match rest with
        | '#' :: _ =>
            if isGap c then ([], c :: rest)
            else
              let (text, rest) := plainSpan stops rest
              (c :: text, rest)
        | _ =>
            let (text, rest) := plainSpan stops rest
            (c :: text, rest)

/-- A text without blanks at its end. -/
def trimEnd (text : List Char) : List Char := (text.reverse.dropWhile isGap).reverse

/-- The characters that end a scalar without quotes inside brackets. -/
def isFlowStop (c : Char) : Bool :=
  c == ',' || c == '[' || c == ']' || c == '\x7b' || c == '\x7d'

/-- Whether a scalar without quotes may begin with a character that `next` follows. A dash, and
outside brackets a colon or a question mark, need something after them. -/
def mayBegin (inBrackets : Bool) (c : Char) (next : Option Char) : Bool :=
  if c == '-' || ((c == ':' || c == '?') && !inBrackets) then
    match next with
    | some d => !isGap d
    | none => false
  else
    !(isGap c || isFlowStop c || c == ':' || c == '?' || c == '@' || c == Char.ofNat 0x60 ||
      c == '%' || c == '"' || c == '\'' || c == '&' || c == '*' || c == '!' || c == '|' ||
      c == '>' || c == '#')

/-- Whether two keys of a map are the same key: texts by their characters, and numbers and truth
values by the number that they stand for. -/
def sameKey (a b : Value) : Bool :=
  match a, b with
  | .text s, .text t => s == t
  | .null, .null => true
  | .other s _, .other t _ => s == t
  | _, _ =>
      match a.toInt?, b.toInt? with
      | some m, some n => m == n
      | _, _ => false

/-- The entries of a map with one more. A key that is there already keeps its place. -/
def addEntry (key value : Value) : List (Value × Value) → List (Value × Value)
  | [] => [(key, value)]
  | entry :: rest =>
      if sameKey entry.1 key then (entry.1, value) :: rest else entry :: addEntry key value rest

/-- A scalar or collection at the front of a text, which begins with no blank. `fuel` bounds the
depth and the number of items together; the length of the text suffices. -/
def flowValue (fuel : Nat) (text : List Char) : Option (Value × List Char) :=
  match fuel, text with
  | 0, _ => none
  | _, [] => none
  | _ + 1, '\'' :: rest => (singleQuoted rest).map fun (s, rest) => (.text (String.ofList s), rest)
  | _ + 1, '"' :: rest => (doubleQuoted rest).map fun (s, rest) => (.text (String.ofList s), rest)
  | fuel + 1, '[' :: rest => listItems fuel rest []
  | fuel + 1, '\x7b' :: rest => mapEntries fuel rest []
  | _ + 1, c :: rest =>
      if mayBegin true c rest.head? then
        let (plain, rest) := plainSpan isFlowStop (c :: rest)
        if plain.isEmpty then none else some (resolve (trimEnd plain), rest)
      else none
where
  /-- What follows a key: a colon and a value, or nothing. -/
  pairedValue (fuel : Nat) (text : List Char) : Option (Value × List Char) :=
    match fuel, text.dropWhile isGap with
    | 0, _ => none
    | fuel + 1, ':' :: rest =>
        match rest.dropWhile isGap with
        | ',' :: more => some (.null, ',' :: more)
        | '\x7d' :: more => some (.null, '\x7d' :: more)
        | rest => flowValue fuel rest
    | _, rest => some (.null, rest)
  listItems (fuel : Nat) (text : List Char) (found : List Value) : Option (Value × List Char) :=
    match fuel, text.dropWhile isGap with
    | 0, _ => none
    | _, ']' :: rest => some (.list found.reverse, rest)
    | fuel + 1, rest => do
        let (item, rest) ← flowValue fuel rest
        match rest.dropWhile isGap with
        | ',' :: rest => listItems fuel rest (item :: found)
        | ']' :: rest => some (.list (item :: found).reverse, rest)
        | ':' :: rest => do
            let (value, rest) ← pairedValue fuel (':' :: rest)
            let pair := Value.map [(item, value)]
            match rest.dropWhile isGap with
            | ',' :: rest => listItems fuel rest (pair :: found)
            | ']' :: rest => some (.list (pair :: found).reverse, rest)
            | _ => none
        | _ => none
  mapEntries (fuel : Nat) (text : List Char) (found : List (Value × Value)) :
      Option (Value × List Char) :=
    match fuel, text.dropWhile isGap with
    | 0, _ => none
    | _, '\x7d' :: rest => some (.map found, rest)
    | fuel + 1, rest => do
        let (key, rest) ← flowValue fuel rest
        let (value, rest) ← pairedValue fuel rest
        let found := addEntry key value found
        match rest.dropWhile isGap with
        | ',' :: rest => mapEntries fuel rest found
        | '\x7d' :: rest => some (.map found, rest)
        | _ => none

/-- A value that is a whole text, up to a comment. -/
def inlineValue (text : List Char) : Option Value :=
  match text with
  | [] => some .null
  | c :: rest =>
      if c = '[' ∨ c = '\x7b' ∨ c = '"' ∨ c = '\'' then
        match flowValue (2 * text.length + 2) text with
        | some (value, rest) => if rest.all isGap then some value else none
        | none => none
      else if mayBegin false c rest.head? then
        match plainSpan (fun _ => false) (c :: rest) with
        | (plain, []) => some (resolve (trimEnd plain))
        | _ => none
      else none

end Bookable.Yaml
