import Bookable.Yaml.Flow

/-!
# Documents

Lists with dashes and maps with colons, nested by indentation, over values on one
line. A list or map in brackets may go on over several lines, and so may a scalar
without quotes, whose lines are joined by blanks. Comments and empty lines do not
count.

The part of YAML that needs more, such as anchors, tags and block scalars, is not
read. A text that is no document of this kind gives `none`.
-/

namespace Bookable.Yaml

/-- A line with something on it: the number of blanks before it, and the rest. -/
structure Line where
  indent : Nat
  text : List Char

/-- Where the reading of a line stands with regard to quotes: at a place where one may open,
within a scalar without quotes, within quotes, or after a backslash in double quotes. -/
inductive QuoteState where
  | fresh
  | plain
  | within (quote : Char)
  | escaped
  deriving DecidableEq

/-- Where the reading stands after a character within quotes. -/
def inQuotes (quote c : Char) : QuoteState :=
  if c = quote then .plain
  else if c = '\\' ∧ quote = '"' then .escaped
  else .within quote

def withoutComment (text : List Char) : List Char :=
  go .fresh true text
where
  go (state : QuoteState) (afterGap : Bool) : List Char → List Char
    | [] => []
    | c :: rest =>
        match state with
        | .escaped => c :: go (.within '"') false rest
        | .within quote => c :: go (inQuotes quote c) false rest
        | _ =>
            if c = '#' ∧ afterGap then []
            else if isGap c then c :: go state true rest
            else if state = .fresh ∧ (c = '"' ∨ c = '\'') then c :: go (.within c) false rest
            else
              let opens :=
                isFlowStop c || ((c == '-' || c == ':') && (rest.head?.map isGap).getD true)
              c :: go (if opens then .fresh else .plain) false rest

/-- A text cut at its line feeds, each with a carriage return before it or not. -/
def cutLines (text : List Char) : List (List Char) :=
  (Text.cutAt '\n' text).map fun line =>
    if line.getLast? = some '\r' then line.dropLast else line

/-- The lines of a text that count. -/
def contentLines (text : List Char) : List Line :=
  (cutLines text).filterMap fun line =>
    let indent := (line.takeWhile (· == ' ')).length
    let content := trimEnd (withoutComment (line.drop indent))
    if content.isEmpty ∨ (indent = 0 ∧ content = ['-', '-', '-']) then none
    else some ⟨indent, content⟩

/-- Whether a line is an item of a list. -/
def isItem (text : List Char) : Bool :=
  match text with
  | ['-'] => true
  | '-' :: c :: _ => isGap c
  | _ => false

/-- A key at the beginning of a line, and what follows its colon. -/
def splitKey (text : List Char) : Option (Value × List Char) :=
  let after (key : Value) (rest : List Char) : Option (Value × List Char) :=
    match rest.dropWhile isGap with
    | [':'] => some (key, [])
    | ':' :: c :: rest => if isGap c then some (key, (c :: rest).dropWhile isGap) else none
    | _ => none
  match text with
  | '\'' :: rest => (singleQuoted rest).bind fun (s, rest) => after (.text (String.ofList s)) rest
  | '"' :: rest => (doubleQuoted rest).bind fun (s, rest) => after (.text (String.ofList s)) rest
  | c :: rest =>
      if mayBegin false c rest.head? then
        let (key, rest) := plainSpan (fun _ => false) text
        after (resolve (trimEnd key)) rest
      else none
  | [] => none

/-- Whether brackets or quotes are left open at the end of a text. -/
def isOpen (text : List Char) : Bool :=
  go 0 .fresh text
where
  go (depth : Nat) (state : QuoteState) : List Char → Bool
    | [] => depth ≠ 0 || (state != .fresh && state != .plain)
    | c :: rest =>
        match state with
        | .escaped => go depth (.within '"') rest
        | .within quote => go depth (inQuotes quote c) rest
        | _ =>
            if state = .fresh ∧ (c = '"' ∨ c = '\'') then go depth (.within c) rest
            else if state = .fresh ∧ depth = 0 ∧ !(c = '[' ∨ c = '\x7b') then false
            else if c = '[' ∨ c = '\x7b' then go (depth + 1) .fresh rest
            else if c = ']' ∨ c = '\x7d' then go (depth - 1) .plain rest
            else if c = ',' ∨ c = ':' then go depth .fresh rest
            else go depth (if isGap c then state else .plain) rest

/-- A value that begins with a text and may go on over the following lines that are indented by
at least `least`. -/
def spreadValue (least : Nat) (text : List Char) : List Line → Option (Value × List Line)
  | [] => (inlineValue text).map fun value => (value, [])
  | line :: rest =>
      let opensQuote := text.head? = some '"' ∨ text.head? = some '\''
      let opensBracket := text.head? = some '[' ∨ text.head? = some '\x7b'
      if isOpen text then spreadValue least (text ++ ' ' :: line.text) rest
      else if opensQuote ∨ opensBracket ∨ line.indent < least then
        (inlineValue text).map fun value => (value, line :: rest)
      else spreadValue least (text ++ ' ' :: line.text) rest

mutual

/-- The value whose lines are indented by at least `least`: a list, a map, or a value on one line.
Every nested value takes fuel; twice the number of characters suffices. -/
def block (fuel least : Nat) (lines : List Line) : Option (Value × List Line) :=
  match fuel, lines with
  | 0, _ => none
  | _, [] => some (.null, [])
  | fuel + 1, line :: rest =>
      if line.indent < least then some (.null, line :: rest)
      else if isItem line.text then sequence fuel line.indent (line :: rest) []
      else
        match splitKey line.text with
        | some _ => mapping fuel line.indent (line :: rest) []
        | none => spreadValue least line.text rest

/-- The items of a list at an indentation. -/
def sequence (fuel indent : Nat) (lines : List Line) (found : List Value) :
    Option (Value × List Line) :=
  match fuel, lines with
  | 0, _ => none
  | _, [] => some (.list found.reverse, [])
  | fuel + 1, line :: rest =>
      if line.indent < indent then some (.list found.reverse, line :: rest)
      else if indent < line.indent then none
      else if isItem line.text then do
        let body := (line.text.drop 1).dropWhile isGap
        let column := line.indent + (line.text.length - body.length)
        let lines := if body.isEmpty then rest else ⟨column, body⟩ :: rest
        let (item, rest) ← block fuel (indent + 1) lines
        sequence fuel indent rest (item :: found)
      else some (.list found.reverse, line :: rest)

/-- The entries of a map at an indentation. -/
def mapping (fuel indent : Nat) (lines : List Line) (found : List (Value × Value)) :
    Option (Value × List Line) :=
  match fuel, lines with
  | 0, _ => none
  | _, [] => some (.map found, [])
  | fuel + 1, line :: rest =>
      if line.indent < indent then some (.map found, line :: rest)
      else if indent < line.indent ∨ isItem line.text then none
      else do
        let (key, text) ← splitKey line.text
        let (value, rest) ←
          match text, rest with
          | [], next :: _ =>
              if next.indent = indent ∧ isItem next.text then sequence fuel indent rest []
              else block fuel (indent + 1) rest
          | [], [] => some (.null, [])
          | text, rest => spreadValue (indent + 1) text rest
        mapping fuel indent rest (addEntry key value found)

end

def read (text : String) : Option Value :=
  match block (2 * text.length + 2) 0 (contentLines text.toList) with
  | some (value, []) => some value
  | _ => none

end Bookable.Yaml
