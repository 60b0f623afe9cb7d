import ApiSurface.Json.Value
import ApiSurface.Text.Hex

/-!
# Writing JSON

Values are written over several lines: every item of a list and every field of an object stands on
a line of its own, two blanks deeper than its surroundings. Empty lists and objects are written as
two brackets. In texts the quote, the backslash and the control characters below the blank are
escaped, and all other characters stand for themselves.
-/

namespace ApiSurface.Json

/-- A character as it is written between quotes. -/
def escape (c : Char) : List Char :=
  if c = '"' then ['\\', '"']
  else if c = '\\' then ['\\', '\\']
  else if c = '\x08' then ['\\', 'b']
  else if c = '\x0c' then ['\\', 'f']
  else if c = '\n' then ['\\', 'n']
  else if c = '\r' then ['\\', 'r']
  else if c = '\t' then ['\\', 't']
  else if c.toNat < 0x20 then
    ['\\', 'u', '0', '0', Text.hexDigit (c.toNat / 16), Text.hexDigit (c.toNat % 16)]
  else [c]

/-- A text in quotes. -/
def quote (text : String) : String :=
  "\"" ++ String.ofList (text.toList.flatMap escape) ++ "\""

/-- The start of a line at the given depth. -/
def newLine (depth : Nat) : String :=
  "\n" ++ String.ofList (List.replicate (2 * depth) ' ')

mutual

/-- A value whose first character stands at the given depth. -/
def pretty (depth : Nat) : Json → String
  | null => "null"
  | bool true => "true"
  | bool false => "false"
  | number spelling => spelling
  | string text => quote text
  | array [] => "[]"
  | array (item :: more) =>
    "[" ++ newLine (depth + 1) ++ pretty (depth + 1) item ++ prettyItems (depth + 1) more ++
      newLine depth ++ "]"
  | object [] => "\x7b\x7d"
  | object ((key, value) :: more) =>
    "\x7b" ++ newLine (depth + 1) ++ quote key ++ ": " ++ pretty (depth + 1) value ++
      prettyFields (depth + 1) more ++ newLine depth ++ "\x7d"

/-- The items behind the first item of a list. -/
def prettyItems (depth : Nat) : List Json → String
  | [] => ""
  | item :: more => "," ++ newLine depth ++ pretty depth item ++ prettyItems depth more

/-- The fields behind the first field of an object. -/
def prettyFields (depth : Nat) : List (String × Json) → String
  | [] => ""
  | (key, value) :: more =>
    "," ++ newLine depth ++ quote key ++ ": " ++ pretty depth value ++ prettyFields depth more

end

/-- A value over several lines, the last of which is ended. -/
def render (value : Json) : String := pretty 0 value ++ "\n"

end ApiSurface.Json
