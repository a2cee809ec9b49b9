import AppRegistry.Json.Basic
import AppRegistry.Text.Control

/-!
# Writing JSON

The compact form has no blanks. The pretty form puts each item and each field on a line of its own,
two blanks further in than the bracket that opened it. Both keep the order of the fields, and both
escape in a string only the quote, the backslash and the characters below U+0020.
-/

namespace AppRegistry.Json

/-- The escape of one character of a string, or the character itself. -/
def escaped (c : Char) : List Char :=
  if c = '"' then ['\\', '"']
  else if c = '\\' then ['\\', '\\']
  else if c = '\x08' then ['\\', 'b']
  else if c = '\x0c' then ['\\', 'f']
  else if c = '\n' then ['\\', 'n']
  else if c = '\r' then ['\\', 'r']
  else if c = '\t' then ['\\', 't']
  else if c.toNat < 0x20 then
    ['\\', 'u', '0', '0', Nat.digitChar (c.toNat / 16), Nat.digitChar (c.toNat % 16)]
  else [c]

/-- A string in quotes. -/
def quoted (s : String) : String :=
  "\"" ++ String.ofList (s.toList.flatMap escaped) ++ "\""

/-- A number. -/
def Number.text : Number → String
  | .int n => toString n
  | .real d => d.text

/-- A value without parts. -/
def scalarText : Json → String
  | null => "null"
  | bool true => "true"
  | bool false => "false"
  | number n => n.text
  | string s => quoted s
  | array _ => "[]"
  | object _ => "\x7b\x7d"

mutual

/-- The value without blanks. -/
def compact : Json → String
  | array items => "[" ++ compactItems items ++ "]"
  | object fields => "\x7b" ++ compactFields fields ++ "\x7d"
  | j => scalarText j

/-- Items with commas between them. -/
def compactItems : List Json → String
  | [] => ""
  | [j] => compact j
  | j :: r => compact j ++ "," ++ compactItems r

/-- Fields with commas between them. -/
def compactFields : List (String × Json) → String
  | [] => ""
  | [(name, j)] => quoted name ++ ":" ++ compact j
  | (name, j) :: r => quoted name ++ ":" ++ compact j ++ "," ++ compactFields r

end

/-- The start of a line at a depth. -/
def indent (depth : Nat) : String := "\n" ++ String.ofList (List.replicate (2 * depth) ' ')

mutual

/-- The value at a depth, one part to a line. -/
def prettyAt (depth : Nat) : Json → String
  | array (j :: r) => "[" ++ prettyItems (depth + 1) (j :: r) ++ indent depth ++ "]"
  | object (f :: r) => "\x7b" ++ prettyFields (depth + 1) (f :: r) ++ indent depth ++ "\x7d"
  | j => scalarText j

/-- Items, each on a line of its own. -/
def prettyItems (depth : Nat) : List Json → String
  | [] => ""
  | [j] => indent depth ++ prettyAt depth j
  | j :: r => indent depth ++ prettyAt depth j ++ "," ++ prettyItems depth r

/-- Fields, each on a line of its own. -/
def prettyFields (depth : Nat) : List (String × Json) → String
  | [] => ""
  | [(name, j)] => indent depth ++ quoted name ++ ": " ++ prettyAt depth j
  | (name, j) :: r =>
    indent depth ++ quoted name ++ ": " ++ prettyAt depth j ++ "," ++ prettyFields depth r

end

/-- The value with one part to a line. -/
def pretty (j : Json) : String := prettyAt 0 j

end AppRegistry.Json
