/-
ReviewSearch.Json.Writer — the text of JSON values.

Values are written without spaces, members in their order. In a string
the quote, the backslash and the control characters are escaped, and
every other character stands for itself.
-/
import ReviewSearch.Json.Value
import ReviewSearch.Text.Hex

namespace ReviewSearch.Json

/-- What a character becomes inside a string. -/
def escapeChar (c : Char) : List Char :=
  if c = '"' then ['\\', '"']
  else if c = '\\' then ['\\', '\\']
  else if c = '\x08' then ['\\', 'b']
  else if c = '\t' then ['\\', 't']
  else if c = '\n' then ['\\', 'n']
  else if c = '\x0c' then ['\\', 'f']
  else if c = '\r' then ['\\', 'r']
  else if c.toNat < 0x20 then
    ['\\', 'u', '0', '0', Text.Hex.digit (c.toNat / 16), Text.Hex.digit (c.toNat % 16)]
  else [c]

def escape (cs : List Char) : List Char :=
  cs.flatMap escapeChar

/-- A text as a JSON string, with its quotes. -/
def quote (s : String) : List Char :=
  '"' :: escape s.toList ++ ['"']

/-- Pieces with a comma between them. -/
def commaJoin : List (List Char) → List Char
  | [] => []
  | [p] => p
  | p :: ps => p ++ ',' :: commaJoin ps

mutual

/-- The characters of a value. -/
def chars : Json → List Char
  | .null => "null".toList
  | .bool true => "true".toList
  | .bool false => "false".toList
  | .number n => n.text.toList
  | .string s => quote s
  | .array items => '[' :: commaJoin (charsItems items) ++ [']']
  | .object members => '\x7b' :: commaJoin (charsMembers members) ++ ['\x7d']

def charsItems : List Json → List (List Char)
  | [] => []
  | v :: vs => chars v :: charsItems vs

def charsMembers : List (String × Json) → List (List Char)
  | [] => []
  | (k, v) :: ms => (quote k ++ ':' :: chars v) :: charsMembers ms

end

/-- The text of a value. -/
def render (v : Json) : String :=
  String.ofList (chars v)

end ReviewSearch.Json
