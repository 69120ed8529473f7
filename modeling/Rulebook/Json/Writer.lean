import Rulebook.Json.Basic

/-!
# Writing JSON

The compact form: no blanks, members in their order, and escapes only where the format needs them.
-/

namespace Rulebook.Json

/-- A hexadecimal digit. -/
def hexDigit (n : Nat) : Char :=
  if n < 10 then Char.ofNat ('0'.toNat + n) else Char.ofNat ('a'.toNat + (n - 10))

/-- A character inside quotes. -/
def escape (c : Char) : List Char :=
  if c = '"' then ['\\', '"']
  else if c = '\\' then ['\\', '\\']
  else if c = '\n' then ['\\', 'n']
  else if c = '\r' then ['\\', 'r']
  else if c = '\t' then ['\\', 't']
  else if c.toNat = 0x8 then ['\\', 'b']
  else if c.toNat = 0xc then ['\\', 'f']
  else if c.toNat < 0x20 then
    ['\\', 'u', '0', '0', hexDigit (c.toNat / 16), hexDigit (c.toNat % 16)]
  else [c]

/-- A text in quotes. -/
def quote (text : String) : List Char := '"' :: text.toList.flatMap escape ++ ['"']

mutual

/-- The characters of a value. -/
def chars : Json → List Char
  | null => "null".toList
  | bool true => "true".toList
  | bool false => "false".toList
  | int n => (toString n).toList
  | real => "0.0".toList
  | string text => quote text
  | array [] => ['[', ']']
  | array (first :: rest) => '[' :: chars first ++ itemsAfter rest
  | object [] => ['\x7b', '\x7d']
  | object (first :: rest) => '\x7b' :: memberChars first ++ membersAfter rest
  | broken => "\"\\ud800\"".toList

/-- The items after the first, up to the closing bracket. -/
def itemsAfter : List Json → List Char
  | [] => [']']
  | item :: rest => ',' :: chars item ++ itemsAfter rest

/-- A key and its value. -/
def memberChars : String × Json → List Char
  | (key, value) => quote key ++ ':' :: chars value

/-- The members after the first, up to the closing brace. -/
def membersAfter : List (String × Json) → List Char
  | [] => ['\x7d']
  | member :: rest => ',' :: memberChars member ++ membersAfter rest

end

/-- The compact text of a value. -/
def render (json : Json) : String := .ofList json.chars

end Rulebook.Json
