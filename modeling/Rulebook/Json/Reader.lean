import Rulebook.Json.Basic
import Rulebook.Text.Decimal

/-!
# Reading JSON

A strict reader: one value, blanks around its parts, and nothing after it. A text that is not of the
format gives nothing.
-/

namespace Rulebook.Json

/-- Blanks of the format. -/
def isBlank (c : Char) : Bool := c == ' ' || c == '\t' || c == '\n' || c == '\r'

def skipBlanks (text : List Char) : List Char := text.dropWhile isBlank

/-- The value of a hexadecimal digit, in either case. -/
def hexValue? (c : Char) : Option Nat :=
  if '0' ≤ c ∧ c ≤ '9' then some (c.toNat - '0'.toNat)
  else if 'a' ≤ c ∧ c ≤ 'f' then some (c.toNat - 'a'.toNat + 10)
  else if 'A' ≤ c ∧ c ≤ 'F' then some (c.toNat - 'A'.toNat + 10)
  else none

/-- The value of four hexadecimal digits. -/
def unit? (a b c d : Char) : Option Nat := do
  return (((← hexValue? a) * 16 + (← hexValue? b)) * 16 + (← hexValue? c)) * 16 + (← hexValue? d)

/-- A part of a string: a character, or half of one beyond the basic plane, counted from the start
of its range. -/
inductive Piece where
  | char (c : Char)
  | high (half : Nat)
  | low (half : Nat)
  deriving Repr, DecidableEq

namespace Piece

/-- The part that four hexadecimal digits stand for. -/
def ofUnit (unit : Nat) : Piece :=
  if 0xd800 ≤ unit ∧ unit < 0xdc00 then high (unit - 0xd800)
  else if 0xdc00 ≤ unit ∧ unit < 0xe000 then low (unit - 0xdc00)
  else char (.ofNat unit)

/-- The text of some parts, if every half has the other half beside it. -/
def join? : List Piece → Option (List Char)
  | [] => some []
  | char c :: rest => (join? rest).map (c :: ·)
  | high h :: low l :: rest => (join? rest).map (.ofNat (0x10000 + h * 0x400 + l) :: ·)
  | _ => none

end Piece

/-- The character that one letter stands for after a backslash. -/
def escaped? : Char → Option Char
  | '"' => some '"'
  | '\\' => some '\\'
  | '/' => some '/'
  | 'b' => some '\x08'
  | 'f' => some '\x0c'
  | 'n' => some '\n'
  | 'r' => some '\r'
  | 't' => some '\t'
  | _ => none

/-- Put a part before those that follow. -/
def before (piece : Piece) : Option (List Piece × List Char) → Option (List Piece × List Char)
  | some (pieces, rest) => some (piece :: pieces, rest)
  | none => none

/-- The parts of a string after its opening quote, and the text after the closing one. -/
def pieces? : List Char → Option (List Piece × List Char)
  | [] => none
  | '"' :: rest => some ([], rest)
  | '\\' :: 'u' :: a :: b :: c :: d :: rest =>
    match unit? a b c d with
    | some unit => before (.ofUnit unit) (pieces? rest)
    | none => none
  | '\\' :: e :: rest =>
    match escaped? e with
    | some c => before (.char c) (pieces? rest)
    | none => none
  | c :: rest => if c = '\\' ∨ c.toNat < 0x20 then none else before (.char c) (pieces? rest)

/-- The characters of a string, or nothing if half a character stands alone in it. -/
abbrev Content := Option (List Char)

/-- The content of a string after its opening quote, and the text after the closing one. -/
def stringContent? (text : List Char) : Option (Content × List Char) :=
  (pieces? text).map fun (pieces, rest) => (Piece.join? pieces, rest)

/-- The value of a string whose content was read. -/
def ofContent : Content → Json
  | some content => string (.ofList content)
  | none => broken

/-- A run of digits that is not empty, and what follows. -/
def digits? (text : List Char) : Option (List Char × List Char) :=
  match text.takeWhile Char.isDigit with
  | [] => none
  | digits => some (digits, text.dropWhile Char.isDigit)

/-- The integer part of a number: one zero, or digits that start with another digit. -/
def wholePart? (text : List Char) : Option (List Char × List Char) :=
  match text with
  | '0' :: rest => some (['0'], rest)
  | text => digits? text

/-- A fraction, if there is a point. -/
def fraction? (text : List Char) : Option (Bool × List Char) :=
  match text with
  | '.' :: rest => (digits? rest).map fun (_, rest) => (true, rest)
  | text => some (false, text)

/-- An exponent, if there is its mark. -/
def exponent? (text : List Char) : Option (Bool × List Char) :=
  match text with
  | mark :: rest =>
    if mark = 'e' ∨ mark = 'E' then
      let rest := match rest with
        | '+' :: rest => rest
        | '-' :: rest => rest
        | rest => rest
      (digits? rest).map fun (_, rest) => (true, rest)
    else some (false, text)
  | [] => some (false, [])

/-- The value of a number: an integer unless it has a fraction or an exponent, or is a negative
zero. -/
def numberValue (negative : Bool) (digits : List Char) (exact : Bool) : Json :=
  if !exact || (negative && digits == ['0']) then real
  else if negative then int (-(Text.decimalValue digits : Int))
  else int (Text.decimalValue digits)

/-- A number without its sign. -/
def magnitude? (negative : Bool) (text : List Char) : Option (Json × List Char) := do
  let (digits, rest) ← wholePart? text
  let (fraction, rest) ← fraction? rest
  let (exponent, rest) ← exponent? rest
  return (numberValue negative digits (!fraction && !exponent), rest)

def number? (text : List Char) : Option (Json × List Char) :=
  match text with
  | '-' :: rest => magnitude? true rest
  | text => magnitude? false text

/-- A reader of one value. -/
abbrev Reader := List Char → Option (Json × List Char)

/-- Items up to the closing bracket, in at most so many steps. -/
def items? (value : Reader) : Nat → List Char → Option (List Json × List Char)
  | 0, _ => none
  | steps + 1, text => do
    let (item, rest) ← value text
    match skipBlanks rest with
    | ',' :: rest =>
      let (items, rest) ← items? value steps rest
      return (item :: items, rest)
    | ']' :: rest => return ([item], rest)
    | _ => none

/-- A member: a key, a colon and a value. -/
def member? (value : Reader) (text : List Char) : Option ((Content × Json) × List Char) :=
  match skipBlanks text with
  | '"' :: rest => do
    let (key, rest) ← stringContent? rest
    match skipBlanks rest with
    | ':' :: rest =>
      let (item, rest) ← value rest
      return ((key, item), rest)
    | _ => none
  | _ => none

/-- Members up to the closing brace, in at most so many steps. -/
def members? (value : Reader) : Nat → List Char → Option (List (Content × Json) × List Char)
  | 0, _ => none
  | steps + 1, text => do
    let (member, rest) ← member? value text
    match skipBlanks rest with
    | ',' :: rest =>
      let (members, rest) ← members? value steps rest
      return (member :: members, rest)
    | '\x7d' :: rest => return ([member], rest)
    | _ => none

/-- The object of some members; it is broken if a key is. -/
def ofMembers (members : List (Content × Json)) : Json :=
  match members.mapM fun (key, value) => key.map fun key => (String.ofList key, value) with
  | some members => object members
  | none => broken

/-- A value that nests at most so deep. -/
def value? : Nat → Reader
  | 0, _ => none
  | depth + 1, text =>
    match skipBlanks text with
    | 'n' :: 'u' :: 'l' :: 'l' :: rest => some (null, rest)
    | 't' :: 'r' :: 'u' :: 'e' :: rest => some (bool true, rest)
    | 'f' :: 'a' :: 'l' :: 's' :: 'e' :: rest => some (bool false, rest)
    | '"' :: rest => (stringContent? rest).map fun (content, rest) => (ofContent content, rest)
    | '[' :: rest =>
      match skipBlanks rest with
      | ']' :: rest => some (array [], rest)
      | rest => (items? (value? depth) rest.length rest).map fun (items, rest) =>
        (array items, rest)
    | '\x7b' :: rest =>
      match skipBlanks rest with
      | '\x7d' :: rest => some (object [], rest)
      | rest => (members? (value? depth) rest.length rest).map fun (members, rest) =>
        (ofMembers members, rest)
    | text => number? text

/-- The value that a text consists of. -/
def parse? (text : String) : Option Json :=
  match value? (text.toList.length + 1) text.toList with
  | some (json, rest) => if (skipBlanks rest).isEmpty then some json else none
  | none => none

end Rulebook.Json
