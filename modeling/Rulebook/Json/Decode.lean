import Rulebook.Json.Basic
import Rulebook.Table

/-!
# Taking values apart

Small readers of JSON values: records, variants, lists and tables. Each takes the number of arrays
and objects that may still be opened below it, so that the nesting of what is read is bounded; what
a reader passes over may nest as it likes.
-/

namespace Rulebook.Json

/-- The nesting that is read: so many arrays and objects inside each other. -/
def maxDepth : Nat := 127

/-- A reader of `α` that may open so many arrays and objects inside each other. -/
abbrev Decoder (α : Type) := Nat → Json → Option α

variable {α : Type}

/-- A text. -/
def text? : Json → Option String
  | string text => some text
  | _ => none

/-- An integer of 64 bits. -/
def int64? : Json → Option Int64
  | int n => if Int64.minValue.toInt ≤ n ∧ n ≤ Int64.maxValue.toInt then some (.ofInt n) else none
  | _ => none

/-- The only member of this name; a name that comes twice is refused. -/
def member (name : String) (members : List (String × Json)) : Option Json :=
  match members.filter (·.1 == name) with
  | [(_, value)] => some value
  | _ => none

/-- The parts of a record with the given field names, in that order: an object that has each of them
once, or an array of just these values. -/
def record? (names : List String) : Json → Option (List Json)
  | object members => names.mapM (member · members)
  | array items => if items.length = names.length then some items else none
  | _ => none

/-- A variant: its name, and its content unless only the name is written. -/
def variant? : Json → Option (String × Option Json)
  | string name => some (name, none)
  | object [(name, content)] => some (name, some content)
  | _ => none

/-- Every item of a list by the same reader. -/
def eachOf (item : Json → Option α) : List Json → Option (List α)
  | [] => some []
  | json :: rest => do return (← item json) :: (← eachOf item rest)

/-- A list. -/
def list (item : Decoder α) : Decoder (List α)
  | depth + 1, array items => eachOf (item depth) items
  | _, _ => none

/-- Every member of an object by the same reader, added to a table. -/
def tableFrom (item : Json → Option α) : Table α → List (String × Json) → Option (Table α)
  | table, [] => some table
  | table, (key, json) :: rest => do tableFrom item (table.insert key (← item json)) rest

/-- A table. -/
def table (item : Decoder α) : Decoder (Table α)
  | depth + 1, object members => tableFrom (item depth) .empty members
  | _, _ => none

end Rulebook.Json
