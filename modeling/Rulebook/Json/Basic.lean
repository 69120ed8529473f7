/-!
# JSON values

Values of the data format in which documents, programs and options are kept as text. A number with a
fraction or an exponent has no use here and keeps only its place.
-/

namespace Rulebook

inductive Json where
  | null
  | bool (value : Bool)
  | int (value : Int)
  /-- A number that is not written as an integer. -/
  | real
  | string (text : String)
  | array (items : List Json)
  /-- The members in the order in which they are written. -/
  | object (members : List (String × Json))
  /-- A string, or an object with a key, that has an escape for half a character. -/
  | broken
  deriving Repr, Inhabited

end Rulebook
