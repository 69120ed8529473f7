import Rulebook.Text.Class

/-!
# Names of the logic language

How the names of a document are written as variables and atoms. Distinct names stay distinct.
-/

namespace Rulebook.Logic

/-- The code points of a name in hexadecimal, with underscores between them. -/
def codePoints (name : List Char) : List Char :=
  List.intercalate ['_'] (name.map fun c => Nat.toDigits 16 c.toNat)

/-- A name as a variable. A plain name that starts in lower case is capitalised, any other plain
name gets a leading underscore, and every other name is spelled out by its code points. -/
def variableChars : List Char → List Char
  | [] => ['_', 'u']
  | c :: cs =>
    if Text.isPlainAtom (c :: cs) then c.toUpper :: cs
    else if (c :: cs).all Text.isPlainPart then '_' :: c :: cs
    else '_' :: 'u' :: codePoints (c :: cs)

def variableName (name : String) : String := .ofList (variableChars name.toList)

/-- A character inside single quotes. -/
def quoteChar (c : Char) : List Char :=
  if c = '\\' ∨ c = '\'' then ['\\', c] else [c]

def quotedChars (text : List Char) : List Char := '\'' :: text.flatMap quoteChar ++ ['\'']

/-- A text as an atom in single quotes. -/
def quoted (text : String) : String := .ofList (quotedChars text.toList)

/-- A name as an atom, in quotes only if it is no plain atom. -/
def atom (name : String) : String := if Text.isPlainAtom name.toList then name else quoted name

end Rulebook.Logic
