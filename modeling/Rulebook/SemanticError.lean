import Rulebook.Document

/-!
# Semantic errors

What can be wrong with a document that is well formed, and where.
-/

namespace Rulebook

/-- The declaration in which an error is found. -/
inductive Site where
  | object (name : String)
  | relation (name : String)
  | rule (name : String)
  | test (name : String)
  /-- A place outside a document, described by its user. -/
  | place (text : String)
  deriving Repr, DecidableEq

namespace Site

def text : Site → String
  | object name => s!"object '{name}'"
  | relation name => s!"relation '{name}'"
  | rule name => s!"rule '{name}'"
  | test name => s!"test '{name}'"
  | place text => text

end Site

namespace Term

/-- How a message names the type of a value. -/
def typeText : Term → String
  | int _ => "int"
  | float _ => "float"
  | string _ => "string"
  | ident name => s!"identifier '{name}'"
  | var name type => s!"{type.name} '{name}'"
  | field name _ => s!"field '{name}'"

end Term

inductive SemanticError where
  | duplicate (what : Declared) (name : String)
  | undeclaredObject (name : String) (site : Site)
  | undeclaredRelation (name : String) (site : Site)
  | undeclaredRule (name : String) (site : Site)
  | undeclaredVariable (name : String) (site : Site)
  | notAnObject (node : Node) (site : Site)
  | unknownField (object field : String) (site : Site)
  | arityMismatch (name : String) (expected actual : Nat) (site : Site)
  | typeMismatch (object field : String) (expected : FieldType) (actual : Term) (site : Site)
  /-- A name that a generated name could be taken for. -/
  | reservedName (name : String) (site : Site)
  | malformed (functor : String) (site : Site)
  deriving Repr, DecidableEq

namespace SemanticError

def message : SemanticError → String
  | duplicate what name => s!"{what.text} '{name}' declared twice"
  | undeclaredObject name site => s!"undeclared object type '{name}' in {site.text}"
  | undeclaredRelation name site => s!"undeclared relation '{name}' in {site.text}"
  | undeclaredRule name site => s!"undeclared rule '{name}' in {site.text}"
  | undeclaredVariable name site => s!"undeclared variable '{name}' in {site.text}"
  | notAnObject node site => s!"'{node.text}' is not an object in {site.text}"
  | unknownField object field site => s!"object '{object}' has no field '{field}' in {site.text}"
  | arityMismatch name expected actual site =>
    s!"'{name}' takes {expected} arguments, got {actual} in {site.text}"
  | typeMismatch object field expected actual site =>
    s!"field '{object}.{field}' is declared {expected.name}, got {actual.typeText} in {site.text}"
  | reservedName name site => s!"'{name}' clashes with a generated name in {site.text}"
  | malformed functor site => s!"malformed '{functor}' expression in {site.text}"

end SemanticError

end Rulebook
