import Rulebook.Expr
import Rulebook.Table

/-!
# Documents

What a rule text declares: objects and relations with their fields, rules with parameters and a
body, and tests with facts and goals.
-/

namespace Rulebook

structure Field where
  name : String
  type : FieldType
  deriving Repr, DecidableEq, Inhabited

/-- A record type: named fields in a fixed order. -/
structure Object where
  name : String
  fields : List Field
  deriving Repr, DecidableEq, Inhabited

namespace Object

/-- The field of this name and its position among the fields. -/
def field? (o : Object) (name : String) : Option (Nat × Field) :=
  (o.fields.zipIdx.find? (·.1.name == name)).map fun (field, position) => (position, field)

end Object

/-- A predicate whose facts a test may assert. -/
structure Relation where
  name : String
  fields : List Field
  deriving Repr, DecidableEq, Inhabited

namespace Relation

/-- A relation takes one argument for each field. -/
def arity (r : Relation) : Nat := r.fields.length

end Relation

/-- A rule holds if every expression of its body does. A text gives variables as parameters. -/
structure Rule where
  name : String
  params : List Term
  body : List Expr
  deriving Repr, DecidableEq, Inhabited

/-- A test sets up facts and asks for rules to hold. -/
structure Test where
  name : String
  facts : List Expr
  body : List Expr
  deriving Repr, DecidableEq, Inhabited

/-- One item of a rule text. -/
inductive Declaration where
  | object (o : Object)
  | relation (r : Relation)
  | rule (r : Rule)
  | test (t : Test)
  deriving Repr, DecidableEq

/-- What can be declared twice. -/
inductive Declared where
  | object | relation | rule | test | field | parameter | instantiation | predicate
  deriving Repr, DecidableEq

namespace Declared

def text : Declared → String
  | object => "object"
  | relation => "relation"
  | rule => "rule"
  | test => "test"
  | field => "field"
  | parameter => "parameter"
  | instantiation => "variable"
  | predicate => "predicate"

end Declared

namespace Declaration

def name : Declaration → String
  | object o => o.name
  | relation r => r.name
  | rule r => r.name
  | test t => t.name

def kind : Declaration → Declared
  | object _ => .object
  | relation _ => .relation
  | rule _ => .rule
  | test _ => .test

end Declaration

/-- All declarations of a rule text, in order and by kind. -/
structure Document where
  objects : Table Object := .empty
  relations : Table Relation := .empty
  rules : Table Rule := .empty
  tests : List Test := []
  deriving DecidableEq, Inhabited

namespace Document

def testNames (d : Document) : List String := d.tests.map Test.name

/-- The first test of this name. -/
def test? (d : Document) (name : String) : Option Test := d.tests.find? (·.name == name)

/-- Whether a declaration of the same kind and name is present. -/
def declares (d : Document) : Declaration → Bool
  | .object o => d.objects.contains o.name
  | .relation r => d.relations.contains r.name
  | .rule r => d.rules.contains r.name
  | .test t => d.tests.any (·.name == t.name)

/-- Take up a declaration. -/
def add (d : Document) : Declaration → Document
  | .object o => { d with objects := d.objects.insert o.name o }
  | .relation r => { d with relations := d.relations.insert r.name r }
  | .rule r => { d with rules := d.rules.insert r.name r }
  | .test t => { d with tests := d.tests ++ [t] }

end Document

end Rulebook
