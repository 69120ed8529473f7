import Rulebook.Json.Writer
import Rulebook.Lowering.Document

/-!
# Programs

A program is the text of the clauses of a document, with what each clause stands for, the names of
the objects in the clauses, and the names of the tests.
-/

namespace Rulebook

/-- What a clause stands for. -/
inductive ClauseKind where
  | accessor (object field : String)
  | directive (relation : String)
  | rule (name : String)
  | test (name : String)
  | testCases
  deriving Repr, DecidableEq, Inhabited

namespace ClauseKind

def toJson : ClauseKind → Json
  | accessor object field =>
    .object [("Accessor", .object [("object", .string object), ("field", .string field)])]
  | directive relation => .object [("Directive", .object [("relation", .string relation)])]
  | rule name => .object [("Rule", .object [("name", .string name)])]
  | test name => .object [("Test", .object [("name", .string name)])]
  | testCases => .string "TestCases"

end ClauseKind

/-- A written clause. -/
structure WrittenClause where
  kind : ClauseKind
  text : String
  deriving Repr, DecidableEq, Inhabited

namespace WrittenClause

def toJson (c : WrittenClause) : Json := .object [("kind", c.kind.toJson), ("text", .string c.text)]

end WrittenClause

namespace Logic.Clause

def kind : Clause → ClauseKind
  | accessor _ owner field _ _ => .accessor owner field
  | directive relation _ => .directive relation
  | rule name _ _ => .rule name
  | test name _ => .test name
  | testCases _ => .testCases

/-- The clause in writing. -/
def written (o : Options) (c : Clause) : WrittenClause := ⟨c.kind, c.text o⟩

end Logic.Clause

structure Program where
  clauses : List WrittenClause
  /-- The name that each object has in the clauses. -/
  symbols : Table String
  testNames : List String
  deriving DecidableEq

namespace Program

/-- The texts of the clauses in order. -/
def texts (p : Program) : List String := p.clauses.map WrittenClause.text

/-- One clause on each line. -/
def listing (p : Program) : String := .join (p.texts.map (· ++ "\n"))

/-- The name of an object in the clauses. -/
def symbol? (p : Program) (object : String) : Option String := p.symbols.find? object

/-- The text of the first clause of this kind. -/
def clause? (p : Program) (kind : ClauseKind) : Option String :=
  (p.clauses.find? (·.kind == kind)).map WrittenClause.text

def ruleClause? (p : Program) (name : String) : Option String := p.clause? (.rule name)

def testClause? (p : Program) (name : String) : Option String := p.clause? (.test name)

/-- The accessors of an object in the order of its fields. -/
def accessors (p : Program) (object : String) : List String :=
  p.clauses.filterMap fun c => match c.kind with
    | .accessor owner _ => if owner = object then some c.text else none
    | _ => none

def toJson (p : Program) : Json :=
  .object [("clauses", .array (p.clauses.map WrittenClause.toJson)),
    ("symbols", .object (p.symbols.entries.map fun (key, symbol) => (key, .string symbol))),
    ("test_names", .array (p.testNames.map .string))]

/-- The compact JSON text of a program. -/
def toText (p : Program) : String := p.toJson.render

/-- The program of a document. -/
def ofDocument (o : Options) (d : Document) : Except SemanticError Program := do
  let theory ← Lowering.theory o.toNaming d
  return {
    clauses := theory.clauses.map (·.written o)
    symbols := .ofList (d.objects.keys.filterMap fun key =>
      (theory.symbols.find? key).map fun index => (key, o.toNaming.object index))
    testNames := d.testNames }

end Program

end Rulebook
