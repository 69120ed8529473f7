import Rulebook.Lowering.Basic

/-!
# Lowering documents

A document is checked as a whole and then becomes clauses: an accessor for each field of each object,
a directive for each relation, one clause for each rule and each test, and the list of tests.
-/

namespace Rulebook.Lowering

/-! ## Checks of the whole document -/

/-- Predicates that the clauses of tests and the running of tests define. -/
def reservedPredicates : List String := ["test", "test_cases", "run_tests", "run_test_cases"]

/-- Every type that a declaration names, with the declaration. -/
def typeUses (d : Document) : List (FieldType × Site) :=
  d.objects.values.flatMap (fun o => o.fields.map fun f => (f.type, .object o.name)) ++
  d.relations.values.flatMap (fun r => r.fields.map fun f => (f.type, .relation r.name)) ++
  d.rules.values.flatMap fun r => r.params.filterMap fun
    | .var _ type => some (type, .rule r.name)
    | _ => none

/-- A type that names no declared object. -/
def typeFault? (d : Document) : FieldType × Site → Option SemanticError
  | (.object name, site) =>
    if d.objects.contains name then none else some (.undeclaredObject name site)
  | _ => none

/-- The names of all rules, then of all relations. -/
def predicateNames (d : Document) : List (String × Site) :=
  d.rules.keys.map (fun name => (name, .rule name)) ++
  d.relations.keys.map fun name => (name, .relation name)

/-- A predicate whose name is taken by generated clauses. -/
def nameFault? (naming : Naming) : String × Site → Option SemanticError
  | (name, site) =>
    if reservedPredicates.contains name || isObjectName naming name.toList then
      some (.reservedName name site)
    else none

/-- A name that is both a rule and a relation. -/
def clash? (d : Document) : Option SemanticError :=
  (d.rules.keys.find? d.relations.contains).map (.duplicate .predicate)

/-- The first fault of the document as a whole. -/
def fault? (naming : Naming) (d : Document) : Option SemanticError :=
  (typeUses d).findSome? (typeFault? d) <|> (predicateNames d).findSome? (nameFault? naming) <|>
    clash? d

/-! ## Objects -/

/-- The objects with their numbers, from one on. -/
def numbered (d : Document) : List (Object × Nat) := d.objects.values.zipIdx 1

/-- The accessors of an object. -/
def accessors : Object × Nat → List Logic.Clause
  | (o, index) => o.fields.zipIdx.map fun (field, position) =>
    .accessor index o.name field.name position o.fields.length

/-- The numbers of the objects, by their own names. -/
def symbolTable (d : Document) : Table Nat := .ofList ((numbered d).map fun (o, i) => (o.name, i))

/-! ## Rules and tests -/

/-- Terms from left to right. -/
def terms (env : Env) (site : Site) : List Term → Lower (List Logic.Term)
  | [] => return []
  | t :: rest => do return (← term env site t) :: (← terms env site rest)

/-- The goals of a body, expression by expression. -/
def bodyGoals (env : Env) (site : Site) : List Expr → Lower (List Logic.Goal)
  | [] => return []
  | e :: rest => do return (← expr env site e).goals ++ (← bodyGoals env site rest)

def rule (env : Env) (r : Rule) : Lower Logic.Clause := do
  let params ← terms env (.rule r.name) r.params
  return .rule r.name params (← bodyGoals env (.rule r.name) r.body)

/-- The goals that set up a fact, and the fact if it has to be taken away again. -/
def fact (env : Env) (site : Site) (e : Expr) : Lower (List Logic.Goal × List Logic.Term) :=
  if e.functor = Expr.newFunctor then do
    return ((← expr env site e).goals, [])
  else
    match env.document.relations.find? e.functor with
    | none => throw (.undeclaredRelation e.functor site)
    | some relation => do
      checkArity site relation.name relation.arity e.args.length
      let (values, goals) ← arguments env site e.args
      let fact := .apply (.predicate e.functor) values
      return (goals ++ [.assert fact], [fact])

/-- The goals of all facts, and all facts to take away. -/
def facts (env : Env) (site : Site) : List Expr → Lower (List Logic.Goal × List Logic.Term)
  | [] => return ([], [])
  | e :: rest => do
    let (goals, asserted) ← fact env site e
    let (laterGoals, laterAsserted) ← facts env site rest
    return (goals ++ laterGoals, asserted ++ laterAsserted)

/-- The goals of the rules that a test asks for. -/
def checks (env : Env) (site : Site) : List Expr → Lower (List Logic.Goal)
  | [] => return []
  | e :: rest => do
    if !env.document.rules.contains e.functor then throw (.undeclaredRule e.functor site)
    return (← expr env site e).goals ++ (← checks env site rest)

/-- Checks after which the facts are taken away, whether the checks hold or not. -/
def cleaningUp (checks : List Logic.Goal) (asserted : List Logic.Term) : List Logic.Goal :=
  if asserted.isEmpty then checks
  else [.choice checks (asserted.map .retract) (asserted.map .retract ++ [.fail])]

def test (env : Env) (t : Test) : Lower Logic.Clause := do
  let (goals, asserted) ← facts env (.test t.name) t.facts
  let body ← checks env (.test t.name) t.body
  return .test t.name (goals ++ cleaningUp body asserted)

/-- The clauses of several declarations, in order. -/
def clausesOf (lower : α → Lower Logic.Clause) : List α → Lower (List Logic.Clause)
  | [] => return []
  | a :: rest => do return (← lower a) :: (← clausesOf lower rest)

/-- What a document becomes: clauses, and the numbers of its objects. -/
structure Theory where
  clauses : List Logic.Clause
  symbols : Table Nat

/-- Lower a document. -/
def theory (naming : Naming) (d : Document) : Except SemanticError Theory :=
  match fault? naming d with
  | some e => .error e
  | none => do
    let env : Env := ⟨d, naming, symbolTable d⟩
    let (ruleClauses, count) ← (clausesOf (rule env) d.rules.values).run d.objects.values.length
    let (testClauses, _) ← (clausesOf (test env) d.tests).run count
    return {
      clauses := (numbered d).flatMap accessors ++
        d.relations.values.map (fun r => .directive r.name r.arity) ++
        ruleClauses ++ testClauses ++ [.testCases d.testNames]
      symbols := symbolTable d }

end Rulebook.Lowering
