import Rulebook.Logic.Writer
import Rulebook.SemanticError

/-!
# Lowering expressions

An expression becomes a term of the logic language. A field access has no term of its own: it
becomes a fresh variable and a goal that gives the variable its value. These goals come before the
goal that uses the variable, from left to right and from the inside out.
-/

namespace Rulebook.Lowering

/-- What lowering an expression looks up. -/
structure Env where
  document : Document
  naming : Naming
  /-- The numbers of the objects, by their names. -/
  symbols : Table Nat

/-- Lowering counts the numbers it gives out and may fail. -/
abbrev Lower := StateT Nat (Except SemanticError)

/-- A lowered expression: its term, and the goals that must come first. -/
structure Lowered where
  value : Logic.Term
  prerequisites : List Logic.Goal := []
  deriving Repr

namespace Lowered

/-- The prerequisites and then the value as a goal. -/
def goals (l : Lowered) : List Logic.Goal := l.prerequisites ++ [.holds l.value]

end Lowered

/-- The next number. -/
def nextIndex : Lower Nat := do
  let index := (← get) + 1
  set index
  return index

/-- What is left of a text after the start it should have. -/
def dropStart? : List Char → List Char → Option (List Char)
  | [], text => some text
  | _ :: _, [] => none
  | s :: start, c :: text => if s = c then dropStart? start text else none

/-- Whether a variable could be taken for a fresh one: the text before fresh variables, then digits
and nothing else. -/
def isFreshName (naming : Naming) (name : List Char) : Bool :=
  match dropStart? naming.variablePrefix.toList name with
  | some (c :: rest) => (c :: rest).all Char.isDigit
  | _ => false

/-- Whether a name could be taken for an object or an accessor: the text before objects, then digits,
then nothing or an underscore. -/
def isObjectName (naming : Naming) (name : List Char) : Bool :=
  match dropStart? naming.objectPrefix.toList name with
  | some rest =>
    !(rest.takeWhile Char.isDigit).isEmpty &&
      match rest.dropWhile Char.isDigit with
      | [] => true
      | c :: _ => c == '_'
  | none => false

/-- A variable of the document, unless it is written like a fresh one. -/
def userVariable (env : Env) (site : Site) (name : String) : Lower Logic.Var :=
  if isFreshName env.naming (Logic.variableChars name.toList) then throw (.reservedName name site)
  else return .user name

/-- The object of this name. -/
def objectNamed (env : Env) (site : Site) (name : String) : Lower Object :=
  match env.document.objects.find? name with
  | some object => return object
  | none => throw (.undeclaredObject name site)

/-- The number of the object of this name. -/
def symbolOf (env : Env) (site : Site) (name : String) : Lower Nat :=
  match env.symbols.find? name with
  | some symbol => return symbol
  | none => throw (.undeclaredObject name site)

/-- A term of the document as a term of the logic language. The name of an assigned field is
dropped. -/
def plainTerm : Term → Logic.Term
  | .int value => .int value
  | .float text => .float text
  | .string text => .quoted text
  | .ident name => .var (.user name)
  | .var name _ => .var (.user name)
  | .field _ value => plainTerm value

/-- A term whose variable, if it is one, is not written like a fresh one. -/
def term (env : Env) (site : Site) : Term → Lower Logic.Term
  | .int value => return .int value
  | .float text => return .float text
  | .string text => return .quoted text
  | .ident name => return .var (← userVariable env site name)
  | .var name _ => return .var (← userVariable env site name)
  | .field _ value => term env site value

/-- The value that a field of this type is assigned. -/
def fieldValue (env : Env) (site : Site) (object : Object) (field : Field) (value : Term) :
    Lower Logic.Term :=
  match field.type, value with
  | .string, .string text => return .quoted text
  | .string, .ident name => return .quoted name
  | .int, .int n => return .int n
  | .float, .int n => return .int n
  | .float, .float text => return .float text
  | .object _, .ident name => return .var (← userVariable env site name)
  | .object expected, .var name (.object actual) => do
    if expected = actual then return .var (← userVariable env site name)
    else throw (.typeMismatch object.name field.name field.type value site)
  | _, _ => throw (.typeMismatch object.name field.name field.type value site)

/-- The assignments of an instantiation, each to a field of the object. -/
def assignments (site : Site) (object : Object) : List Node → Lower (List (String × Term))
  | [] => return []
  | .term (.field name value) :: rest => do
    if (object.field? name).isNone then throw (.unknownField object.name name site)
    return (name, value) :: (← assignments site object rest)
  | _ :: _ => throw (.malformed Expr.newFunctor site)

/-- The values of all fields in their order; a field without an assignment is left open. -/
def fieldValues (env : Env) (site : Site) (object : Object) (assigned : List (String × Term)) :
    List Field → Lower (List Logic.Term)
  | [] => return []
  | field :: rest => do
    let value ← match assigned.find? (·.1 == field.name) with
      | some (_, value) => fieldValue env site object field value
      | none => pure .wildcard
    return value :: (← fieldValues env site object assigned rest)

/-- An instantiation: a variable of an object type, then assignments. -/
def instantiate (env : Env) (site : Site) : List Node → Lower Lowered
  | .term (.var name (.object objectName)) :: args => do
    let object ← objectNamed env site objectName
    let symbol ← symbolOf env site objectName
    let assigned ← assignments site object args
    let values ← fieldValues env site object assigned object.fields
    return { value := .unify (← userVariable env site name) (.construct symbol values) }
  | _ => throw (.malformed Expr.newFunctor site)

/-- The name that stands right of the dot of a field access. -/
def fieldName? : Node → Option String
  | .term (.ident name) => some name
  | .term (.var name _) => some name
  | _ => none

/-- The value of a field: the number of the fresh variable that holds it, the type of the field, and
the goals that lead to it. -/
structure Access where
  result : Nat
  type : FieldType
  goals : List Logic.Goal

/-- The value that a field is taken from: its variable, its object type, and the goals before it. -/
structure Target where
  value : Logic.Var
  objectName : String
  goals : List Logic.Goal

/-- Take a field of a target. -/
def project (env : Env) (site : Site) (target : Target) (field : String) : Lower Access := do
  let object ← objectNamed env site target.objectName
  let symbol ← symbolOf env site target.objectName
  match object.field? field with
  | none => throw (.unknownField object.name field site)
  | some (_, declared) =>
    let result ← nextIndex
    return ⟨result, declared.type,
      target.goals ++ [.access symbol declared.name result target.value]⟩

mutual

/-- A field access, by its two arguments. -/
def access (env : Env) (site : Site) : List Node → Lower Access
  | [left, right] =>
    match fieldName? right with
    | some field => do project env site (← target env site left) field
    | none => throw (.malformed Expr.accessFunctor site)
  | _ => throw (.malformed Expr.accessFunctor site)

/-- What stands left of a dot: a variable of an object type, or a field access whose field has one. -/
def target (env : Env) (site : Site) : Node → Lower Target
  | .term (.var name (.object objectName)) => do
    return ⟨← userVariable env site name, objectName, []⟩
  | .term (.ident name) => throw (.undeclaredVariable name site)
  | .app functor args =>
    if functor = Expr.accessFunctor then do
      let inner ← access env site args
      match inner.type with
      | .object objectName => return ⟨.fresh inner.result, objectName, inner.goals⟩
      | _ => throw (.notAnObject (.app functor args) site)
    else throw (.notAnObject (.app functor args) site)
  | node => throw (.notAnObject node site)

end

/-- How many arguments the predicate of this name takes; a rule comes before a relation. -/
def arity? (document : Document) (name : String) : Option Nat :=
  match document.rules.find? name, document.relations.find? name with
  | some rule, _ => some rule.params.length
  | none, some relation => some relation.arity
  | none, none => none

/-- The number of arguments must be the declared one. -/
def checkArity (site : Site) (name : String) (expected actual : Nat) : Lower Unit :=
  if actual = expected then return () else throw (.arityMismatch name expected actual site)

/-- A functor and its arguments; `lowered` lowers the arguments of an operator or a predicate. -/
def application (env : Env) (site : Site) (functor : String) (args : List Node)
    (lowered : Lower (List Logic.Term × List Logic.Goal)) : Lower Lowered :=
  if functor = Expr.newFunctor then instantiate env site args
  else if functor = Expr.accessFunctor then do
    let a ← access env site args
    return ⟨.var (.fresh a.result), a.goals⟩
  else
    match Operator.ofSpelling? functor with
    | some op => do
      let (values, goals) ← lowered
      return ⟨.apply (.operator op) values, goals⟩
    | none =>
      match arity? env.document functor with
      | none => throw (.undeclaredRule functor site)
      | some expected => do
        checkArity site functor expected args.length
        let (values, goals) ← lowered
        return ⟨.apply (.predicate functor) values, goals⟩

mutual

/-- A node of an expression. -/
def node (env : Env) (site : Site) : Node → Lower Lowered
  | .term t => do return { value := ← term env site t }
  | .app functor args => application env site functor args (arguments env site args)

/-- Arguments from left to right: their terms, and all their goals. -/
def arguments (env : Env) (site : Site) : List Node → Lower (List Logic.Term × List Logic.Goal)
  | [] => return ([], [])
  | first :: rest => do
    let lowered ← node env site first
    let (values, goals) ← arguments env site rest
    return (lowered.value :: values, lowered.prerequisites ++ goals)

end

/-- An expression. -/
def expr (env : Env) (site : Site) (e : Expr) : Lower Lowered := node env site e.node

end Rulebook.Lowering
