import Rulebook.Parser.Expr

/-!
# Parsing documents

The declarations of a rule text. A name that is declared twice is an error at the second
declaration, found once that declaration is complete.
-/

namespace Rulebook.Parser

/-- `name : type`. -/
def field : Parser Field := do
  let name ← identifier
  let _ ← expect (.delimiter .colon)
  return ⟨name, .ofName (← identifier)⟩

/-- `name : type`, one more field of `owner`, whose name no field before it has. -/
def newField (owner : String) (before : List Field) : Parser Field := do
  let position := (← current).position
  let f ← field
  if before.any (·.name == f.name) then
    throw (.duplicate .field s!"{owner}.{f.name}" position)
  return f

/-- `{ name : type, … }`, the fields of `owner`, with distinct names. -/
def fields (owner : String) : Parser (List Field) := bracedSome (newField owner)

def object : Parser Object := do
  let name ← identifier
  return ⟨name, ← fields name⟩

def relation : Parser Relation := do
  let name ← identifier
  return ⟨name, ← fields name⟩

/-- A parameter is in scope for the rest of its rule. -/
def param : Parser Term := do
  let position := (← current).position
  let ⟨name, type⟩ ← field
  if ← declare name type then
    throw (.duplicate .parameter name position)
  return .var name type

/-- `name { input { … } rules { … } }`. -/
def rule : Parser Rule := do
  clearScope
  let name ← identifier
  let _ ← expect (.delimiter .leftBrace)
  let _ ← expect (.keyword .input)
  let params ← bracedMany fun _ => param
  let _ ← expect (.keyword .rules)
  let body ← bracedMany fun _ => expression
  let _ ← expect (.delimiter .rightBrace)
  clearScope
  return ⟨name, params, body⟩

/-- `name : literal`, the assignment of a field of `owner`. -/
def assignment (owner : String) (before : List (String × Term)) : Parser (String × Term) := do
  let position := (← current).position
  let name ← identifier
  let _ ← expect (.delimiter .colon)
  let value ← literal
  if before.any (·.1 == name) then
    throw (.duplicate .field s!"{owner}.{name}" position)
  return (name, value)

/-- `name : Type { field : literal, … }`. The variable is in scope for the rest of its test. -/
def instantiation : Parser Expr := do
  let position := (← current).position
  let name ← identifier
  let _ ← expect (.delimiter .colon)
  let type := FieldType.object (← identifier)
  let assignments ← bracedSome (assignment name)
  if ← declare name type then
    throw (.duplicate .instantiation name position)
  return ⟨Expr.newFunctor,
    .term (.var name type) :: assignments.map fun (field, value) => .term (.field field value)⟩

def fact : Parser Expr := do
  if ← atInvocation then invocation else instantiation

/-- The name of a test is a string or an identifier. -/
def testName : Parser String := do
  match (← current).kind with
  | .string | .identifier => return (← advance).literal
  | _ => unexpected .testName

/-- `name { facts { … } rules { … } }`. -/
def test : Parser Test := do
  clearScope
  let name ← testName
  let _ ← expect (.delimiter .leftBrace)
  let _ ← expect (.keyword .facts)
  let facts ← bracedMany fun _ => fact
  let _ ← expect (.keyword .rules)
  let body ← bracedMany fun _ => invocation
  let _ ← expect (.delimiter .rightBrace)
  clearScope
  return ⟨name, facts, body⟩

/-- One declaration, from its keyword on. -/
def declaration : Parser Declaration := do
  match (← current).kind with
  | .keyword .object => do
    let _ ← advance
    return .object (← object)
  | .keyword .relation => do
    let _ ← advance
    return .relation (← relation)
  | .keyword .rule => do
    let _ ← advance
    return .rule (← rule)
  | .keyword .test => do
    let _ ← advance
    return .test (← test)
  | _ => unexpected .declaration

/-- Declarations up to the end of the text, added to a document. -/
def declarationsFrom : Nat → Document → Parser Document
  | 0, _ => unexpected .declaration
  | steps + 1, document => do
    let first ← current
    if first.kind = .endOfInput then
      return document
    else
      let d ← declaration
      if document.declares d then
        throw (.duplicate d.kind d.name first.position)
      declarationsFrom steps (document.add d)

/-- A whole document. -/
def document : Parser Document := do declarationsFrom (← bound) {}

end Rulebook.Parser

namespace Rulebook

/-- Run a parser on a text. -/
def Parser.runOn (p : Parser α) (text : String) : Except ParseError α := do
  let s ← Parser.start text
  match p s with
  | .ok a _ => .ok a
  | .error e _ => .error e

/-- The document that a text declares. -/
def Document.parse (text : String) : Except ParseError Document := Parser.document.runOn text

/-- The expression that a text consists of. -/
def Expr.parse (text : String) : Except ParseError Expr :=
  Parser.runOn (do let e ← Parser.expression; Parser.endOfInput; return e) text

end Rulebook
