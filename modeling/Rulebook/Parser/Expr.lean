import Rulebook.Parser.Basic
import Rulebook.Parser.Chain

/-!
# Parsing expressions

An expression is an invocation `functor(arg, …)` or a chain of operands and operators. An operand is
a literal or a chain in parentheses.
-/

namespace Rulebook.Parser

/-- The value of an integer literal. -/
def integerOf? (digits : String) : Option Int64 :=
  let value := Text.decimalValue digits.toList
  if value ≤ maxInteger then some (.ofNat value) else none

/-- A name is a variable if the scope binds it. -/
def resolve (name : String) : Parser Term := do
  match (← get).scope.find? name with
  | some type => return .var name type
  | none => return .ident name

/-- Move over a literal. -/
def literal : Parser Term := do
  let token ← advance
  match token.kind with
  | .identifier => resolve token.literal
  | .int =>
    match integerOf? token.literal with
    | some value => return .int value
    | none => throw (.integer token.literal token.position)
  | .float => return .float token.literal
  | .string => return .string token.literal
  | _ => throw (.unexpected .literal token)

/-- Move over an operator that joins operands. -/
def binaryOperator (op : Operator) : Parser Nat := do
  let token ← advance
  match op.precedence? with
  | some precedence => return precedence
  | none => throw (.notBinary op token.position)

/-- An operand; `group` parses what stands in parentheses. -/
def operand (group : Parser Node) : Parser Node := do
  match (← current).kind with
  | .delimiter .leftParen => do
    let _ ← advance
    let node ← group
    let _ ← expect (.delimiter .rightParen)
    return node
  | kind => if kind.isLiteral then return .term (← literal) else unexpected .operand

/-- The rest of a chain, as long as operators follow. -/
def chainFrom (operand : Parser Node) : Nat → ChainTree → Parser ChainTree
  | 0, tree => return tree
  | steps + 1, tree => do
    match (← current).kind with
    | .operator op => do
      let precedence ← binaryOperator op
      let node ← operand
      chainFrom operand steps (tree.attach op precedence node)
    | _ => return tree

/-- A chain in at most so many steps. -/
def chainWithin : Nat → Parser Node
  | 0 => unexpected .operand
  | steps + 1 => do
    let first ← operand (chainWithin steps)
    let tree ← chainFrom (operand (chainWithin steps)) steps (.leaf first)
    return tree.node

/-- A chain of operands and operators; one operand alone is a chain. -/
def chain : Parser Node := do chainWithin (← bound)

/-- Arguments separated by commas. -/
def argumentsFrom : Nat → List Node → Parser (List Node)
  | 0, before => return before
  | steps + 1, before => do
    let args := before ++ [← chain]
    if (← current).kind = .delimiter .comma then
      let _ ← advance
      argumentsFrom steps args
    else
      return args

/-- `functor(arg, …)`. -/
def invocation : Parser Expr := do
  let functor ← identifier
  let _ ← expect (.delimiter .leftParen)
  let args ←
    if (← current).kind = .delimiter .rightParen then pure []
    else argumentsFrom (← bound) []
  let _ ← expect (.delimiter .rightParen)
  return ⟨functor, args⟩

/-- Whether an identifier is current and a parenthesis follows it. -/
def atInvocation : Parser Bool := do
  if (← current).kind = .identifier then
    return (← peek).kind = .delimiter .leftParen
  else
    return false

/-- An expression of a rule body: an invocation, or a chain with at least one operator. -/
def expression : Parser Expr := do
  if ← atInvocation then
    invocation
  else
    match ← chain with
    | .app functor args => return ⟨functor, args⟩
    | .term _ => unexpected .operator

end Rulebook.Parser
