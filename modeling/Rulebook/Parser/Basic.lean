import Rulebook.Document
import Rulebook.Token.Scan

/-!
# Parsing: state and first steps

A parser holds a current token, what the scanner gives after it, and the variables in scope. Every
step leaves a state behind, also when it fails: tokens that were consumed stay consumed, and a
variable that was registered stays registered.
-/

namespace Rulebook

/-- What a rule text should hold at some place. -/
inductive Expected where
  | kind (kind : Token.Kind)
  | identifier
  | literal
  | operand
  | operator
  | testName
  | declaration
  | separator
  deriving Repr, DecidableEq

namespace Expected

def text : Expected → String
  | kind k => s!"'{k.spelling}'"
  | identifier => "identifier"
  | literal => "literal"
  | operand => "operand"
  | operator => "operator"
  | testName => "test name"
  | declaration => "'object', 'relation', 'rule' or 'test'"
  | separator => "',' or '\x7d'"

end Expected

/-- Why a text is no document, or no expression. -/
inductive ParseError where
  /-- A piece of the text is no token. -/
  | scan (error : ScanError)
  /-- A token stands where something else is expected. -/
  | unexpected (expected : Expected) (found : Token)
  /-- The value of an integer token is out of range. -/
  | integer (digits : String) (position : Position)
  /-- An operator that joins no operands stands between two. -/
  | notBinary (op : Operator) (position : Position)
  /-- A name is declared a second time. -/
  | duplicate (what : Declared) (name : String) (position : Position)
  deriving Repr, DecidableEq

namespace ParseError

/-- The text of the error without its place. -/
def detail : ParseError → String
  | scan e => e.fault.message
  | unexpected expected found => s!"Expected {expected.text}, got {found.describe}"
  | integer digits _ => s!"Invalid integer: {digits}"
  | notBinary op _ => s!"'{op.spelling}' is not a binary operator"
  | duplicate what name _ => s!"{what.text} '{name}' declared twice"

/-- Where the error is. -/
def position : ParseError → Position
  | scan e => e.position
  | unexpected _ found => found.position
  | integer _ p => p
  | notBinary _ p => p
  | duplicate _ _ p => p

def message (e : ParseError) : String :=
  match e with
  | scan e => e.message
  | e => s!"Parse error at {e.position.text}: {e.detail}"

end ParseError

/-- The results of a scanner that are not comments: a finite list, then one that repeats for ever. -/
structure TokenStream where
  pending : List ScanResult
  last : ScanResult

namespace TokenStream

def ofScanner (s : Scanner) : TokenStream :=
  let results := s.results
  ⟨results.1.filter (ScanResult.isSignificant ·), results.2⟩

def ofString (text : String) : TokenStream := ofScanner (.ofString text)

/-- The next result and what follows it. -/
def next (stream : TokenStream) : ScanResult × TokenStream :=
  match stream.pending with
  | [] => (stream.last, stream)
  | result :: pending => (result, { stream with pending })

end TokenStream

namespace Parser

structure State where
  /-- The token under inspection. -/
  current : Token
  /-- What follows it. -/
  ahead : TokenStream
  /-- The variables of the declaration at hand and their types. -/
  scope : Table FieldType

/-- More steps than any parser takes from this state. -/
def State.bound (s : State) : Nat := s.ahead.pending.length + 2

/-- A state before the first token of a text. -/
def start (text : String) : Except ParseError State :=
  match (TokenStream.ofString text).next with
  | (.ok t, ahead) => .ok ⟨t, ahead, .empty⟩
  | (.error e, _) => .error (.scan e)

end Parser

/-- A parser of `α`: it gives a value or an error, and a state in either case. -/
abbrev Parser := EStateM ParseError Parser.State

namespace Parser

variable {α : Type}

def current : Parser Token := return (← get).current

def bound : Parser Nat := return (← get).bound

/-- Fail at the current token. -/
def unexpected (expected : Expected) : Parser α := fun s =>
  .error (.unexpected expected s.current) s

/-- Move to the next token and give the one left behind. If the scanner fails, the current token
stays and the error is consumed. -/
def advance : Parser Token := fun s =>
  match s.ahead.next with
  | (.ok t, ahead) => .ok s.current { s with current := t, ahead }
  | (.error e, ahead) => .error (.scan e) { s with ahead }

/-- The token after the current one. If the scanner fails there, the error is consumed. -/
def peek : Parser Token := fun s =>
  match s.ahead.next with
  | (.ok t, _) => .ok t s
  | (.error e, ahead) => .error (.scan e) { s with ahead }

/-- Move over a token of the given kind. -/
def expect (kind : Token.Kind) : Parser Token := do
  if (← current).kind = kind then advance else unexpected (.kind kind)

/-- Move over an identifier and give its name. -/
def identifier : Parser String := do
  if (← current).kind = .identifier then return (← advance).literal else unexpected .identifier

/-- Nothing is left. -/
def endOfInput : Parser Unit := do
  let _ ← expect .endOfInput

/-- Forget all variables. -/
def clearScope : Parser Unit := modify fun s => { s with scope := .empty }

/-- Register a variable; the answer tells whether its name was taken. -/
def declare (name : String) (type : FieldType) : Parser Bool := fun s =>
  .ok (s.scope.contains name) { s with scope := s.scope.insert name type }

/-- Items separated by commas, up to a closing brace; an item sees those before it. -/
def itemsFrom (item : List α → Parser α) : Nat → List α → Parser (List α)
  | 0, _ => unexpected .separator
  | steps + 1, before => do
    let items := before ++ [← item before]
    match (← current).kind with
    | .delimiter .comma => do
      let _ ← advance
      itemsFrom item steps items
    | .delimiter .rightBrace => do
      let _ ← advance
      return items
    | _ => unexpected .separator

/-- A braced list of one item at least. -/
def bracedSome (item : List α → Parser α) : Parser (List α) := do
  let _ ← expect (.delimiter .leftBrace)
  itemsFrom item (← bound) []

/-- A braced list that may be empty. -/
def bracedMany (item : List α → Parser α) : Parser (List α) := do
  let _ ← expect (.delimiter .leftBrace)
  if (← current).kind = .delimiter .rightBrace then
    let _ ← advance
    return []
  itemsFrom item (← bound) []

end Parser

end Rulebook
