import Rulebook.Parser.Document
import Rulebook.Program.Cache

/-!
# Compiling rule texts

From a rule text to a program, with one error type for everything that can go wrong on the way.
-/

namespace Rulebook

/-- Why there is no program. A name that is declared twice is a semantic error, whether the parser or
the lowering finds it. -/
inductive CompileError where
  | lexical (error : ScanError)
  | unexpected (expected : Expected) (found : Token)
  | integer (digits : String) (position : Position)
  | notBinary (op : Operator) (position : Position)
  | semantic (error : SemanticError)
  | options (error : OptionsError)
  | cache (error : CacheError)
  deriving Repr, DecidableEq

namespace CompileError

def ofParseError : ParseError → CompileError
  | .scan e => lexical e
  | .unexpected expected found => unexpected expected found
  | .integer digits position => integer digits position
  | .notBinary op position => notBinary op position
  | .duplicate what name _ => semantic (.duplicate what name)

def message : CompileError → String
  | lexical e => s!"Lexical error at {e.position.text}: {e.fault.message}"
  | unexpected expected found =>
    s!"Syntax error at {found.position.text}: Expected {expected.text}, got {found.describe}"
  | integer digits position => s!"Syntax error at {position.text}: Invalid integer: {digits}"
  | notBinary op position =>
    s!"Operator error at {position.text}: '{op.spelling}' has no binary precedence"
  | semantic e => s!"Semantic error: {e.message}"
  | options e => s!"Configuration error: {e.message}"
  | cache e => s!"Serialization error: {e.message}"

end CompileError

namespace Compiler

/-- The document of a rule text. -/
def parse (source : String) : Except CompileError Document :=
  (Document.parse source).mapError .ofParseError

/-- The expression of a text. -/
def parseExpr (source : String) : Except CompileError Expr :=
  (Expr.parse source).mapError .ofParseError

/-- Whether a text is a well-formed document. -/
def validate (source : String) : Except CompileError Unit := do
  let _ ← parse source

/-- The program of a document. -/
def generate (o : Options) (d : Document) : Except CompileError Program :=
  (Program.ofDocument o d).mapError .semantic

/-- Options that can be used. -/
def checkOptions (o : Options) : Except CompileError Options := do
  o.validate.mapError .options
  return o

/-- The program of a rule text. -/
def compile (o : Options) (source : String) : Except CompileError Program := do
  generate o (← parse source)

/-- The program at the front of some bytes. -/
def load (bytes : List UInt8) : Except CompileError Program :=
  (Program.ofBytes bytes).mapError .cache

end Compiler

end Rulebook
