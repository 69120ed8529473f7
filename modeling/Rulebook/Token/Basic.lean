import Rulebook.Position

/-!
# Tokens

The vocabulary of rule texts: operators, delimiters, keywords and literals, each with its spelling,
and tokens, which carry what was read and where.
-/

namespace Rulebook

/-- Operators. All but `bang` join two operands. -/
inductive Operator where
  | plus | minus | star | slash | percent
  | equal | less | greater | bang | notEqual | lessEqual | greaterEqual
  | dot
  deriving Repr, DecidableEq, Inhabited

namespace Operator

/-- Every operator. -/
def all : List Operator :=
  [plus, minus, star, slash, percent, equal, less, greater, bang, notEqual, lessEqual,
   greaterEqual, dot]

/-- How the operator is written. Equality may also be written with one sign. -/
def spelling : Operator → String
  | plus => "+"
  | minus => "-"
  | star => "*"
  | slash => "/"
  | percent => "%"
  | equal => "=="
  | less => "<"
  | greater => ">"
  | bang => "!"
  | notEqual => "!="
  | lessEqual => "<="
  | greaterEqual => ">="
  | dot => "."

/-- The operator that has this spelling. -/
def ofSpelling? (text : String) : Option Operator := all.find? (·.spelling == text)

/-- Comparisons of order and equality. -/
def isComparison : Operator → Bool
  | equal | notEqual | less | lessEqual | greater | greaterEqual => true
  | _ => false

/-- How tightly the operator binds two operands: comparisons least, field access most. -/
def precedence? : Operator → Option Nat
  | equal | notEqual | less | lessEqual | greater | greaterEqual => some 3
  | plus | minus => some 4
  | star | slash | percent => some 5
  | dot => some 6
  | bang => none

/-- Reading a spelling finds exactly the operator that is spelled so. -/
theorem ofSpelling?_eq_some_iff {text : String} {op : Operator} :
    ofSpelling? text = some op ↔ op.spelling = text := by
  constructor
  · intro h
    have := List.find?_some h
    simpa using this
  · rintro rfl
    cases op <;> decide

end Operator

/-- Marks that group and separate. -/
inductive Delimiter where
  | leftParen | leftBracket | leftBrace | comma
  | rightParen | rightBracket | rightBrace | semicolon | colon
  deriving Repr, DecidableEq, Inhabited

namespace Delimiter

/-- How the delimiter is written. -/
def spelling : Delimiter → String
  | leftParen => "("
  | leftBracket => "["
  | leftBrace => "\x7b"
  | comma => ","
  | rightParen => ")"
  | rightBracket => "]"
  | rightBrace => "\x7d"
  | semicolon => ";"
  | colon => ":"

end Delimiter

/-- Words with a meaning of their own, which no identifier may take. -/
inductive Keyword where
  | object | rule | test | facts | rules | input | relation
  deriving Repr, DecidableEq, Inhabited

namespace Keyword

/-- Every keyword. -/
def all : List Keyword := [object, rule, test, facts, rules, input, relation]

/-- How the keyword is written. -/
def spelling : Keyword → String
  | object => "object"
  | rule => "rule"
  | test => "test"
  | facts => "facts"
  | rules => "rules"
  | input => "input"
  | relation => "relation"

/-- The keyword that has this spelling. -/
def ofSpelling? (text : String) : Option Keyword := all.find? (·.spelling == text)

/-- Reading a spelling finds exactly the keyword that is spelled so. -/
theorem ofSpelling?_eq_some_iff {text : String} {k : Keyword} :
    ofSpelling? text = some k ↔ k.spelling = text := by
  constructor
  · intro h
    have := List.find?_some h
    simpa using this
  · rintro rfl
    cases k <;> decide

end Keyword

namespace Token

/-- The kind of a token. -/
inductive Kind where
  | endOfInput
  | comment
  | identifier
  | int
  | float
  | string
  | operator (op : Operator)
  | delimiter (mark : Delimiter)
  | keyword (word : Keyword)
  deriving Repr, DecidableEq, Inhabited

namespace Kind

/-- The spelling of a kind that has one, and a name for the others. -/
def spelling : Kind → String
  | endOfInput => "EOF"
  | comment => "COMMENT"
  | identifier => "ident"
  | int => "int"
  | float => "float"
  | string => "string"
  | operator op => op.spelling
  | delimiter mark => mark.spelling
  | keyword word => word.spelling

/-- How tightly a token of this kind binds two operands, if it can join any. -/
def precedence? : Kind → Option Nat
  | operator op => op.precedence?
  | _ => none

/-- Kinds that stand for a value or a name. -/
def isLiteral : Kind → Bool
  | identifier | int | float | string => true
  | _ => false

def isOperator : Kind → Bool
  | operator _ => true
  | _ => false

def isKeyword : Kind → Bool
  | keyword _ => true
  | _ => false

/-- The kind of a word: a keyword if it is spelled like one, an identifier otherwise. -/
def ofWord (word : String) : Kind :=
  match Keyword.ofSpelling? word with
  | some k => keyword k
  | none => identifier

end Kind

end Token

/-- What a piece of text says: its kind, and the text that tells it from others of its kind.
Operators, delimiters and the end of input carry no text. -/
structure Lexeme where
  kind : Token.Kind
  literal : String
  deriving Repr, DecidableEq, Inhabited

namespace Lexeme

/-- How a message names the lexeme. -/
def describe (t : Lexeme) : String :=
  match t.kind with
  | .identifier => s!"identifier '{t.literal}'"
  | .int | .float => s!"number {t.literal}"
  | .string => s!"string \"{t.literal}\""
  | .endOfInput => "end of input"
  | .keyword k => s!"keyword '{k.spelling}'"
  | kind => s!"'{kind.spelling}'"

end Lexeme

/-- A token is a lexeme and the place where it starts. -/
structure Token extends Lexeme where
  position : Position
  deriving Repr, DecidableEq, Inhabited

end Rulebook
