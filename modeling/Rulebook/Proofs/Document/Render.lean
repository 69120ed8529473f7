import Rulebook.Proofs.Document.Scope
import Rulebook.Proofs.Lowering.Correct
import Rulebook.Proofs.Token.Spelling

/-!
# Writing documents

A document can be written as a rule text: its objects, relations, rules and tests, in this order. An
operator is written between its operands, with parentheses around all three, so that no precedence is
needed to read it. Whether a name is a variable is not written: it follows from where the name stands.
-/

namespace Rulebook

namespace Lexeme

/-- An identifier. -/
def name (text : String) : Lexeme := ⟨.identifier, text⟩

def operator (op : Operator) : Lexeme := ⟨.operator op, ""⟩

def mark (d : Delimiter) : Lexeme := ⟨.delimiter d, ""⟩

def word (k : Keyword) : Lexeme := ⟨.keyword k, k.spelling⟩

end Lexeme

/-- Phrases with commas between them. -/
def separated (items : List (List Lexeme)) : List Lexeme := [Lexeme.mark .comma].intercalate items

/-- A list of phrases in braces. -/
def braced (items : List (List Lexeme)) : List Lexeme :=
  .mark .leftBrace :: separated items ++ [.mark .rightBrace]

/-- `name : Type`. -/
def typed (x : String) (type : FieldType) : List Lexeme := [.name x, .mark .colon, .name type.name]

namespace Term

/-- A term as it is written; a variable is its name. -/
def lexemes : Term → List Lexeme
  | int n => [⟨.int, toString n.toInt⟩]
  | float text => [⟨.float, text⟩]
  | string text => [⟨.string, text⟩]
  | ident x => [.name x]
  | var x _ => [.name x]
  | field f value => .name f :: .mark .colon :: value.lexemes

/-- A parameter is written with its type. -/
def parameter : Term → List Lexeme
  | var x type => typed x type
  | t => t.lexemes

@[simp] theorem lexemes_resolve (scope : Table FieldType) (t : Term) :
    (t.resolve scope).lexemes = t.lexemes := by
  cases t with
  | ident x =>
    simp only [resolve]
    cases scope.find? x <;> rfl
  | int _ | float _ | string _ | var _ _ | field _ _ => rfl

end Term

namespace Node

mutual

/-- A node as it is written: `(left op right)` for an operator, otherwise `functor(arg, …)`. -/
def lexemes : Node → List Lexeme
  | term t => t.lexemes
  | app functor args =>
    match Operator.ofSpelling? functor with
    | some op =>
      .mark .leftParen :: [Lexeme.operator op].intercalate (lexemesAll args) ++ [.mark .rightParen]
    | none => .name functor :: .mark .leftParen :: separated (lexemesAll args) ++ [.mark .rightParen]

/-- Several nodes as they are written. -/
def lexemesAll : List Node → List (List Lexeme)
  | [] => []
  | n :: rest => lexemes n :: lexemesAll rest

end

theorem lexemesAll_eq_map (nodes : List Node) : lexemesAll nodes = nodes.map lexemes := by
  induction nodes with
  | nil => rfl
  | cons n rest ih => rw [lexemesAll, ih, List.map_cons]

@[simp] theorem lexemes_resolve (scope : Table FieldType) (n : Node) :
    (n.resolve scope).lexemes = n.lexemes := by
  induction n using Node.induction with
  | term t => exact t.lexemes_resolve scope
  | app functor args ih =>
    have same : lexemesAll (resolveAll scope args) = lexemesAll args := by
      rw [resolveAll_eq_map, lexemesAll_eq_map, lexemesAll_eq_map, List.map_map]
      exact List.map_congr_left ih
    simp only [resolve, lexemes, same]

end Node

namespace Expr

/-- An expression as it is written: `x : Type { field : value, … }` for an instantiation. -/
def lexemes (e : Expr) : List Lexeme :=
  match e.instantiation? with
  | some (x, object) => typed x (.object object) ++ braced (e.args.tail.map Node.lexemes)
  | none => e.node.lexemes

/-- Resolving names does not change how an expression is written. -/
theorem lexemes_resolve {e : Expr} (bare : ∀ n ∈ e.args, n.Bare) (scope : Table FieldType) :
    (e.resolve scope).lexemes = e.node.lexemes := by
  rw [lexemes, Written.instantiation?_resolve bare scope]
  exact e.node.lexemes_resolve scope

end Expr

namespace Declaration

/-- A declaration as it is written. -/
def lexemes : Declaration → List Lexeme
  | object o =>
    .word .object :: .name o.name :: braced (o.fields.map fun f => typed f.name f.type)
  | relation r =>
    .word .relation :: .name r.name :: braced (r.fields.map fun f => typed f.name f.type)
  | rule r =>
    .word .rule :: .name r.name :: .mark .leftBrace ::
      (.word .input :: braced (r.params.map Term.parameter)) ++
      (.word .rules :: braced (r.body.map Expr.lexemes)) ++ [.mark .rightBrace]
  | test t =>
    .word .test :: ⟨.string, t.name⟩ :: .mark .leftBrace ::
      (.word .facts :: braced (t.facts.map Expr.lexemes)) ++
      (.word .rules :: braced (t.body.map Expr.lexemes)) ++ [.mark .rightBrace]

end Declaration

namespace Document

/-- All declarations, by kind. -/
def declarations (d : Document) : List Declaration :=
  d.objects.values.map .object ++ d.relations.values.map .relation ++
    d.rules.values.map .rule ++ d.tests.map .test

/-- A document as a rule text. -/
def render (d : Document) : String := layout (d.declarations.flatMap Declaration.lexemes)

end Document

end Rulebook
