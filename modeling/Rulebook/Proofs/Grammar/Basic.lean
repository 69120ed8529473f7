import Rulebook.Document
import Rulebook.Text.Decimal
import Rulebook.Token.Basic

/-!
# The grammar of rule texts

Which lists of tokens are phrases of the language, and what each phrase says. A relation such as
`Chain` or `Declares` links the tokens of a phrase to the tree that the phrase is written as; only
the kinds and the literals of tokens matter, never their positions.

In these trees every name is still bare. `Written.Declaration.tree` resolves names against the
variables of the declaration and gives what the declaration means.
-/

namespace Rulebook

/-! ## Declarations as they are written -/

namespace Written

/-- A fact of a test, before names are resolved. -/
inductive Fact where
  | invocation (e : Expr)
  | instantiation (name object : String) (assigned : List (String × Term))

structure Rule where
  name : String
  params : List Field
  body : List Expr

structure Test where
  name : String
  facts : List Fact
  body : List Expr

inductive Declaration where
  | object (o : Object)
  | relation (r : Relation)
  | rule (r : Rule)
  | test (t : Test)

end Written

/-! ## Phrases -/

namespace Grammar

/-- A literal is one token. -/
inductive Literal : Token → Term → Prop
  | name {t : Token} : t.kind = .identifier → Literal t (.ident t.literal)
  | int {t : Token} : t.kind = .int → Literal t (.int (.ofNat (Text.decimalValue t.literal.toList)))
  | float {t : Token} : t.kind = .float → Literal t (.float t.literal)
  | string {t : Token} : t.kind = .string → Literal t (.string t.literal)

/-- A chain of operands in which every operator outside parentheses binds at least as tightly as the
level. The operands of an operator are chains too: the left one binds at least as tightly as the
operator, the right one more tightly, so operators of one precedence group to the left. -/
inductive Chain : Nat → List Token → Node → Prop
  | literal {level : Nat} {t : Token} {v : Term} : Literal t v → Chain level [t] (.term v)
  | group {level : Nat} {l r : Token} {ts : List Token} {n : Node} :
      l.kind = .delimiter .leftParen → Chain 0 ts n → r.kind = .delimiter .rightParen →
      Chain level (l :: ts ++ [r]) n
  | join {level p : Nat} {op : Operator} {t : Token} {ts us : List Token} {left right : Node} :
      op.precedence? = some p → level ≤ p → Chain p ts left → t.kind = .operator op →
      Chain (p + 1) us right → Chain level (ts ++ t :: us) (.app op.spelling [left, right])

/-- Phrases with commas between them, one at least. -/
inductive Separated {α : Type} (item : List Token → α → Prop) : List Token → List α → Prop
  | one {ts : List Token} {a : α} : item ts a → Separated item ts [a]
  | more {ts us : List Token} {comma : Token} {a : α} {as : List α} :
      item ts a → comma.kind = .delimiter .comma → Separated item us as →
      Separated item (ts ++ comma :: us) (a :: as)

/-- A braced list of one phrase at least. -/
inductive Braced {α : Type} (item : List Token → α → Prop) : List Token → List α → Prop
  | mk {l r : Token} {ts : List Token} {as : List α} :
      l.kind = .delimiter .leftBrace → Separated item ts as → r.kind = .delimiter .rightBrace →
      Braced item (l :: ts ++ [r]) as

/-- A braced list that may be empty. -/
inductive BracedAny {α : Type} (item : List Token → α → Prop) : List Token → List α → Prop
  | none {l r : Token} :
      l.kind = .delimiter .leftBrace → r.kind = .delimiter .rightBrace → BracedAny item [l, r] []
  | some {ts : List Token} {as : List α} : Braced item ts as → BracedAny item ts as

/-- `functor(arg, …)`; an argument is a chain. -/
inductive Invocation : List Token → Expr → Prop
  | none {f l r : Token} :
      f.kind = .identifier → l.kind = .delimiter .leftParen → r.kind = .delimiter .rightParen →
      Invocation [f, l, r] ⟨f.literal, []⟩
  | some {f l r : Token} {ts : List Token} {args : List Node} :
      f.kind = .identifier → l.kind = .delimiter .leftParen → Separated (Chain 0) ts args →
      r.kind = .delimiter .rightParen → Invocation (f :: l :: ts ++ [r]) ⟨f.literal, args⟩

/-- An invocation, or a chain that is more than one literal. -/
inductive Expression : List Token → Expr → Prop
  | invocation {ts : List Token} {e : Expr} : Invocation ts e → Expression ts e
  | chain {ts : List Token} {functor : String} {args : List Node} :
      Chain 0 ts (.app functor args) → Expression ts ⟨functor, args⟩

/-- `name : type`. -/
inductive Typed : List Token → Field → Prop
  | mk {name colon type : Token} :
      name.kind = .identifier → colon.kind = .delimiter .colon → type.kind = .identifier →
      Typed [name, colon, type] ⟨name.literal, .ofName type.literal⟩

/-- `name : literal`. -/
inductive Assigned : List Token → String × Term → Prop
  | mk {name colon value : Token} {v : Term} :
      name.kind = .identifier → colon.kind = .delimiter .colon → Literal value v →
      Assigned [name, colon, value] (name.literal, v)

/-- An invocation, or `name : Type { name : literal, … }`. -/
inductive FactOf : List Token → Written.Fact → Prop
  | invocation {ts : List Token} {e : Expr} : Invocation ts e → FactOf ts (.invocation e)
  | instantiation {name colon type : Token} {ts : List Token} {assigned : List (String × Term)} :
      name.kind = .identifier → colon.kind = .delimiter .colon → type.kind = .identifier →
      Braced Assigned ts assigned →
      FactOf (name :: colon :: type :: ts) (.instantiation name.literal type.literal assigned)

/-- `name { input { … } rules { … } }`. -/
inductive RuleOf : List Token → Written.Rule → Prop
  | mk {name l input rules r : Token} {ps bs : List Token} {params : List Field} {body : List Expr} :
      name.kind = .identifier → l.kind = .delimiter .leftBrace →
      input.kind = .keyword .input → BracedAny Typed ps params →
      rules.kind = .keyword .rules → BracedAny Expression bs body →
      r.kind = .delimiter .rightBrace →
      RuleOf (name :: l :: input :: ps ++ rules :: bs ++ [r]) ⟨name.literal, params, body⟩

/-- `name { facts { … } rules { … } }`, where the name may also be a string. -/
inductive TestOf : List Token → Written.Test → Prop
  | mk {name l facts rules r : Token} {fs bs : List Token} {given : List Written.Fact}
      {body : List Expr} :
      (name.kind = .string ∨ name.kind = .identifier) → l.kind = .delimiter .leftBrace →
      facts.kind = .keyword .facts → BracedAny FactOf fs given →
      rules.kind = .keyword .rules → BracedAny Invocation bs body →
      r.kind = .delimiter .rightBrace →
      TestOf (name :: l :: facts :: fs ++ rules :: bs ++ [r]) ⟨name.literal, given, body⟩

/-- One declaration, from its keyword on. -/
inductive Declares : List Token → Written.Declaration → Prop
  | object {word name : Token} {ts : List Token} {fields : List Field} :
      word.kind = .keyword .object → name.kind = .identifier → Braced Typed ts fields →
      Declares (word :: name :: ts) (.object ⟨name.literal, fields⟩)
  | relation {word name : Token} {ts : List Token} {fields : List Field} :
      word.kind = .keyword .relation → name.kind = .identifier → Braced Typed ts fields →
      Declares (word :: name :: ts) (.relation ⟨name.literal, fields⟩)
  | rule {word : Token} {ts : List Token} {r : Written.Rule} :
      word.kind = .keyword .rule → RuleOf ts r → Declares (word :: ts) (.rule r)
  | test {word : Token} {ts : List Token} {t : Written.Test} :
      word.kind = .keyword .test → TestOf ts t → Declares (word :: ts) (.test t)

/-- A whole text is any number of declarations. -/
inductive Declarations : List Token → List Written.Declaration → Prop
  | nil : Declarations [] []
  | cons {ts us : List Token} {d : Written.Declaration} {ds : List Written.Declaration} :
      Declares ts d → Declarations us ds → Declarations (ts ++ us) (d :: ds)

end Grammar

/-! ## What declarations mean -/

/-- A bare name is a variable if the scope binds it. -/
def Term.resolve (scope : Table FieldType) : Term → Term
  | .ident name =>
    match scope.find? name with
    | some type => .var name type
    | none => .ident name
  | t => t

mutual

/-- Resolve the names of a node. -/
def Node.resolve (scope : Table FieldType) : Node → Node
  | .term t => .term (t.resolve scope)
  | .app functor args => .app functor (Node.resolveAll scope args)

/-- Resolve the names of several nodes. -/
def Node.resolveAll (scope : Table FieldType) : List Node → List Node
  | [] => []
  | n :: rest => n.resolve scope :: Node.resolveAll scope rest

end

/-- Resolve the names of an expression. -/
def Expr.resolve (scope : Table FieldType) (e : Expr) : Expr :=
  ⟨e.functor, Node.resolveAll scope e.args⟩

theorem Node.resolveAll_eq_map (scope : Table FieldType) (nodes : List Node) :
    Node.resolveAll scope nodes = nodes.map (Node.resolve scope) := by
  induction nodes with
  | nil => rfl
  | cons n rest ih => simp [Node.resolveAll, ih]

namespace Written

/-- The variables that parameters bring into scope. -/
def paramScope (params : List Field) : Table FieldType :=
  .ofList (params.map fun p => (p.name, p.type))

/-- A rule sees its own parameters. -/
def Rule.tree (r : Rule) : Rulebook.Rule where
  name := r.name
  params := r.params.map fun p => .var p.name p.type
  body := r.body.map (Expr.resolve (paramScope r.params))

/-- The tree of a fact. The variable that it introduces is not in scope for its own values. -/
def Fact.tree (scope : Table FieldType) : Fact → Expr
  | .invocation e => e.resolve scope
  | .instantiation name object assigned =>
    ⟨Expr.newFunctor, .term (.var name (.object object)) ::
      assigned.map fun (field, value) => .term (.field field (value.resolve scope))⟩

/-- The variable that a fact introduces, and its type. -/
def Fact.introduces : Fact → Option (String × FieldType)
  | .invocation _ => none
  | .instantiation name object _ => some (name, .object object)

/-- The scope after a fact. -/
def Fact.extend (scope : Table FieldType) (f : Fact) : Table FieldType :=
  match f.introduces with
  | some (name, type) => scope.insert name type
  | none => scope

/-- The trees of facts; a fact sees the variables of those before it. -/
def factTrees (scope : Table FieldType) : List Fact → List Expr
  | [] => []
  | f :: rest => f.tree scope :: factTrees (f.extend scope) rest

/-- The body of a test sees the variables of all its facts. -/
def Test.tree (t : Test) : Rulebook.Test where
  name := t.name
  facts := factTrees .empty t.facts
  body := t.body.map (Expr.resolve (t.facts.foldl Fact.extend .empty))

def Declaration.tree : Declaration → Rulebook.Declaration
  | .object o => .object o
  | .relation r => .relation r
  | .rule r => .rule r.tree
  | .test t => .test t.tree

/-- The object that a declaration declares, under its name. -/
def Declaration.object? : Declaration → Option (String × Object)
  | .object o => some (o.name, o)
  | _ => none

def Declaration.relation? : Declaration → Option (String × Relation)
  | .relation r => some (r.name, r)
  | _ => none

def Declaration.rule? : Declaration → Option (String × Rulebook.Rule)
  | .rule r => some (r.name, r.tree)
  | _ => none

def Declaration.test? : Declaration → Option Rulebook.Test
  | .test t => some t.tree
  | _ => none

/-- What declarations mean together: the declarations of each kind in their order. -/
def document (ds : List Declaration) : Document where
  objects := .ofList (ds.filterMap Declaration.object?)
  relations := .ofList (ds.filterMap Declaration.relation?)
  rules := .ofList (ds.filterMap Declaration.rule?)
  tests := ds.filterMap Declaration.test?

/-! ## Distinct names -/

/-- No field is assigned twice. -/
def Fact.Distinct : Fact → Prop
  | .invocation _ => True
  | .instantiation _ _ assigned => (assigned.map Prod.fst).Nodup

/-- The names that facts introduce. -/
def introduced (facts : List Fact) : List String :=
  facts.filterMap fun f => f.introduces.map Prod.fst

/-- No name is declared twice inside the declaration. -/
def Declaration.Distinct : Declaration → Prop
  | .object o => (o.fields.map Field.name).Nodup
  | .relation r => (r.fields.map Field.name).Nodup
  | .rule r => (r.params.map Field.name).Nodup
  | .test t => (introduced t.facts).Nodup ∧ ∀ f ∈ t.facts, f.Distinct

/-- No two declarations of one kind share a name, and none declares a name twice inside. -/
structure Distinct (ds : List Declaration) : Prop where
  names : (ds.map fun d => (d.tree.kind, d.tree.name)).Nodup
  inner : ∀ d ∈ ds, d.Distinct

end Written

end Rulebook
