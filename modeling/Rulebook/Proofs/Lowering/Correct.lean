import Rulebook.Proofs.Lowering.Symbols

/-!
# Statically correct documents

The judgement that a document must meet to become a program, said without the lowering: which types
and predicates are declared, which names are free, what a field may be taken from, and what a field
may be assigned.
-/

namespace Rulebook

/-! ## Nodes -/

namespace Node

/-- The node stands somewhere in the other. -/
inductive Within (n : Node) : Node → Prop
  | here : Within n n
  | inside {functor : String} {args : List Node} {a : Node} :
      a ∈ args → Within n a → Within n (.app functor args)

/-- The node takes a field. -/
def IsAccess (n : Node) : Prop := ∃ args, n = .app Expr.accessFunctor args

/-- The node is an identifier, whether the scope binds it or not. -/
inductive Identifies : Node → String → Prop
  | ident {name : String} : Identifies (.term (.ident name)) name
  | var {name : String} {type : FieldType} : Identifies (.term (.var name type)) name

/-- The identifiers of a node that are written as variables: all but those right of a dot. -/
inductive Prints (name : String) : Node → Prop
  | leaf {n : Node} : n.Identifies name → Prints name n
  | target {left right : Node} :
      Prints name left → Prints name (.app Expr.accessFunctor [left, right])
  | argument {functor : String} {args : List Node} {a : Node} :
      functor ≠ Expr.accessFunctor → a ∈ args → Prints name a → Prints name (.app functor args)

theorem prints_access_iff {name : String} {left right : Node} :
    (app Expr.accessFunctor [left, right]).Prints name ↔ left.Prints name := by
  constructor
  · intro h
    cases h with
    | leaf h => cases h
    | target h => exact h
    | argument other _ _ => exact absurd rfl other
  · intro h
    exact .target h

theorem prints_app_iff {name functor : String} {args : List Node}
    (notAccess : functor ≠ Expr.accessFunctor) :
    (app functor args).Prints name ↔ ∃ a ∈ args, a.Prints name := by
  constructor
  · intro h
    cases h with
    | leaf h => cases h
    | target _ => exact absurd rfl notAccess
    | argument _ member h => exact ⟨_, member, h⟩
  · intro ⟨a, member, h⟩
    exact .argument notAccess member h

/-- A leaf prints the variable that it is written as. -/
theorem prints_term_iff {name : String} {t : Term} (leaf : ∀ field value, t ≠ .field field value) :
    (term t).Prints name ↔ t.variable? = some name := by
  constructor
  · intro h
    cases h with
    | leaf h => cases h <;> rfl
  · intro h
    cases t with
    | ident _ =>
      cases h
      exact .leaf .ident
    | var _ _ =>
      cases h
      exact .leaf .var
    | field f v => exact absurd rfl (leaf f v)
    | int _ | float _ | string _ => cases h

end Node

namespace Document

variable (d : Document)

/-- The type of a node that a field may be taken from, or that takes a field itself: a variable of
an object type, or a declared field of such a node. -/
inductive Selects : Node → FieldType → Prop
  | variable {name object : String} :
      Selects (.term (.var name (.object object))) (.object object)
  | field {left right : Node} {object : String} {o : Object} {f : Field} :
      Selects left (.object object) → d.objects.find? object = some o → f ∈ o.fields →
      right.Identifies f.name → Selects (.app Expr.accessFunctor [left, right]) f.type

/-- A type that is built in or declared. -/
def Knows (type : FieldType) : Prop := ∀ name, type = .object name → name ∈ d.objects.keys

/-- A predicate of this name takes so many arguments. -/
def Takes (name : String) (count : Nat) : Prop :=
  (∃ r, d.rules.find? name = some r ∧ r.params.length = count) ∨
  ∃ r, d.relations.find? name = some r ∧ r.arity = count

end Document

/-- Inside a node that selects something, every field access selects something. -/
theorem Document.Selects.within {d : Document} {n m : Node} {type : FieldType}
    (selects : d.Selects n type) (within : m.Within n) (access : m.IsAccess) :
    ∃ type, d.Selects m type := by
  induction selects with
  | «variable» =>
    cases within
    exact ⟨_, .variable⟩
  | @field left right object o f hleft found member named ih =>
    cases within with
    | here => exact ⟨_, .field hleft found member named⟩
    | @inside _ _ a here within =>
      rcases List.mem_cons.mp here with rfl | here
      · exact ih within
      · -- What stands right of a dot has no inner nodes.
        rw [List.mem_singleton.mp here] at within
        rcases access with ⟨args, rfl⟩
        cases named <;> cases within

/-! ## Expressions -/

variable (naming : Naming) (d : Document)

/-- Every variable of the node is free, and every field is taken from an object that has it. -/
structure Node.Correct (n : Node) : Prop where
  free : ∀ name, n.Prints name → ¬ naming.Reserved name
  accesses : ∀ m : Node, m.Within n → m.IsAccess → ∃ type, d.Selects m type

section

variable {naming d}

theorem Node.correct_term_iff {t : Term} (leaf : ∀ field value, t ≠ .field field value) :
    (Node.term t).Correct naming d ↔ ∀ name ∈ t.variable?, ¬ naming.Reserved name := by
  constructor
  · intro h name named
    exact h.free name ((Node.prints_term_iff leaf).mpr named)
  · intro free
    refine ⟨fun name printed => free name ((Node.prints_term_iff leaf).mp printed), ?_⟩
    intro m within access
    cases within
    rcases access with ⟨args, whole⟩
    cases whole

/-- A field access is correct if it selects something and its variable is free. -/
theorem Node.correct_access_iff {args : List Node} :
    (Node.app Expr.accessFunctor args).Correct naming d ↔
      (∃ type, d.Selects (.app Expr.accessFunctor args) type) ∧
        ∀ name, (Node.app Expr.accessFunctor args).Prints name → ¬ naming.Reserved name := by
  constructor
  · intro h
    exact ⟨h.accesses _ .here ⟨args, rfl⟩, h.free⟩
  · intro ⟨⟨type, selects⟩, free⟩
    exact ⟨free, fun m within access => selects.within within access⟩

/-- Any other application is correct if its arguments are. -/
theorem Node.correct_app_iff {functor : String} {args : List Node}
    (notAccess : functor ≠ Expr.accessFunctor) :
    (Node.app functor args).Correct naming d ↔ ∀ a ∈ args, a.Correct naming d := by
  constructor
  · intro h a member
    refine ⟨fun name printed => ?_, fun m within => h.accesses m (.inside member within)⟩
    exact h.free name ((Node.prints_app_iff notAccess).mpr ⟨a, member, printed⟩)
  · intro h
    refine ⟨fun name printed => ?_, fun m within access => ?_⟩
    · obtain ⟨a, member, printed⟩ := (Node.prints_app_iff notAccess).mp printed
      exact (h a member).free name printed
    · cases within with
      | here =>
        rcases access with ⟨_, whole⟩
        cases whole
        exact absurd rfl notAccess
      | inside member within => exact (h _ member).accesses m within access

end

namespace Expr

/-- A new value of a declared object, held by a free variable; each assignment gives one of its
fields a value that the field admits. Without assignments it is the invocation of one variable. -/
def NewCorrect (e : Expr) : Prop :=
  ∃ (name object : String) (o : Object) (assigned : List (String × Term)),
    e.args = .term (.var name (.object object)) ::
      assigned.map (fun a => .term (.field a.1 a.2)) ∧
    d.objects.find? object = some o ∧ ¬ naming.Reserved name ∧
    ∀ a ∈ assigned, ∃ f ∈ o.fields, f.name = a.1 ∧ ∃ v, Lowering.Admits naming f.type a.2 v

/-- An expression of a rule: a new value, or a node that, if it is an invocation, names a declared
predicate and gives it as many arguments as it takes. -/
def BodyCorrect (e : Expr) : Prop :=
  (e.functor = newFunctor → e.NewCorrect naming d) ∧
  (e.functor ≠ newFunctor → e.node.Correct naming d ∧
    (Operator.ofSpelling? e.functor = none → d.Takes e.functor e.args.length))

/-- A fact of a test: a new value, or a fact of a declared relation. -/
def FactCorrect (e : Expr) : Prop :=
  (e.functor = newFunctor → e.NewCorrect naming d) ∧
  (e.functor ≠ newFunctor → e.node.Correct naming d ∧
    ∃ r, d.relations.find? e.functor = some r ∧ r.arity = e.args.length)

/-- What a test asks for: the invocation of a declared rule. A rule whose name is that of
instantiations cannot be asked for; its invocations are instantiations. -/
def CheckCorrect (e : Expr) : Prop :=
  ∃ r, d.rules.find? e.functor = some r ∧
    (e.functor = newFunctor → e.NewCorrect naming d) ∧
    (e.functor ≠ newFunctor → e.node.Correct naming d ∧ r.params.length = e.args.length)

end Expr

/-! ## Documents -/

/-- A document that becomes a program. -/
structure Document.Correct : Prop where
  fieldTypes : ∀ o ∈ d.objects.values, ∀ f ∈ o.fields, d.Knows f.type
  relationTypes : ∀ r ∈ d.relations.values, ∀ f ∈ r.fields, d.Knows f.type
  paramTypes : ∀ r ∈ d.rules.values, ∀ name type, .var name type ∈ r.params → d.Knows type
  predicates : ∀ name, name ∈ d.rules.keys ∨ name ∈ d.relations.keys →
    name ∉ Lowering.reservedPredicates ∧ ¬ naming.Taken name
  apart : ∀ name ∈ d.rules.keys, name ∉ d.relations.keys
  params : ∀ r ∈ d.rules.values, ∀ name type, .var name type ∈ r.params → ¬ naming.Reserved name
  bodies : ∀ r ∈ d.rules.values, ∀ e ∈ r.body, e.BodyCorrect naming d
  facts : ∀ t ∈ d.tests, ∀ e ∈ t.facts, e.FactCorrect naming d
  checks : ∀ t ∈ d.tests, ∀ e ∈ t.body, e.CheckCorrect naming d

end Rulebook
