import Rulebook.Proofs.Document.Regular
import Rulebook.Proofs.Parser.Session

/-!
# Scopes are exact

Whether an identifier is a variable is decided by the declaration it stands in alone: in a rule by its
parameters, in a fact of a test by the facts before it, in the rest of a test by all its facts. This
holds of every document that a parser gives, whatever the parser was asked for before.
-/

namespace Rulebook

/-! ## Leaves -/

namespace Term

/-- What a term holds: of an assignment, what is assigned. -/
def held : Term → Term
  | field _ value => value.held
  | t => t

/-- The term is this identifier, a variable or not. -/
def IsName (x : String) (t : Term) : Prop := t = .ident x ∨ ∃ type, t = .var x type

/-- An identifier is a variable of the type that its name is bound to, and no variable exactly if its
name is not bound. -/
def ResolvedBy (binds : String → FieldType → Prop) (t : Term) : Prop :=
  ∀ x, t.IsName x →
    (∀ type, t = .var x type ↔ binds x type) ∧ (t = .ident x ↔ ∀ type, ¬ binds x type)

/-- A literal as it is written: no identifier is a variable yet, and nothing is assigned. -/
structure Bare (t : Term) : Prop where
  notVar : ∀ x type, t ≠ .var x type
  notField : ∀ field value, t ≠ .field field value

end Term

namespace Node

mutual

/-- The literals of a node from left to right. -/
def leaves : Node → List Term
  | term t => [t.held]
  | app _ args => leavesAll args

/-- The literals of several nodes. -/
def leavesAll : List Node → List Term
  | [] => []
  | n :: rest => leaves n ++ leavesAll rest

end

@[simp] theorem leavesAll_eq (nodes : List Node) : leavesAll nodes = nodes.flatMap leaves := by
  induction nodes with
  | nil => rfl
  | cons n rest ih => rw [leavesAll, ih, List.flatMap_cons]

/-- All leaves are as they are written. -/
inductive Bare : Node → Prop
  | term {t : Term} : t.Bare → Bare (.term t)
  | app {functor : String} {args : List Node} : (∀ n ∈ args, n.Bare) → Bare (.app functor args)

end Node

namespace Expr

def leaves (e : Expr) : List Term := Node.leavesAll e.args

/-- The variable and the object of an instantiation. It assigns a field at least, which an invocation
never does. -/
def instantiation? (e : Expr) : Option (String × String) :=
  match e.args with
  | .term (.var x (.object object)) :: .term (.field _ _) :: _ =>
    if e.functor = newFunctor then some (x, object) else none
  | _ => none

/-- The leaves of a fact apart from the variable that it introduces. -/
def givenLeaves (e : Expr) : List Term :=
  if e.instantiation?.isSome then Node.leavesAll e.args.tail else e.leaves

/-- One of the facts instantiates the name with an object of the type. -/
def Introduce (facts : List Expr) (x : String) (type : FieldType) : Prop :=
  ∃ e ∈ facts, ∃ object, e.instantiation? = some (x, object) ∧ type = .object object

end Expr

/-- Every identifier is resolved by its own declaration: in a rule by the parameters, in a fact by
the facts before it, in the body of a test by all its facts. -/
structure Document.Scoped (d : Document) : Prop where
  rules : ∀ r ∈ d.rules.values, ∀ e ∈ r.body, ∀ leaf ∈ e.leaves,
    leaf.ResolvedBy fun x type => .var x type ∈ r.params
  facts : ∀ t ∈ d.tests, ∀ (i : Nat) (e : Expr), t.facts[i]? = some e →
    ∀ leaf ∈ e.givenLeaves, leaf.ResolvedBy (Expr.Introduce (t.facts.take i))
  checks : ∀ t ∈ d.tests, ∀ e ∈ t.body, ∀ leaf ∈ e.leaves, leaf.ResolvedBy (Expr.Introduce t.facts)

/-! ## Resolving names by a table -/

/-- What a table binds. -/
def Table.Binds (scope : Table FieldType) (x : String) (type : FieldType) : Prop :=
  scope.find? x = some type

theorem Term.Bare.resolvedBy {t : Term} (bare : t.Bare) (scope : Table FieldType) :
    (t.resolve scope).ResolvedBy scope.Binds := by
  unfold Table.Binds
  intro x named
  cases t with
  | ident name =>
    cases found : scope.find? name with
    | none =>
      have same : Term.resolve scope (.ident name) = .ident name := by simp [resolve, found]
      rw [same] at named ⊢
      obtain rfl : name = x := by simpa [IsName] using named
      simp [found]
    | some type =>
      have same : Term.resolve scope (.ident name) = .var name type := by simp [resolve, found]
      rw [same] at named ⊢
      obtain rfl : name = x := by simpa [IsName] using named
      simp [found]
  | var name type => exact absurd rfl (bare.notVar name type)
  | field f v => exact absurd rfl (bare.notField f v)
  | int _ | float _ | string _ => simp [IsName, resolve] at named

theorem Term.Bare.held_resolve {t : Term} (bare : t.Bare) (scope : Table FieldType) :
    (t.resolve scope).held = t.resolve scope := by
  have leaf := @Term.resolve_ne_field scope t bare.notField
  cases same : t.resolve scope with
  | field f v => exact absurd same (leaf f v)
  | int _ | float _ | string _ | ident _ | var _ _ => rfl

theorem Node.Bare.resolvedBy {n : Node} (bare : n.Bare) (scope : Table FieldType) :
    ∀ leaf ∈ (n.resolve scope).leaves, leaf.ResolvedBy scope.Binds := by
  induction bare with
  | term bare =>
    intro leaf here
    rw [Node.resolve, leaves, List.mem_singleton, bare.held_resolve] at here
    rw [here]
    exact bare.resolvedBy scope
  | app _ ih =>
    intro leaf here
    rw [Node.resolve, leaves, leavesAll_eq, Node.resolveAll_eq_map, List.flatMap_map,
      List.mem_flatMap] at here
    rcases here with ⟨n, member, inside⟩
    exact ih n member leaf inside

theorem Expr.resolvedBy_resolve {e : Expr} (bare : ∀ n ∈ e.args, n.Bare) (scope : Table FieldType) :
    ∀ leaf ∈ (e.resolve scope).leaves, leaf.ResolvedBy scope.Binds :=
  (Node.Bare.app bare).resolvedBy scope (n := .app e.functor e.args)

/-! ## Declarations as they are written -/

namespace Grammar

variable {ts : List Token}

theorem bare_of_literal {t : Token} {v : Term} (h : Literal t v) : v.Bare := by
  cases h <;> exact ⟨nofun, nofun⟩

theorem bare_of_chain {level : Nat} {n : Node} (h : Chain level ts n) : n.Bare := by
  induction h with
  | literal hv => exact .term (bare_of_literal hv)
  | group _ _ _ ih => exact ih
  | join _ _ _ _ _ left right =>
    refine .app fun n member => ?_
    rcases List.mem_cons.mp member with rfl | member
    · exact left
    · rw [List.mem_singleton.mp member]
      exact right

theorem bare_of_invocation {e : Expr} (h : Invocation ts e) : ∀ n ∈ e.args, n.Bare := by
  cases h with
  | none _ _ _ => nofun
  | some _ _ args _ =>
    intro n member
    obtain ⟨us, _, chain⟩ := exists_of_mem_separated args member
    exact bare_of_chain chain

theorem bare_of_expression {e : Expr} (h : Expression ts e) : ∀ n ∈ e.args, n.Bare := by
  cases h with
  | invocation h => exact bare_of_invocation h
  | chain h =>
    cases bare_of_chain h with
    | app bare => exact bare

end Grammar

namespace Written

/-- The literals of a fact are as they are written, and an instantiation assigns a field at least. -/
def Fact.Bare : Fact → Prop
  | .invocation e => ∀ n ∈ e.args, n.Bare
  | .instantiation _ _ assigned => assigned ≠ [] ∧ ∀ a ∈ assigned, a.2.Bare

/-- The literals of a declaration are as they are written. -/
def Declaration.Bare : Declaration → Prop
  | .object _ | .relation _ => True
  | .rule r => ∀ e ∈ r.body, ∀ n ∈ e.args, n.Bare
  | .test t => (∀ f ∈ t.facts, f.Bare) ∧ ∀ e ∈ t.body, ∀ n ∈ e.args, n.Bare

theorem bare_of_factOf {ts : List Token} {f : Fact} (h : Grammar.FactOf ts f) : f.Bare := by
  cases h with
  | invocation h => exact Grammar.bare_of_invocation h
  | instantiation _ _ _ braced =>
    rcases braced with ⟨_, assigned, _⟩
    refine ⟨?_, fun a member => ?_⟩
    · cases assigned <;> simp
    · obtain ⟨us, _, ha⟩ := Grammar.exists_of_mem_separated assigned member
      cases ha with
      | mk _ _ value => exact Grammar.bare_of_literal value

theorem bare_of_declares {ts : List Token} {w : Declaration} (h : Grammar.Declares ts w) : w.Bare := by
  cases h with
  | object _ _ _ => trivial
  | relation _ _ _ => trivial
  | rule _ h =>
    rcases h with ⟨_, _, _, _, _, body, _⟩
    intro e member
    obtain ⟨us, _, he⟩ := Grammar.exists_of_mem_bracedAny body member
    exact Grammar.bare_of_expression he
  | test _ h =>
    rcases h with ⟨_, _, _, facts, _, body, _⟩
    constructor
    · intro f member
      obtain ⟨us, _, hf⟩ := Grammar.exists_of_mem_bracedAny facts member
      exact bare_of_factOf hf
    · intro e member
      obtain ⟨us, _, he⟩ := Grammar.exists_of_mem_bracedAny body member
      exact Grammar.bare_of_invocation he

theorem bare_of_declarations {ts : List Token} {ws : List Declaration}
    (h : Grammar.Declarations ts ws) : ∀ w ∈ ws, w.Bare := by
  induction h with
  | nil => nofun
  | cons first _ ih => exact List.forall_mem_cons.mpr ⟨bare_of_declares first, ih⟩

/-! ## Parameters -/

/-- A rule sees exactly its parameters. -/
theorem binds_paramScope {r : Rule} (distinct : (r.params.map Field.name).Nodup) {x : String}
    {type : FieldType} : (paramScope r.params).Binds x type ↔ .var x type ∈ r.tree.params := by
  have keys : ((r.params.map fun p => (p.name, p.type)).map Prod.fst).Nodup := by
    simpa [Function.comp_def] using distinct
  unfold Table.Binds paramScope
  rw [Table.find?_ofList_eq_some_iff keys]
  simp [Rule.tree]

/-! ## Facts -/

/-- No invocation assigns a field, so none is taken for an instantiation. -/
theorem instantiation?_resolve {e : Expr} (bare : ∀ n ∈ e.args, n.Bare) (scope : Table FieldType) :
    (e.resolve scope).instantiation? = none := by
  unfold Expr.instantiation?
  split
  · rename_i field value rest whole
    have second : .term (.field field value) ∈ (e.resolve scope).args := by simp [whole]
    rw [Expr.resolve, Node.resolveAll_eq_map] at second
    obtain ⟨n, member, same⟩ := List.mem_map.mp second
    cases bare n member with
    | term bare =>
      exact absurd (Node.term.inj same) (Term.resolve_ne_field bare.notField field value)
    | app _ => cases same
  · rfl

theorem instantiation?_tree {name object : String} {assigned : List (String × Term)}
    (some : assigned ≠ []) (scope : Table FieldType) :
    (Fact.tree scope (.instantiation name object assigned)).instantiation? =
      .some (name, object) := by
  cases assigned with
  | nil => exact absurd rfl some
  | cons a rest => simp [Fact.tree, Expr.instantiation?]

/-- The tree of a fact tells what the fact introduces. -/
theorem Fact.introduces_eq_some_iff {f : Fact} (bare : f.Bare) (scope : Table FieldType) {x : String}
    {type : FieldType} :
    f.introduces = some (x, type) ↔
      ∃ object, (f.tree scope).instantiation? = some (x, object) ∧ type = .object object := by
  cases f with
  | invocation e => simp [introduces, tree, instantiation?_resolve bare scope]
  | instantiation name object assigned =>
    rw [instantiation?_tree bare.1, introduces]
    constructor
    · intro same
      cases same
      exact ⟨object, rfl, rfl⟩
    · rintro ⟨_, same, typed⟩
      cases same
      rw [typed]

/-- A fact sees what is in scope before it, apart from the variable that it introduces. -/
theorem Fact.resolvedBy_tree {f : Fact} (bare : f.Bare) (scope : Table FieldType) :
    ∀ leaf ∈ (f.tree scope).givenLeaves, leaf.ResolvedBy scope.Binds := by
  cases f with
  | invocation e =>
    rw [tree, Expr.givenLeaves, instantiation?_resolve bare scope]
    exact Expr.resolvedBy_resolve bare scope
  | instantiation name object assigned =>
    rcases bare with ⟨some, bare⟩
    have leaves : (Fact.tree scope (.instantiation name object assigned)).givenLeaves =
        assigned.map fun a => (a.2.resolve scope).held := by
      rw [Expr.givenLeaves, instantiation?_tree some, Option.isSome_some, if_pos rfl]
      rw [tree, List.tail_cons, Node.leavesAll_eq, List.flatMap_map, List.map_eq_flatMap]
      rfl
    rw [leaves]
    intro leaf here
    obtain ⟨a, member, rfl⟩ := List.mem_map.mp here
    rw [(bare a member).held_resolve]
    exact (bare a member).resolvedBy scope

/-- The scope after facts holds what they introduce. -/
theorem foldl_extend (scope : Table FieldType) (fs : List Fact) :
    fs.foldl Fact.extend scope =
      (fs.filterMap Fact.introduces).foldl (fun t e => t.insert e.1 e.2) scope := by
  induction fs generalizing scope with
  | nil => rfl
  | cons f rest ih =>
    rw [List.foldl_cons, ih, List.filterMap_cons, Fact.extend]
    cases f.introduces <;> rfl

theorem getElem?_factTrees (scope : Table FieldType) (fs : List Fact) (i : Nat) :
    (factTrees scope fs)[i]? = fs[i]?.map (Fact.tree ((fs.take i).foldl Fact.extend scope)) := by
  induction fs generalizing scope i with
  | nil => simp [factTrees]
  | cons f rest ih =>
    cases i with
    | zero => simp [factTrees]
    | succ i => simpa [factTrees] using ih (f.extend scope) i

/-- Facts bring into scope what they introduce. -/
theorem binds_facts {fs : List Fact} (distinct : (introduced fs).Nodup) {x : String}
    {type : FieldType} :
    (fs.foldl Fact.extend .empty).Binds x type ↔ ∃ f ∈ fs, f.introduces = some (x, type) := by
  have keys : ((fs.filterMap Fact.introduces).map Prod.fst).Nodup := by
    rw [List.map_filterMap]
    exact distinct
  rw [foldl_extend, ← List.mem_filterMap]
  exact Table.find?_ofList_eq_some_iff keys

/-- Trees of facts instantiate what the facts introduce. -/
theorem introduce_factTrees {fs : List Fact} (bare : ∀ f ∈ fs, f.Bare) (scope : Table FieldType)
    {x : String} {type : FieldType} :
    Expr.Introduce (factTrees scope fs) x type ↔ ∃ f ∈ fs, f.introduces = some (x, type) := by
  induction fs generalizing scope with
  | nil => simp [factTrees, Expr.Introduce]
  | cons f rest ih =>
    rw [List.forall_mem_cons] at bare
    have later := ih bare.2 (f.extend scope)
    unfold Expr.Introduce at later ⊢
    simp only [factTrees, List.mem_cons, exists_eq_or_imp, later,
      Fact.introduces_eq_some_iff bare.1 scope]

theorem take_factTrees (scope : Table FieldType) (fs : List Fact) (i : Nat) :
    (factTrees scope fs).take i = factTrees scope (fs.take i) := by
  induction fs generalizing scope i with
  | nil => simp [factTrees]
  | cons f rest ih =>
    cases i with
    | zero => rfl
    | succ i => rw [factTrees, List.take_succ_cons, List.take_succ_cons, factTrees, ih]

/-- The scope after facts is what their trees instantiate. -/
theorem binds_eq_introduce {fs : List Fact} (bare : ∀ f ∈ fs, f.Bare)
    (distinct : (introduced fs).Nodup) :
    (fs.foldl Fact.extend .empty).Binds = Expr.Introduce (factTrees .empty fs) := by
  funext x type
  exact propext ((binds_facts distinct).trans (introduce_factTrees bare .empty).symm)

/-! ## Documents -/

/-- The document of declarations with distinct names is scoped. -/
theorem scoped_document {ws : List Declaration} (bare : ∀ w ∈ ws, w.Bare) (distinct : Distinct ws) :
    (document ws).Scoped := by
  refine ⟨?_, ?_, ?_⟩
  · intro r declared e member
    obtain ⟨entry, here, rfl⟩ := List.mem_map.mp declared
    obtain ⟨w, written, rfl⟩ := exists_of_mem_rules here
    obtain ⟨raw, within, rfl⟩ := List.mem_map.mp member
    have binds : (paramScope w.params).Binds = fun x type => .var x type ∈ w.tree.params := by
      funext x type
      exact propext (binds_paramScope (distinct.inner _ written))
    rw [← binds]
    exact Expr.resolvedBy_resolve (bare _ written raw within) _
  · intro t declared i e here
    obtain ⟨w, written, rfl⟩ := exists_of_mem_tests declared
    obtain ⟨bareFacts, _⟩ := bare _ written
    have names : (introduced (w.facts.take i)).Nodup :=
      (distinct.inner _ written).1.sublist ((List.take_sublist i w.facts).filterMap _)
    replace here : (factTrees .empty w.facts)[i]? = some e := here
    rw [getElem?_factTrees] at here
    obtain ⟨f, there, rfl⟩ := Option.map_eq_some_iff.mp here
    show ∀ leaf ∈ _, Term.ResolvedBy (Expr.Introduce ((factTrees .empty w.facts).take i)) leaf
    rw [take_factTrees, ← binds_eq_introduce
      (fun f member => bareFacts f (List.mem_of_mem_take member)) names]
    exact Fact.resolvedBy_tree (bareFacts f (List.mem_of_getElem? there)) _
  · intro t declared e member
    obtain ⟨w, written, rfl⟩ := exists_of_mem_tests declared
    obtain ⟨bareFacts, bareBody⟩ := bare _ written
    obtain ⟨raw, within, rfl⟩ := List.mem_map.mp member
    show ∀ leaf ∈ _, Term.ResolvedBy (Expr.Introduce (factTrees .empty w.facts)) leaf
    rw [← binds_eq_introduce bareFacts (distinct.inner _ written).1]
    exact Expr.resolvedBy_resolve (bareBody raw within) _

end Written

theorem scoped_of_parse {text : String} {d : Document} (parsed : Compiler.parse text = .ok d) :
    d.Scoped := by
  obtain ⟨tokens, ws, _, hws, distinct, rfl⟩ := parse_ok_iff.mp parsed
  exact Written.scoped_document (Written.bare_of_declarations hws) distinct

/-- Whatever a parser was asked for before, and whatever came of it, a document that it gives is
scoped. -/
theorem scopes_exact {calls : List Parser.Call} {text : String} {d : Document}
    (parsed : Parser.documentAfter calls text = .ok d) : d.Scoped := by
  obtain ⟨c, scope, s', yields⟩ := Parser.yields_of_documentAfter parsed
  obtain ⟨ts, c', ws, _, _, hws, distinct, rfl⟩ := Parser.yields_document.mp ⟨s', yields⟩
  exact Written.scoped_document (Written.bare_of_declarations hws) distinct

/-- The parameter of a rule that was given up is not seen by the next rule. -/
theorem scopes_exact_interrupted :
    ∃ d, Parser.documentAfter [.document, .endOfInput]
        "rule r \x7b input \x7b a: A rule q { input { b: B } rules { a > b } }" = .ok d ∧ d.Scoped ∧
      d.rules.values = [⟨"q", [.var "b" (.object "B")],
        [⟨">", [.term (.ident "a"), .term (.var "b" (.object "B"))]⟩]⟩] := by
  have answer : (Parser.documentAfter [.document, .endOfInput]
      "rule r \x7b input \x7b a: A rule q { input { b: B } rules { a > b } }").toOption.map
        (·.rules.values) = some [⟨"q", [.var "b" (.object "B")],
        [⟨">", [.term (.ident "a"), .term (.var "b" (.object "B"))]⟩]⟩] := by
    decide +kernel
  cases parsed : Parser.documentAfter [.document, .endOfInput]
      "rule r \x7b input \x7b a: A rule q { input { b: B } rules { a > b } }" with
  | error e =>
    rw [parsed] at answer
    cases answer
  | ok d =>
    rw [parsed] at answer
    exact ⟨d, rfl, scopes_exact parsed, Option.some.inj answer⟩

end Rulebook
