import Rulebook.Proofs.Document.RoundTrip
import Rulebook.Proofs.Logic.Lines
import Rulebook.Proofs.Lowering.Clauses
import Rulebook.Proofs.Lowering.Meaning
import Rulebook.Proofs.Lowering.Restore

/-!
# One clause on each line

Strings of a document, the names of tests among them, are copied into the clauses as they are, line
breaks included. Nothing else that a text can hold breaks a line: names and numbers have no line
break. So the listing of a program has one clause on each line exactly if no string of the document
has a line break (`listing_lines`).
-/

namespace Rulebook

/-! ## Strings of a document -/

/-- The text of a string. -/
def Term.string? : Term → Option String
  | string text => some text
  | _ => none

/-- The strings of a node from left to right. -/
def Node.strings (n : Node) : List String := n.leaves.filterMap Term.string?

theorem Node.strings_app (functor : String) (args : List Node) :
    (app functor args).strings = args.flatMap strings := by
  rw [strings, leaves, leavesAll_eq, List.filterMap_flatMap]
  rfl

def Expr.strings (e : Expr) : List String := e.node.strings

namespace Document

/-- The names of the tests, and all strings in expressions. -/
def strings (d : Document) : List String := d.testNames ++ d.expressions.flatMap Expr.strings

/-- What holds of all strings holds of those of each rule and of each test. -/
theorem forall_mem_strings {d : Document} {p : String → Prop} :
    (∀ s ∈ d.strings, p s) ↔ (∀ r ∈ d.rules.values, ∀ e ∈ r.body, ∀ s ∈ e.strings, p s) ∧
      ∀ t ∈ d.tests, p t.name ∧ (∀ e ∈ t.facts, ∀ s ∈ e.strings, p s) ∧
        ∀ e ∈ t.body, ∀ s ∈ e.strings, p s := by
  simp only [strings, testNames, expressions, List.forall_mem_append, List.forall_mem_flatMap,
    List.forall_mem_map]
  constructor
  · intro ⟨names, rules, tests⟩
    exact ⟨rules, fun t declared => ⟨names t declared, tests t declared⟩⟩
  · intro ⟨rules, tests⟩
    exact ⟨fun t declared => (tests t declared).1, rules, fun t declared => (tests t declared).2⟩

end Document

/-! ## Names and numbers of a text -/

/-- Everything that the term is written with can be read from a text. -/
def Term.Legible (t : Term) : Prop := ∀ lexeme ∈ t.lexemes, lexeme.Legible

/-- Everything that the document is written with can be read from a text. -/
def Document.Legible (d : Document) : Prop :=
  ∀ w ∈ d.declarations, ∀ lexeme ∈ w.lexemes, lexeme.Legible

theorem oneLine_of_legible {text : String} (legible : (Lexeme.name text).Legible) : OneLine text := by
  rw [Lexeme.name] at legible
  cases legible with
  | name word _ => exact oneLine_of_forall word.parts (by decide)

theorem Term.Legible.oneLine_ident {x : String} (legible : (Term.ident x).Legible) : OneLine x :=
  oneLine_of_legible (legible _ List.mem_cons_self)

theorem Term.Legible.oneLine_float {text : String} (legible : (Term.float text).Legible) :
    OneLine text := by
  have written : (⟨.float, text⟩ : Lexeme).Legible := legible _ List.mem_cons_self
  cases written with
  | float whole part chars =>
    rw [OneLine, chars, List.mem_append, List.mem_cons, not_or, not_or]
    refine ⟨fun here => ?_, by decide, fun here => ?_⟩
    · exact absurd (whole.all _ here) (by decide)
    · exact absurd (part.all _ here) (by decide)

theorem mem_braced {items : List (List Lexeme)} {item : List Lexeme} {l : Lexeme}
    (member : item ∈ items) (here : l ∈ item) : l ∈ braced items := by
  simp only [braced, separated, List.mem_append, List.mem_cons]
  exact .inl (.inr (mem_intercalate_of_mem member here))

/-- A node is written with its leaves. -/
theorem Node.lexemes_subset {n : Node} {leaf : Term} (member : leaf ∈ n.leaves) :
    leaf.lexemes ⊆ n.lexemes := by
  induction n using Node.induction with
  | term t =>
    rw [leaves, List.mem_singleton] at member
    rw [member, lexemes]
    clear member
    induction t with
    | field f value ih =>
      exact fun l here => List.mem_cons_of_mem _ (List.mem_cons_of_mem _ (ih here))
    | int _ | float _ | string _ | ident _ | var _ _ => exact List.Subset.refl _
  | app functor args ih =>
    rw [leaves, leavesAll_eq, List.mem_flatMap] at member
    obtain ⟨n, argument, inside⟩ := member
    intro l here
    have written : n.lexemes ∈ args.map lexemes := List.mem_map_of_mem argument
    have within := ih n argument inside here
    rw [lexemes, lexemesAll_eq_map]
    split
    · simp only [List.mem_append, List.mem_cons]
      exact .inl (.inr (mem_intercalate_of_mem written within))
    · simp only [separated, List.mem_append, List.mem_cons]
      exact .inl (.inr (.inr (mem_intercalate_of_mem written within)))

/-- An instantiation is written with its variable and its assignments. -/
theorem Expr.lexemes_subset {e : Expr} {leaf : Term} (member : leaf ∈ e.leaves) :
    leaf.lexemes ⊆ e.lexemes := by
  unfold lexemes
  split
  · rename_i x object created
    obtain ⟨rest, whole⟩ : ∃ rest, e.args = .term (.var x (.object object)) :: rest := by
      unfold instantiation? at created
      split at created
      · rename_i whole
        split at created
        · cases created
          exact ⟨_, whole⟩
        · cases created
      · cases created
    rw [leaves, whole, Node.leavesAll_eq, List.flatMap_cons, List.mem_append] at member
    intro l here
    rw [List.mem_append]
    rcases member with first | assigned
    · rw [Node.leaves, List.mem_singleton] at first
      rw [first] at here
      rw [List.mem_singleton.mp here]
      exact .inl List.mem_cons_self
    · obtain ⟨n, argument, inside⟩ := List.mem_flatMap.mp assigned
      refine .inr (mem_braced ?_ (Node.lexemes_subset inside here))
      rw [whole, List.tail_cons]
      exact List.mem_map_of_mem argument
  · exact Node.lexemes_subset (n := e.node) member

namespace Document.Legible

variable {d : Document} (legible : d.Legible)

include legible

theorem oneLine_field {o : Object} (declared : o ∈ d.objects.values) {f : Field}
    (member : f ∈ o.fields) : OneLine f.name := by
  have here : .object o ∈ d.declarations := by simp [declarations, declared]
  have written : typed f.name f.type ∈ o.fields.map fun f => typed f.name f.type :=
    List.mem_map_of_mem member
  apply oneLine_of_legible (legible _ here _ ?_)
  rw [Declaration.lexemes, List.mem_cons, List.mem_cons]
  exact .inr (.inr (mem_braced written List.mem_cons_self))

theorem oneLine_relation {r : Relation} (declared : r ∈ d.relations.values) : OneLine r.name := by
  have here : .relation r ∈ d.declarations := by simp [declarations, declared]
  exact oneLine_of_legible (legible _ here _ (List.mem_cons_of_mem _ List.mem_cons_self))

theorem oneLine_rule {r : Rule} (declared : r ∈ d.rules.values) : OneLine r.name := by
  have here : .rule r ∈ d.declarations := by simp [declarations, declared]
  exact oneLine_of_legible (legible _ here _ (by simp [Declaration.lexemes]))

theorem leaves {e : Expr} (member : e ∈ d.expressions) : ∀ leaf ∈ e.leaves, leaf.Legible := by
  intro leaf here l written
  have listed {es : List Expr} (listed : e ∈ es) : l ∈ braced (es.map Expr.lexemes) :=
    mem_braced (List.mem_map_of_mem listed) (Expr.lexemes_subset here written)
  simp only [expressions, List.mem_append, List.mem_flatMap] at member
  rcases member with ⟨r, declared, body⟩ | ⟨t, declared, facts | body⟩
  · exact legible (.rule r) (by simp [declarations, declared]) l
      (by simp [Declaration.lexemes, listed body])
  · exact legible (.test t) (by simp [declarations, declared]) l
      (by simp [Declaration.lexemes, listed facts])
  · exact legible (.test t) (by simp [declarations, declared]) l
      (by simp [Declaration.lexemes, listed body])

end Document.Legible

/-- The document of a text is written with what can be read from a text. -/
theorem legible_of_parse {text : String} {d : Document} (parsed : Compiler.parse text = .ok d) :
    d.Legible := by
  obtain ⟨tokens, ws, scans, declares, distinct, rfl⟩ := parse_ok_iff.mp parsed
  intro w declared
  rw [Written.declarations_document distinct] at declared
  obtain ⟨raw, member, rfl⟩ := List.mem_map.mp declared
  have phrases := Grammar.phrases_of_declarations declares scans.legible
  exact (phrases raw (Written.mem_of_mem_byKind member)).legible

/-! ## Lowering -/

namespace Lowering

variable {naming : Naming} {d : Document} {site : Site} {k k' : Nat}

/-- What a lowered expression copies. -/
def Lowered.verbatim (l : Lowered) : List String :=
  l.prerequisites.flatMap Logic.Goal.verbatim ++ l.value.verbatim

theorem flatMap_verbatim_goals (l : Lowered) :
    l.goals.flatMap Logic.Goal.verbatim = l.verbatim := by
  simp [Lowered.goals, Lowered.verbatim, Logic.Goal.verbatim]

theorem forall_mem_iff_of_forall₂ {α β : Type} {p : α → Prop} {q : β → Prop} {as : List α}
    {bs : List β} (each : List.Forall₂ (fun a b => q b ↔ p a) as bs) :
    (∀ b ∈ bs, q b) ↔ ∀ a ∈ as, p a := by
  induction each with
  | nil => simp
  | cons first _ ih => rw [List.forall_mem_cons, List.forall_mem_cons, first, ih]

/-- A leaf copies a string, or a number without a line break. -/
theorem oneLine_plainTerm {t : Term} (legible : t.held.Legible) :
    (∀ s ∈ (plainTerm t).verbatim, OneLine s) ↔ ∀ s ∈ t.held.string?, OneLine s := by
  induction t with
  | field _ value ih => exact ih legible
  | float text =>
    have number : OneLine text := Term.Legible.oneLine_float legible
    simpa [plainTerm, Logic.Term.verbatim, Term.held, Term.string?] using number
  | int _ | string _ | ident _ | var _ _ =>
    simp [plainTerm, Logic.Term.verbatim, Term.held, Term.string?]

/-- A value that a field admits is a string, or a name or a number without a line break. -/
theorem oneLine_admits {type : FieldType} {value : Term} {v : Logic.Term}
    (legible : value.held.Legible) (admits : Admits naming type value v) :
    (∀ s ∈ v.verbatim, OneLine s) ↔ ∀ s ∈ value.held.string?, OneLine s := by
  cases admits with
  | @name x =>
    have name : OneLine x := Term.Legible.oneLine_ident legible
    simpa [Logic.Term.verbatim, Term.held, Term.string?] using name
  | string | int | whole | float | «open» | object => exact oneLine_plainTerm legible

/-- A field is filled with what is assigned to it, if anything is. -/
theorem oneLine_fills {assigned : List (String × Term)} (distinct : (assigned.map Prod.fst).Nodup)
    (legible : ∀ a ∈ assigned, a.2.held.Legible) {f : Field} {v : Logic.Term}
    (fills : Fills naming assigned f v) :
    (∀ s ∈ v.verbatim, OneLine s) ↔
      ∀ a ∈ assigned, a.1 = f.name → ∀ s ∈ a.2.held.string?, OneLine s := by
  cases fills with
  | assigned found admits =>
    obtain ⟨member, named⟩ := (find?_assigned_iff distinct).mp found
    rw [oneLine_admits (legible _ member) admits]
    constructor
    · intro value a member' named'
      have same := (find?_assigned_iff distinct).mpr ⟨member', named'⟩
      rw [found] at same
      cases same
      exact value
    · intro all
      exact all _ member named
  | «open» found =>
    refine iff_of_true nofun fun a member named => ?_
    rw [(find?_assigned_iff distinct).mpr ⟨member, named⟩] at found
    cases found

/-- An application copies the name of its predicate and what its arguments copy. -/
theorem oneLine_apply {env : Env} {functor : Logic.Functor} {args : List Node} {ls : List Lowered}
    (each : Each (node env site) k args ls k')
    (arguments : ∀ a ∈ args, ∀ l k k', Gives (node env site a) k l k' →
      ((∀ s ∈ l.verbatim, OneLine s) ↔ ∀ s ∈ a.strings, OneLine s)) :
    (∀ s ∈ Lowered.verbatim ⟨.apply functor (ls.map Lowered.value),
        ls.flatMap Lowered.prerequisites⟩, OneLine s) ↔
      (∀ s ∈ functor.verbatim, OneLine s) ∧ ∀ s ∈ args.flatMap Node.strings, OneLine s := by
  rw [List.forall_mem_flatMap, ← forall_mem_iff_of_forall₂ (each.forall₂ arguments)]
  simp only [Lowered.verbatim, Logic.Term.verbatim, Logic.Term.verbatimAll_eq,
    List.forall_mem_append, List.forall_mem_flatMap, List.forall_mem_map]
  constructor
  · intro ⟨before, name, values⟩
    exact ⟨name, fun l member => ⟨before l member, values l member⟩⟩
  · intro ⟨name, all⟩
    exact ⟨fun l member => (all l member).1, name, fun l member => (all l member).2⟩

/-- The values of an instantiation are what is assigned: a string, or a name or a number without a
line break. -/
theorem oneLine_instantiate {e : Expr} (form : e.Invokes ∨ e.Creates)
    (leaves : ∀ leaf ∈ e.leaves, leaf.Legible) {l : Lowered}
    (gives : Gives (instantiate (.of naming d) site e.args) k l k') :
    (∀ s ∈ l.verbatim, OneLine s) ↔ ∀ s ∈ e.strings, OneLine s := by
  obtain ⟨name, objectName, o, symbol, assigned, values, whole, found, _, known, fills, _, rfl, _⟩ :=
    gives_instantiate.mp gives
  have distinct := distinct_assigned form whole
  have written : e.leaves = .var name (.object objectName) :: assigned.map fun a => a.2.held := by
    rw [Expr.leaves, whole, Node.leavesAll_eq, List.flatMap_cons, List.flatMap_map,
      List.map_eq_flatMap]
    rfl
  have values_iff : (∀ v ∈ values, ∀ s ∈ v.verbatim, OneLine s) ↔ ∀ f ∈ o.fields,
      ∀ a ∈ assigned, a.1 = f.name → ∀ s ∈ a.2.held.string?, OneLine s := by
    refine forall_mem_iff_of_forall₂ (fills.imp fun f v filled => ?_)
    refine oneLine_fills distinct (fun a member => leaves _ ?_) filled
    rw [written]
    exact List.mem_cons_of_mem _ (List.mem_map_of_mem (f := fun a => a.2.held) member)
  have strings : e.strings = assigned.filterMap fun a => a.2.held.string? := by
    show e.leaves.filterMap Term.string? = _
    rw [written, List.filterMap_cons_none rfl, List.filterMap_map]
    rfl
  have copies : Lowered.verbatim { value := .unify (.user name) (.construct symbol values) } =
      values.flatMap Logic.Term.verbatim := by
    simp [Lowered.verbatim, Logic.Term.verbatim]
  rw [copies, List.forall_mem_flatMap, values_iff, strings]
  constructor
  · intro all s here
    obtain ⟨a, member, text⟩ := List.mem_filterMap.mp here
    -- An assignment is to a field of the object.
    obtain ⟨f, field, named⟩ := Object.field?_isSome_iff.mp (known a member)
    exact all f field a member named.symm s text
  · intro all f _ a member _ s text
    exact all s (List.mem_filterMap.mpr ⟨a, member, text⟩)

section

variable (regular : d.Regular) (legible : d.Legible)

include regular legible

/-- The field that is taken is one of an object, so its name is on one line. -/
theorem oneLine_project {t : Target} {a : Access} {field : String}
    (gives : Gives (project (.of naming d) site t field) k a k') :
    (∀ s ∈ a.goals.flatMap Logic.Goal.verbatim, OneLine s) ↔
      ∀ s ∈ t.goals.flatMap Logic.Goal.verbatim, OneLine s := by
  obtain ⟨o, symbol, position, f, found, _, declared, rfl, _⟩ := gives_project.mp gives
  have place := ((o.field?_eq_some_iff (regular.distinct_fields found)).mp declared).1
  have name : OneLine f.name :=
    legible.oneLine_field (Table.mem_values_of_find? found) (List.mem_of_getElem? place)
  rw [List.flatMap_append, List.forall_mem_append, List.flatMap_singleton, Logic.Goal.verbatim,
    List.forall_mem_singleton]
  exact and_iff_left name

/-- A node copies its strings, and names and numbers without line breaks. -/
theorem oneLine_node {n : Node} (plain : n.Plain) (leaves : ∀ leaf ∈ n.leaves, leaf.Legible)
    {l : Lowered} (gives : Gives (node (.of naming d) site n) k l k') :
    (∀ s ∈ l.verbatim, OneLine s) ↔ ∀ s ∈ n.strings, OneLine s := by
  induction plain generalizing k l k' with
  | @term t _ =>
    obtain ⟨_, rfl, _⟩ := gives_node_term.mp gives
    have leaf := oneLine_plainTerm (leaves t.held List.mem_cons_self)
    simpa [Node.strings, Node.leaves, Lowered.verbatim] using leaf
  | @app op args plain ih =>
    have each : ∀ a ∈ args, ∀ l k k', Gives (node (.of naming d) site a) k l k' →
        ((∀ s ∈ l.verbatim, OneLine s) ↔ ∀ s ∈ a.strings, OneLine s) := by
      intro a member l k k' gives
      refine ih a member (fun leaf here => leaves leaf ?_) gives
      rw [Node.leaves, Node.leavesAll_eq]
      exact List.mem_flatMap.mpr ⟨a, member, here⟩
    rw [Node.strings_app]
    by_cases accesses : op.spelling = Expr.accessFunctor
    · rw [accesses] at gives
      obtain ⟨a, ha, rfl⟩ := gives_node_access.mp gives
      obtain ⟨left, right, field, t, k₁, rfl, named, ht, hp⟩ := gives_access.mp ha
      have target := each left (by simp) _ _ _ (gives_node_of_target ht)
      have name : right.strings = [] := by
        unfold fieldName? at named
        split at named <;> cases named <;> rfl
      have copies (v : Logic.Var) (goals : List Logic.Goal) :
          Lowered.verbatim ⟨.var v, goals⟩ = goals.flatMap Logic.Goal.verbatim :=
        List.append_nil _
      rw [copies, oneLine_project regular legible hp, ← copies t.value, target, List.flatMap_cons,
        List.flatMap_singleton, name, List.append_nil]
    · obtain ⟨_, ls, lowered, rfl⟩ := (gives_node_apply op.spelling_ne_new accesses).mp gives
      rw [oneLine_apply lowered each]
      have operator : functorOf op.spelling = .operator op := by
        rw [functorOf, Operator.ofSpelling?_eq_some_iff.mpr rfl]
      rw [operator]
      exact and_iff_right (List.forall_mem_nil _)

/-- The name of a predicate is on one line, since the predicate is declared. -/
theorem oneLine_predicate {name : String} {count : Nat} (declared : arity? d name = some count) :
    OneLine name := by
  unfold arity? at declared
  split at declared
  · rename_i r found
    have named : name = r.name := regular.rules _ (Table.find?_eq_some_iff.mp found)
    rw [named]
    exact legible.oneLine_rule (Table.mem_values_of_find? found)
  · rename_i r _ found
    have named : name = r.name := regular.relations _ (Table.find?_eq_some_iff.mp found)
    rw [named]
    exact legible.oneLine_relation (Table.mem_values_of_find? found)
  · cases declared

/-- Arguments of an invocation copy their strings. -/
theorem oneLine_arguments {e : Expr} (invokes : e.Invokes)
    (leaves : ∀ leaf ∈ e.leaves, leaf.Legible) :
    ∀ a ∈ e.args, ∀ l k k', Gives (node (.of naming d) site a) k l k' →
      ((∀ s ∈ l.verbatim, OneLine s) ↔ ∀ s ∈ a.strings, OneLine s) := by
  intro a member l k k' gives
  refine oneLine_node regular legible (invokes.args a member) (fun leaf here => leaves leaf ?_) gives
  rw [Expr.leaves, Node.leavesAll_eq]
  exact List.mem_flatMap.mpr ⟨a, member, here⟩

/-- An expression copies its strings, and names and numbers without line breaks. -/
theorem oneLine_expr {e : Expr} (form : e.Invokes ∨ e.node.Plain)
    (leaves : ∀ leaf ∈ e.leaves, leaf.Legible) {l : Lowered}
    (gives : Gives (expr (.of naming d) site e) k l k') :
    (∀ s ∈ l.verbatim, OneLine s) ↔ ∀ s ∈ e.strings, OneLine s := by
  rcases form with invokes | plain
  · by_cases new : e.functor = Expr.newFunctor
    · rw [expr, Expr.node, new] at gives
      exact oneLine_instantiate (.inl invokes) leaves (gives_node_new.mp gives)
    · obtain ⟨arity, ls, each, rfl⟩ := (gives_node_apply new invokes.ne_access).mp gives
      have predicate : functorOf e.functor = .predicate e.functor := by
        rw [functorOf, invokes.word]
      have name : OneLine e.functor := oneLine_predicate regular legible (arity invokes.word)
      rw [oneLine_apply each (oneLine_arguments regular legible invokes leaves), predicate,
        Logic.Functor.verbatim, List.forall_mem_singleton, ← Node.strings_app]
      exact and_iff_right name
  · exact oneLine_node regular legible plain leaves gives

/-- So do the goals of several expressions. -/
theorem oneLine_goals {es : List Expr} (forms : ∀ e ∈ es, e.Invokes ∨ e.node.Plain)
    (leaves : ∀ e ∈ es, ∀ leaf ∈ e.leaves, leaf.Legible) {ls : List Lowered}
    (each : Each (expr (.of naming d) site) k es ls k') :
    (∀ s ∈ (ls.flatMap Lowered.goals).flatMap Logic.Goal.verbatim, OneLine s) ↔
      ∀ e ∈ es, ∀ s ∈ e.strings, OneLine s := by
  rw [List.flatMap_assoc, List.forall_mem_flatMap]
  refine forall_mem_iff_of_forall₂ (each.forall₂ fun e member l k k' gives => ?_)
  rw [flatMap_verbatim_goals]
  exact oneLine_expr regular legible (forms e member) (leaves e member) gives

/-- Setting up a fact copies the strings of the fact, and taking it away copies nothing else. -/
theorem oneLine_fact {e : Expr} (form : e.Invokes ∨ e.Creates)
    (leaves : ∀ leaf ∈ e.leaves, leaf.Legible) {r : List Logic.Goal × List Logic.Term}
    (gives : Gives (fact (.of naming d) site e) k r k') :
    ((∀ s ∈ r.1.flatMap Logic.Goal.verbatim, OneLine s) ↔ ∀ s ∈ e.strings, OneLine s) ∧
      r.2.flatMap Logic.Term.verbatim ⊆ r.1.flatMap Logic.Goal.verbatim := by
  by_cases new : e.functor = Expr.newFunctor
  · obtain ⟨l, hl, rfl⟩ := (gives_fact_new new).mp gives
    rw [expr, Expr.node, new] at hl
    refine ⟨?_, List.nil_subset _⟩
    rw [flatMap_verbatim_goals]
    exact oneLine_instantiate form leaves (gives_node_new.mp hl)
  · have invokes : e.Invokes := by
      rcases form with invokes | ⟨_, _, _, rfl, _⟩
      · exact invokes
      · exact absurd rfl new
    obtain ⟨⟨relation, found, _⟩, ls, each, rfl⟩ := (gives_fact new).mp gives
    have named : e.functor = relation.name := regular.relations _ (Table.find?_eq_some_iff.mp found)
    have name : OneLine e.functor := by
      rw [named]
      exact legible.oneLine_relation (Table.mem_values_of_find? found)
    have copies : (ls.flatMap Lowered.prerequisites ++
          [Logic.Goal.assert (.apply (.predicate e.functor) (ls.map Lowered.value))]).flatMap
          Logic.Goal.verbatim =
        Lowered.verbatim ⟨.apply (.predicate e.functor) (ls.map Lowered.value),
          ls.flatMap Lowered.prerequisites⟩ := by
      rw [List.flatMap_append, List.flatMap_singleton, Logic.Goal.verbatim]
      rfl
    rw [copies]
    constructor
    · rw [oneLine_apply each (oneLine_arguments regular legible invokes leaves),
        Logic.Functor.verbatim, List.forall_mem_singleton, ← Node.strings_app]
      exact and_iff_right name
    · rw [List.flatMap_singleton]
      exact List.subset_append_right _ _

end

/-- Checks that clean up copy what the checks and the facts copy. -/
theorem oneLine_cleaningUp (checks : List Logic.Goal) (asserted : List Logic.Term) :
    (∀ s ∈ (cleaningUp checks asserted).flatMap Logic.Goal.verbatim, OneLine s) ↔
      (∀ s ∈ checks.flatMap Logic.Goal.verbatim, OneLine s) ∧
        ∀ s ∈ asserted.flatMap Logic.Term.verbatim, OneLine s := by
  have taken : (asserted.map Logic.Goal.retract).flatMap Logic.Goal.verbatim =
      asserted.flatMap Logic.Term.verbatim := by
    rw [List.flatMap_map]
    rfl
  unfold cleaningUp
  cases asserted with
  | nil => simp
  | cons t rest =>
    rw [if_neg (by simp), List.flatMap_singleton, Logic.Goal.verbatim, Logic.Goal.verbatimAll_eq,
      Logic.Goal.verbatimAll_eq, Logic.Goal.verbatimAll_eq, List.flatMap_append, taken,
      List.flatMap_singleton, Logic.Goal.verbatim, List.append_nil, List.forall_mem_append,
      List.forall_mem_append, and_assoc, and_self]

section

variable (regular : d.Regular) (legible : d.Legible)

include regular legible

theorem oneLine_rule {r : Rule} (declared : r ∈ d.rules.values) {c : Logic.Clause}
    (gives : Gives (rule (.of naming d) r) k c k') :
    (∀ s ∈ c.verbatim, OneLine s) ↔ ∀ e ∈ r.body, ∀ s ∈ e.strings, OneLine s := by
  obtain ⟨_, ls, each, rfl⟩ := gives_rule.mp gives
  have params : (r.params.map plainTerm).flatMap Logic.Term.verbatim = [] := by
    rw [List.flatMap_map, List.flatMap_eq_nil_iff]
    intro t member
    obtain ⟨x, type, rfl⟩ := regular.params r declared t member
    rfl
  have leaves : ∀ e ∈ r.body, ∀ leaf ∈ e.leaves, leaf.Legible := by
    intro e member
    refine legible.leaves (List.mem_append_left _ ?_)
    exact List.mem_flatMap.mpr ⟨r, declared, member⟩
  rw [Logic.Clause.verbatim, params, List.singleton_append, List.forall_mem_cons,
    oneLine_goals regular legible (regular.bodies r declared) leaves each]
  exact and_iff_right (legible.oneLine_rule declared)

theorem oneLine_test {t : Test} (declared : t ∈ d.tests) {c : Logic.Clause}
    (gives : Gives (test (.of naming d) t) k c k') :
    (∀ s ∈ c.verbatim, OneLine s) ↔ OneLine t.name ∧ (∀ e ∈ t.facts, ∀ s ∈ e.strings, OneLine s) ∧
      ∀ e ∈ t.body, ∀ s ∈ e.strings, OneLine s := by
  obtain ⟨_, fs, k₁, ls, facts, body, rfl⟩ := gives_test.mp gives
  have leaves {e : Expr} (member : e ∈ t.facts ++ t.body) : ∀ leaf ∈ e.leaves, leaf.Legible :=
    legible.leaves (List.mem_append_right _ (List.mem_flatMap.mpr ⟨t, declared, member⟩))
  have setUp : (∀ s ∈ (fs.flatMap Prod.fst).flatMap Logic.Goal.verbatim, OneLine s) ↔
      ∀ e ∈ t.facts, ∀ s ∈ e.strings, OneLine s := by
    rw [List.flatMap_assoc, List.forall_mem_flatMap]
    refine forall_mem_iff_of_forall₂ (facts.forall₂ fun e member r k k' gives => ?_)
    exact (oneLine_fact regular legible (regular.facts t declared e member)
      (leaves (List.mem_append_left _ member)) gives).1
  have takenDown : (fs.flatMap Prod.snd).flatMap Logic.Term.verbatim ⊆
      (fs.flatMap Prod.fst).flatMap Logic.Goal.verbatim := by
    rw [List.flatMap_assoc, List.flatMap_assoc]
    intro s here
    obtain ⟨r, asserted, inside⟩ := List.mem_flatMap.mp here
    obtain ⟨e, member, _, _, gives⟩ := facts.exists_of_mem asserted
    have within := (oneLine_fact regular legible (regular.facts t declared e member)
      (leaves (List.mem_append_left _ member)) gives).2
    exact List.mem_flatMap.mpr ⟨r, asserted, within inside⟩
  have checks := oneLine_goals regular legible
    (fun e member => .inl (regular.checks t declared e member))
    (fun e member => leaves (List.mem_append_right _ member)) body
  rw [Logic.Clause.verbatim, List.forall_mem_cons, List.flatMap_append, List.forall_mem_append,
    oneLine_cleaningUp, checks, ← setUp]
  constructor
  · intro ⟨name, facts, checked, _⟩
    exact ⟨name, facts, checked⟩
  · intro ⟨name, facts, checked⟩
    exact ⟨name, facts, checked, fun s here => facts s (takenDown here)⟩

/-- The clauses of a document copy the strings of the document, and names and numbers without line
breaks. -/
theorem oneLine_clauses {th : Theory} (lowered : theory naming d = .ok th) :
    (∀ c ∈ th.clauses, ∀ s ∈ c.verbatim, OneLine s) ↔ ∀ s ∈ d.strings, OneLine s := by
  rw [Document.forall_mem_strings]
  constructor
  · intro all
    constructor
    · intro r declared
      obtain ⟨k, c, k', gives, clause⟩ := exists_rule_clause lowered declared
      exact (oneLine_rule regular legible declared gives).mp (all c clause)
    · intro t declared
      obtain ⟨k, c, k', gives, clause⟩ := exists_test_clause lowered declared
      exact (oneLine_test regular legible declared gives).mp (all c clause)
  · intro ⟨rules, tests⟩ c member
    rcases clause_cases lowered member with ⟨o, i, f, position, numbered, place, rfl⟩ |
      ⟨r, declared, rfl⟩ | ⟨r, declared, k, k', gives⟩ | ⟨t, declared, k, k', gives⟩ | rfl
    · have declared : o ∈ d.objects.values := List.fst_mem_of_mem_zipIdx numbered
      rw [Logic.Clause.verbatim, List.forall_mem_singleton]
      exact legible.oneLine_field declared (List.mem_of_getElem? place)
    · rw [Logic.Clause.verbatim, List.forall_mem_singleton]
      exact legible.oneLine_relation declared
    · exact (oneLine_rule regular legible declared gives).mpr (rules r declared)
    · exact (oneLine_test regular legible declared gives).mpr (tests t declared)
    · rw [Logic.Clause.verbatim, Document.testNames, List.forall_mem_map]
      exact fun t declared => (tests t declared).1

end

end Lowering

/-! ## Listings -/

/-- A part between separators has none of them. -/
theorem not_mem_of_mem_splitOn {α : Type} [DecidableEq α] {a : α} {xs part : List α}
    (member : part ∈ xs.splitOn a) : a ∉ part := by
  induction xs generalizing part with
  | nil =>
    rw [List.splitOn_nil, List.mem_singleton] at member
    simp [member]
  | cons x xs ih =>
    rw [List.splitOn_cons_eq_if_modifyHead] at member
    split at member
    · rcases List.mem_cons.mp member with rfl | later
      · exact List.not_mem_nil
      · exact ih later
    · rename_i other
      obtain ⟨first, rest, parts⟩ := List.exists_cons_of_ne_nil (List.splitOn_ne_nil a xs)
      rw [parts] at ih
      rw [parts, List.modifyHead_cons] at member
      rcases List.mem_cons.mp member with rfl | later
      · rw [List.mem_cons, not_or]
        refine ⟨fun same => other ?_, ih List.mem_cons_self⟩
        rw [same, beq_self_eq_true]
      · exact ih (List.mem_cons_of_mem _ later)

namespace Program

/-- The lines of a listing are the lines of the clauses, and nothing after the last line break. -/
theorem splitOn_listing (p : Program) :
    p.listing.toList.splitOn '\n' = p.texts.flatMap (·.toList.splitOn '\n') ++ [[]] := by
  rw [listing]
  induction p.texts with
  | nil => simp
  | cons text rest ih =>
    have breaks : "\n".toList = ['\n'] := rfl
    rw [List.map_cons, String.join_cons, String.toList_append, String.toList_append, breaks,
      List.append_assoc, List.singleton_append, List.splitOn_append_cons_self, ih,
      List.flatMap_cons, List.append_assoc]

/-- A listing has one clause on each line exactly if each clause is on one line. -/
theorem splitOn_listing_iff (p : Program) :
    p.listing.toList.splitOn '\n' = p.texts.map String.toList ++ [[]] ↔
      ∀ text ∈ p.texts, OneLine text := by
  constructor
  · intro lines text member
    have line : text.toList ∈ p.listing.toList.splitOn '\n' := by
      rw [lines]
      exact List.mem_append_left _ (List.mem_map_of_mem member)
    exact not_mem_of_mem_splitOn line
  · intro all
    rw [splitOn_listing, List.map_eq_flatMap]
    congr 1
    refine List.flatMap_congr fun text member => ?_
    exact List.splitOn_eq_singleton (all text member)

end Program

/-- The clauses of a text are on one line each, so that the lines of the listing are the clauses in
their order, exactly if each string of its document is on one line. -/
theorem listing_lines {o : Options} {text : String} {p : Program} (valid : o.validate = .ok ())
    (compiled : Compiler.compile o text = .ok p) :
    ∃ d, Compiler.parse text = .ok d ∧
      ((∀ c ∈ p.clauses, OneLine c.text) ↔ ∀ s ∈ d.strings, OneLine s) ∧
      (p.listing.toList.splitOn '\n' = p.texts.map String.toList ++ [[]] ↔
        ∀ s ∈ d.strings, OneLine s) := by
  obtain ⟨d, parsed, generated⟩ := compile_eq_ok_iff.mp compiled
  obtain ⟨th, lowered, written⟩ := exists_theory_of_generate generated
  have clauses : (∀ c ∈ p.clauses, OneLine c.text) ↔ ∀ s ∈ d.strings, OneLine s := by
    rw [written, List.forall_mem_map,
      ← Lowering.oneLine_clauses (regular_of_parse parsed) (legible_of_parse parsed) lowered]
    exact forall₂_congr fun c _ => c.oneLine_text valid
  refine ⟨d, parsed, clauses, ?_⟩
  rw [Program.splitOn_listing_iff, Program.texts, List.forall_mem_map, clauses]

/-- A text on several lines, whose strings are on one line each. -/
theorem listing_lines_quoted :
    ∃ d p, Compiler.parse ("object T { a: string }\ntest \"\" \x7b " ++
        "facts \x7b x: T \x7b a: \"it's\" \x7d \x7d\nrules { } \x7d") = .ok d ∧
      Compiler.compile {} ("object T { a: string }\ntest \"\" \x7b " ++
        "facts \x7b x: T \x7b a: \"it's\" \x7d \x7d\nrules { } \x7d") = .ok p ∧
      p.texts = ["o_1_a(Value, Object) :- Object = o_1(Value).",
        "test('') :- X = o_1('it\\'s').", "test_cases([''])."] ∧
      (∀ s ∈ d.strings, OneLine s) ∧
      p.listing.toList.splitOn '\n' = p.texts.map String.toList ++ [[]] := by
  obtain ⟨p, compiled, texts⟩ : ∃ p, Compiler.compile {} ("object T { a: string }\ntest \"\" \x7b " ++
      "facts \x7b x: T \x7b a: \"it's\" \x7d \x7d\nrules { } \x7d") = .ok p ∧
      p.texts = ["o_1_a(Value, Object) :- Object = o_1(Value).",
        "test('') :- X = o_1('it\\'s').", "test_cases([''])."] := exists_ok_of_map (by decide +kernel)
  obtain ⟨d, parsed, clauses, lines⟩ := listing_lines (by decide) compiled
  have written : ∀ text ∈ p.texts, OneLine text := by
    rw [texts]
    decide
  rw [Program.texts, List.forall_mem_map, clauses] at written
  exact ⟨d, p, parsed, compiled, texts, written, lines.mpr written⟩

/-- A string is read over the end of a line, and quotes do not hide the line break: the clause of a
test with such a name takes up two lines, and so does the list of tests. -/
theorem listing_lines_broken :
    ∃ p, ({} : Options).validate = .ok () ∧
      Compiler.compile {} "test \"a\nb\" { facts { } rules { } }" = .ok p ∧
      p.texts = ["test('a\nb').", "test_cases(['a\nb'])."] ∧
      (¬ ∀ c ∈ p.clauses, OneLine c.text) ∧
      p.listing.toList.splitOn '\n' ≠ p.texts.map String.toList ++ [[]] := by
  obtain ⟨p, compiled, texts⟩ : ∃ p,
      Compiler.compile {} "test \"a\nb\" { facts { } rules { } }" = .ok p ∧
      p.texts = ["test('a\nb').", "test_cases(['a\nb'])."] := exists_ok_of_map (by decide +kernel)
  have broken : ¬ ∀ text ∈ p.texts, OneLine text := by
    rw [texts]
    decide
  refine ⟨p, rfl, compiled, texts, ?_, fun lines => broken (p.splitOn_listing_iff.mp lines)⟩
  rwa [Program.texts, List.forall_mem_map] at broken

end Rulebook
