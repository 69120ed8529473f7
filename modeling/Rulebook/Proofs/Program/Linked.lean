import Rulebook.Proofs.Lowering.Clauses
import Rulebook.Proofs.Lowering.Meaning

/-!
# Programs are linked

Clauses refer to each other by name and by the number of arguments: a goal to an accessor, a rule or a
relation, a value to its object, a fact to the directive of its relation. A `Link` is such a
reference, as it is written. Everything that the sentences of a program refer to is in the program.
-/

namespace Rulebook

namespace Logic

/-- A reference from one clause to another, by the name that is written. -/
inductive Link where
  /-- The predicate that takes a field. -/
  | accessor (name : String)
  /-- A value of an object, with so many components. -/
  | construct (name : String) (count : Nat)
  /-- A predicate with so many arguments. -/
  | predicate (name : String) (count : Nat)
  /-- A fact that comes or goes, by its predicate and the number of its arguments. -/
  | fact (signature : Option (String × Nat))
  deriving Repr, DecidableEq

namespace Phrase

/-- The predicate that a fact is about, and how many arguments are written. -/
def signature? : Phrase → Option (String × Nat)
  | call predicate args => some (predicate, args.length)
  | _ => none

mutual

/-- What a phrase refers to, itself or inside. -/
def links : Phrase → List Link
  | word _ => []
  | operation _ args => linksAll args
  | call predicate args => .predicate predicate args.length :: linksAll args
  | construct object args => .construct object args.length :: linksAll args
  | unify _ value => links value
  | access accessor _ _ => [.accessor accessor]
  | assert fact | retract fact => .fact fact.signature? :: links fact
  | choice condition success failure => linksAll condition ++ linksAll success ++ linksAll failure

/-- What several phrases refer to. -/
def linksAll : List Phrase → List Link
  | [] => []
  | p :: rest => links p ++ linksAll rest

end

@[simp] theorem linksAll_eq (ps : List Phrase) : linksAll ps = ps.flatMap links := by
  induction ps with
  | nil => rfl
  | cons p rest ih => rw [linksAll, ih, List.flatMap_cons]

end Phrase

namespace Sentence

/-- What the head and the body of a rule or a test refer to. -/
def links : Sentence → List Link
  | accessor _ _ _ | directive _ _ | testCases _ => []
  | rule _ params body => params.flatMap Phrase.links ++ body.flatMap Phrase.links
  | test _ body => body.flatMap Phrase.links

/-- What a sentence may be referred to as. An accessor has the name that it takes a field by and takes
a value of its object apart; a directive lets facts come and go and be asked for. -/
def provides : Sentence → List Link
  | accessor name object args => [.accessor name, .construct object args.length]
  | directive predicate arity => [.predicate predicate arity, .fact (some (predicate, arity))]
  | rule predicate params _ => [.predicate predicate params.length]
  | test _ _ | testCases _ => []

end Sentence

/-- The program has what the reference stands for. -/
def Supplied (program : List Sentence) (link : Link) : Prop :=
  ∃ sentence ∈ program, link ∈ sentence.provides

/-- All references of the sentences are to sentences among them, and a value has as many components as
every accessor that takes it apart has arguments. -/
structure Linked (program : List Sentence) : Prop where
  supplied : ∀ s ∈ program, ∀ link ∈ s.links, Supplied program link
  counts : ∀ s ∈ program, ∀ s' ∈ program, ∀ name m n, .construct name m ∈ s.links →
    .construct name n ∈ s'.provides → m = n

/-! ## References of terms and goals -/

/-- What a term refers to where it is written. -/
def Term.links (o : Options) (t : Term) : List Link := (t.phrase o).links

/-- What a goal refers to where it is written. -/
def Goal.links (o : Options) (goal : Goal) : List Link := (goal.phrase o).links

section

variable {o : Options}

theorem Term.flatMap_links_phrase (ts : List Term) :
    (ts.map (phrase o)).flatMap Phrase.links = ts.flatMap (links o) := List.flatMap_map ..

theorem Goal.flatMap_links_phrase (goals : List Goal) :
    (goals.map (phrase o)).flatMap Phrase.links = goals.flatMap (links o) := List.flatMap_map ..

theorem Term.links_operator (op : Operator) (args : List Term) :
    links o (.apply (.operator op) args) = args.flatMap (links o) := by
  rw [links, phrase, phrases_eq, Phrase.links, Phrase.linksAll_eq, flatMap_links_phrase]

theorem Term.links_predicate (name : String) (args : List Term) :
    links o (.apply (.predicate name) args) =
      .predicate (atom name) args.length :: args.flatMap (links o) := by
  rw [links, phrase, phrases_eq, Phrase.links, Phrase.linksAll_eq, flatMap_links_phrase,
    List.length_map]

theorem Term.links_construct (object : Nat) (args : List Term) :
    links o (.construct object args) =
      .construct (o.toNaming.object object) args.length :: args.flatMap (links o) := by
  rw [links, phrase, phrases_eq, Phrase.links, Phrase.linksAll_eq, flatMap_links_phrase,
    List.length_map]

theorem Term.links_unify (v : Var) (value : Term) : links o (.unify v value) = value.links o := by
  rw [links, phrase, Phrase.links, links]

theorem Term.signature?_predicate (name : String) (args : List Term) :
    (phrase o (.apply (.predicate name) args)).signature? = some (atom name, args.length) := by
  rw [phrase, phrases_eq, Phrase.signature?, List.length_map]

@[simp] theorem Goal.links_holds (t : Term) : links o (.holds t) = t.links o := by
  rw [links, phrase, Term.links]

theorem Goal.links_retract (fact : Term) :
    links o (.retract fact) = .fact (fact.phrase o).signature? :: fact.links o := by
  rw [links, phrase, Phrase.links, Term.links]

/-- Adding a fact and taking it away refer to the same things. -/
theorem Goal.links_assert (fact : Term) : links o (.assert fact) = links o (.retract fact) := by
  rw [links_retract, links, phrase, Phrase.links, Term.links]

theorem Goal.links_choice (condition success failure : List Goal) :
    links o (.choice condition success failure) = condition.flatMap (links o) ++
      success.flatMap (links o) ++ failure.flatMap (links o) := by
  simp only [links, phrase, phrases_eq, Phrase.links, Phrase.linksAll_eq, flatMap_links_phrase]

/-- The references of a clause are those of its terms and goals. -/
theorem Clause.links_rule (name : String) (params : List Term) (body : List Goal) :
    (sentence o (.rule name params body)).links =
      params.flatMap (Term.links o) ++ body.flatMap (Goal.links o) := by
  rw [sentence, Sentence.links, Term.phrases_eq, Goal.phrases_eq, Term.flatMap_links_phrase,
    Goal.flatMap_links_phrase]

theorem Clause.links_test (name : String) (body : List Goal) :
    (sentence o (.test name body)).links = body.flatMap (Goal.links o) := by
  rw [sentence, Sentence.links, Goal.phrases_eq, Goal.flatMap_links_phrase]

end

end Logic

namespace Lowering

open Logic (Supplied)

variable {o : Options} {d : Document} {th : Theory} {site : Site} {k k' : Nat}

/-! ## What a document supplies -/

/-- A clause supplies what its sentence provides. -/
theorem supplied_of_mem {c : Logic.Clause} (member : c ∈ th.clauses) {link : Logic.Link}
    (provided : link ∈ (c.sentence o).provides) : Supplied (th.sentences o) link :=
  ⟨c.sentence o, List.mem_map_of_mem member, provided⟩

theorem supplied_accessor (lowered : theory o.toNaming d = .ok th) {object : Object}
    {i position : Nat} {f : Field} (member : (object, i) ∈ numbered d)
    (here : object.fields[position]? = some f) :
    Supplied (th.sentences o) (.accessor (o.toNaming.accessor i f.name)) :=
  supplied_of_mem (accessor_mem_clauses lowered member here) List.mem_cons_self

/-- Without fields nothing would take a value of the object apart. -/
theorem supplied_construct (lowered : theory o.toNaming d = .ok th) {object : Object} {i : Nat}
    (member : (object, i) ∈ numbered d) (some : object.fields ≠ []) :
    Supplied (th.sentences o) (.construct (o.toNaming.object i) object.fields.length) := by
  obtain ⟨f, here⟩ := List.exists_mem_of_ne_nil _ some
  obtain ⟨position, there⟩ := List.getElem?_of_mem here
  refine supplied_of_mem (accessor_mem_clauses lowered member there) ?_
  rw [Logic.Clause.sentence, Logic.Sentence.provides, Logic.length_pick]
  exact List.mem_cons_of_mem _ List.mem_cons_self

theorem supplied_relation (regular : d.Regular) (lowered : theory o.toNaming d = .ok th)
    {name : String} {r : Relation} (found : d.relations.find? name = some r) :
    Supplied (th.sentences o) (.predicate (Logic.atom name) r.arity) ∧
      Supplied (th.sentences o) (.fact (some (Logic.atom name, r.arity))) := by
  have named : name = r.name := regular.relations _ (Table.find?_eq_some_iff.mp found)
  have clause := directive_mem_clauses lowered (Table.mem_values_of_find? found)
  rw [named]
  constructor
  · exact supplied_of_mem clause List.mem_cons_self
  · exact supplied_of_mem clause (List.mem_cons_of_mem _ List.mem_cons_self)

theorem supplied_rule (regular : d.Regular) (lowered : theory o.toNaming d = .ok th)
    {name : String} {r : Rule} (found : d.rules.find? name = some r) :
    Supplied (th.sentences o) (.predicate (Logic.atom name) r.params.length) := by
  have named : name = r.name := regular.rules _ (Table.find?_eq_some_iff.mp found)
  obtain ⟨_, c, _, gives, clause⟩ := exists_rule_clause lowered (Table.mem_values_of_find? found)
  obtain ⟨_, ls, _, rfl⟩ := gives_rule.mp gives
  refine supplied_of_mem clause ?_
  rw [named, Logic.Clause.sentence, Logic.Sentence.provides, Logic.Term.phrases_eq, List.length_map,
    List.length_map]
  exact List.mem_cons_self

theorem supplied_predicate (regular : d.Regular) (lowered : theory o.toNaming d = .ok th)
    {name : String} {count : Nat} (declared : arity? d name = some count) :
    Supplied (th.sentences o) (.predicate (Logic.atom name) count) := by
  have correct := (exists_theory_iff regular).mp ⟨th, lowered⟩
  rcases (arity?_eq_some_iff correct.apart).mp declared with ⟨r, found, rfl⟩ | ⟨r, found, rfl⟩
  · exact supplied_rule regular lowered found
  · exact (supplied_relation regular lowered found).1

/-! ## What lowering refers to -/

/-- What a lowered expression refers to. -/
def Lowered.links (o : Options) (l : Lowered) : List Logic.Link :=
  l.prerequisites.flatMap (Logic.Goal.links o) ++ l.value.links o

theorem flatMap_links_goals (l : Lowered) : l.goals.flatMap (Logic.Goal.links o) = l.links o := by
  simp [Lowered.goals, Lowered.links]

/-- Leaves refer to nothing. -/
theorem links_plainTerm (t : Term) : (plainTerm t).links o = [] := by
  induction t with
  | field _ value ih => exact ih
  | int _ | float _ | string _ | ident _ | var _ _ => rfl

/-- A variable refers to nothing, so only the goals before it do. -/
theorem links_var (v : Logic.Var) (goals : List Logic.Goal) :
    Lowered.links o ⟨.var v, goals⟩ = goals.flatMap (Logic.Goal.links o) :=
  List.append_nil _

/-- The goal that takes a field names the accessor of the field. -/
theorem supplied_project (regular : d.Regular) (lowered : theory o.toNaming d = .ok th) {t : Target}
    {a : Access} {field : String}
    (target : ∀ link ∈ t.goals.flatMap (Logic.Goal.links o), Supplied (th.sentences o) link)
    (gives : Gives (project (.of o.toNaming d) site t field) k a k') :
    ∀ link ∈ a.goals.flatMap (Logic.Goal.links o), Supplied (th.sentences o) link := by
  obtain ⟨object, symbol, position, f, found, numbered, declared, rfl, _⟩ := gives_project.mp gives
  have member := (regular.symbolTable_find? found).mp numbered
  have place := ((object.field?_eq_some_iff (regular.distinct_fields found)).mp declared).1
  intro link here
  rw [List.flatMap_append, List.mem_append, List.flatMap_singleton] at here
  rcases here with before | last
  · exact target link before
  · rw [List.mem_singleton.mp last]
    exact supplied_accessor lowered member place

/-- The values of the fields of a new value are leaves. -/
theorem links_of_fills {assigned : List (String × Term)} {fields : List Field}
    {values : List Logic.Term} (fills : List.Forall₂ (Fills o.toNaming assigned) fields values) :
    values.flatMap (Logic.Term.links o) = [] := by
  have leaf {type : FieldType} {value : Term} {v : Logic.Term}
      (admits : Admits o.toNaming type value v) : v.links o = [] := by
    cases admits <;> rfl
  induction fills with
  | nil => rfl
  | cons first _ ih =>
    rw [List.flatMap_cons, ih, List.append_nil]
    cases first with
    | assigned _ admits => exact leaf admits
    | «open» _ => rfl

/-- An application refers to its predicate, if it has one, and to what its arguments refer to. -/
theorem mem_links_apply {functor : Logic.Functor} {ls : List Lowered} {link : Logic.Link}
    (here : link ∈ Lowered.links o ⟨.apply functor (ls.map Lowered.value),
      ls.flatMap Lowered.prerequisites⟩) :
    (∃ name, functor = .predicate name ∧ link = .predicate (Logic.atom name) ls.length) ∨
      ∃ l ∈ ls, link ∈ l.links o := by
  have inside (h : (∃ l ∈ ls, link ∈ l.prerequisites.flatMap (Logic.Goal.links o)) ∨
      ∃ l ∈ ls, link ∈ l.value.links o) : ∃ l ∈ ls, link ∈ l.links o := by
    rcases h with ⟨l, member, h⟩ | ⟨l, member, h⟩
    · exact ⟨l, member, List.mem_append_left _ h⟩
    · exact ⟨l, member, List.mem_append_right _ h⟩
  rw [Lowered.links, List.flatMap_assoc, List.mem_append, List.mem_flatMap] at here
  cases functor with
  | operator op =>
    rw [Logic.Term.links_operator, List.flatMap_map, List.mem_flatMap] at here
    exact .inr (inside here)
  | predicate name =>
    rw [Logic.Term.links_predicate, List.flatMap_map, List.mem_cons, List.mem_flatMap,
      List.length_map] at here
    rcases here with before | rfl | within
    · exact .inr (inside (.inl before))
    · exact .inl ⟨name, rfl, rfl⟩
    · exact .inr (inside (.inr within))

theorem functorOf_eq_predicate_iff {functor name : String} :
    functorOf functor = .predicate name ↔ Operator.ofSpelling? functor = none ∧ functor = name := by
  unfold functorOf
  split <;> simp_all

/-- Taking facts away refers to the facts. -/
theorem mem_links_cleaningUp {checks : List Logic.Goal} {asserted : List Logic.Term}
    {link : Logic.Link}
    (here : link ∈ (cleaningUp checks asserted).flatMap (Logic.Goal.links o)) :
    link ∈ checks.flatMap (Logic.Goal.links o) ∨
      ∃ t ∈ asserted, link ∈ Logic.Goal.links o (.retract t) := by
  unfold cleaningUp at here
  split at here
  · exact .inl here
  · have taken (h : link ∈ (asserted.map Logic.Goal.retract).flatMap (Logic.Goal.links o)) :
        ∃ t ∈ asserted, link ∈ Logic.Goal.links o (.retract t) := by
      rwa [List.flatMap_map, List.mem_flatMap] at h
    rw [List.flatMap_singleton, Logic.Goal.links_choice, List.flatMap_append, List.mem_append,
      List.mem_append, List.mem_append] at here
    rcases here with (checked | success) | failure | failed
    · exact .inl checked
    · exact .inr (taken success)
    · exact .inr (taken failure)
    · cases failed

section

variable (regular : d.Regular) (fields : ∀ object ∈ d.objects.values, object.fields ≠ [])
  (lowered : theory o.toNaming d = .ok th)

include regular fields lowered

theorem supplied_instantiate {args : List Node} {l : Lowered}
    (gives : Gives (instantiate (.of o.toNaming d) site args) k l k') :
    ∀ link ∈ l.links o, Supplied (th.sentences o) link := by
  obtain ⟨name, objectName, object, symbol, assigned, values, rfl, found, numbered, _, fills, _, rfl,
    _⟩ := gives_instantiate.mp gives
  replace found : d.objects.find? objectName = some object := found
  replace fills : List.Forall₂ (Fills o.toNaming assigned) object.fields values := fills
  have member := (regular.symbolTable_find? found).mp numbered
  have links : Lowered.links o { value := .unify (.user name) (.construct symbol values) } =
      [.construct (o.toNaming.object symbol) object.fields.length] := by
    rw [Lowered.links, Logic.Term.links_unify, Logic.Term.links_construct, links_of_fills fills,
      fills.length_eq]
    rfl
  rw [links]
  intro link here
  rw [List.mem_singleton.mp here]
  exact supplied_construct lowered member (fields object (Table.mem_values_of_find? found))

/-- Whatever a lowered node refers to is supplied. -/
theorem supplied_node {n : Node} {l : Lowered}
    (gives : Gives (node (.of o.toNaming d) site n) k l k') :
    ∀ link ∈ l.links o, Supplied (th.sentences o) link := by
  induction n using Node.induction generalizing k l k' with
  | term t =>
    obtain ⟨_, rfl, _⟩ := gives_node_term.mp gives
    simp [Lowered.links, links_plainTerm]
  | app functor args ih =>
    by_cases new : functor = Expr.newFunctor
    · subst new
      exact supplied_instantiate regular fields lowered (gives_node_new.mp gives)
    · by_cases accesses : functor = Expr.accessFunctor
      · subst accesses
        obtain ⟨a, ha, rfl⟩ := gives_node_access.mp gives
        obtain ⟨left, right, field, t, k₁, rfl, _, ht, hp⟩ := gives_access.mp ha
        have target := ih left (by simp) (gives_node_of_target ht)
        rw [links_var] at target ⊢
        exact supplied_project regular lowered target hp
      · obtain ⟨arity, ls, each, rfl⟩ := (gives_node_apply new accesses).mp gives
        have arguments : ∀ b ∈ ls, ∀ link ∈ b.links o, Supplied (th.sentences o) link := by
          intro b here
          obtain ⟨a, member, _, _, given⟩ := each.exists_of_mem here
          exact ih a member given
        intro link here
        rcases mem_links_apply here with ⟨name, predicate, rfl⟩ | ⟨b, member, inside⟩
        · obtain ⟨word, rfl⟩ := functorOf_eq_predicate_iff.mp predicate
          have count : ls.length = args.length := each.length_eq
          rw [count]
          exact supplied_predicate regular lowered (arity word)
        · exact arguments b member link inside

/-- The goals of several expressions. -/
theorem supplied_body {es : List Expr} {ls : List Lowered}
    (each : Each (expr (.of o.toNaming d) site) k es ls k') :
    ∀ link ∈ (ls.flatMap Lowered.goals).flatMap (Logic.Goal.links o),
      Supplied (th.sentences o) link := by
  intro link here
  rw [List.flatMap_assoc, List.mem_flatMap] at here
  rcases here with ⟨l, member, inside⟩
  obtain ⟨e, _, _, _, gives⟩ := each.exists_of_mem member
  rw [flatMap_links_goals] at inside
  exact supplied_node regular fields lowered gives link inside

/-- The goals of a fact, and the fact where it is taken away again. -/
theorem supplied_fact {e : Expr} {r : List Logic.Goal × List Logic.Term}
    (gives : Gives (fact (.of o.toNaming d) site e) k r k') :
    (∀ link ∈ r.1.flatMap (Logic.Goal.links o), Supplied (th.sentences o) link) ∧
      ∀ t ∈ r.2, ∀ link ∈ Logic.Goal.links o (.retract t), Supplied (th.sentences o) link := by
  by_cases new : e.functor = Expr.newFunctor
  · obtain ⟨l, hl, rfl⟩ := (gives_fact_new new).mp gives
    refine ⟨?_, nofun⟩
    simpa using supplied_body regular fields lowered (.cons hl .nil)
  · obtain ⟨⟨relation, found, arity⟩, ls, each, rfl⟩ := (gives_fact new).mp gives
    have count : ls.length = relation.arity := each.length_eq.trans arity
    obtain ⟨asked, comes⟩ := supplied_relation regular lowered found
    have applied : ∀ link ∈ Lowered.links o ⟨.apply (.predicate e.functor)
        (ls.map Lowered.value), ls.flatMap Lowered.prerequisites⟩,
        Supplied (th.sentences o) link := by
      intro link here
      rcases mem_links_apply here with ⟨name, predicate, rfl⟩ | ⟨l, member, inside⟩
      · cases predicate
        rw [count]
        exact asked
      · obtain ⟨a, _, _, _, given⟩ := each.exists_of_mem member
        exact supplied_node regular fields lowered given link inside
    have retracted : ∀ link ∈ Logic.Goal.links o
        (.retract (.apply (.predicate e.functor) (ls.map Lowered.value))),
        Supplied (th.sentences o) link := by
      intro link here
      rw [Logic.Goal.links_retract, Logic.Term.signature?_predicate, List.length_map, count,
        List.mem_cons] at here
      rcases here with rfl | inside
      · exact comes
      · exact applied link (List.mem_append_right _ inside)
    constructor
    · intro link here
      rw [List.flatMap_append, List.mem_append, List.flatMap_singleton,
        Logic.Goal.links_assert] at here
      rcases here with before | last
      · exact applied link (List.mem_append_left _ before)
      · exact retracted link last
    · intro t here
      rw [List.mem_singleton.mp here]
      exact retracted

/-- The sentence of a clause refers only to what the sentences supply. -/
theorem supplied_clause {c : Logic.Clause} (member : c ∈ th.clauses) :
    ∀ link ∈ (c.sentence o).links, Supplied (th.sentences o) link := by
  rcases clause_cases lowered member with ⟨_, _, _, _, _, _, rfl⟩ | ⟨_, _, rfl⟩ | ⟨r, _, k, k', gives⟩ |
    ⟨t, _, k, k', gives⟩ | rfl
  · nofun
  · nofun
  · obtain ⟨_, ls, body, rfl⟩ := gives_rule.mp gives
    intro link here
    have params : (r.params.map plainTerm).flatMap (Logic.Term.links o) = [] := by
      simp [List.flatMap_map, links_plainTerm]
    rw [Logic.Clause.links_rule, params, List.nil_append] at here
    exact supplied_body regular fields lowered body link here
  · obtain ⟨_, fs, k₁, ls, facts, body, rfl⟩ := gives_test.mp gives
    have each : ∀ r ∈ fs,
        (∀ link ∈ r.1.flatMap (Logic.Goal.links o), Supplied (th.sentences o) link) ∧
          ∀ t ∈ r.2, ∀ link ∈ Logic.Goal.links o (.retract t),
            Supplied (th.sentences o) link := by
      intro r here
      obtain ⟨e, _, _, _, given⟩ := facts.exists_of_mem here
      exact supplied_fact regular fields lowered given
    intro link here
    rw [Logic.Clause.links_test, List.flatMap_append, List.mem_append, List.flatMap_assoc,
      List.mem_flatMap] at here
    rcases here with ⟨r, asserts, inside⟩ | cleaned
    · exact (each r asserts).1 link inside
    · rcases mem_links_cleaningUp cleaned with checked | ⟨t, asserted, inside⟩
      · exact supplied_body regular fields lowered body link checked
      · obtain ⟨r, asserts, here⟩ := List.mem_flatMap.mp asserted
        exact (each r asserts).2 t here link inside
  · nofun

end

/-- Only an accessor takes a value apart, and it has an argument for each field of the object. -/
theorem provides_construct (lowered : theory o.toNaming d = .ok th) {c : Logic.Clause}
    (member : c ∈ th.clauses) {name : String} {n : Nat}
    (here : .construct name n ∈ (c.sentence o).provides) :
    ∃ object i, (object, i) ∈ numbered d ∧ name = o.toNaming.object i ∧
      n = object.fields.length := by
  rcases clause_cases lowered member with ⟨object, i, f, position, numbered, _, rfl⟩ | ⟨_, _, rfl⟩ |
    ⟨r, _, k, k', gives⟩ | ⟨t, _, k, k', gives⟩ | rfl
  · have same : name = o.toNaming.object i ∧ n = object.fields.length := by
      simpa [Logic.Clause.sentence, Logic.Sentence.provides, Logic.length_pick] using here
    exact ⟨object, i, numbered, same⟩
  · simp [Logic.Clause.sentence, Logic.Sentence.provides] at here
  · obtain ⟨_, ls, _, rfl⟩ := gives_rule.mp gives
    simp [Logic.Clause.sentence, Logic.Sentence.provides] at here
  · obtain ⟨_, fs, k₁, ls, _, _, rfl⟩ := gives_test.mp gives
    cases here
  · cases here

/-- All sentences that take a value apart agree on the number of its components. -/
theorem construct_count_eq (lowered : theory o.toNaming d = .ok th) {name : String} {m n : Nat}
    (hm : Supplied (th.sentences o) (.construct name m))
    (hn : Supplied (th.sentences o) (.construct name n)) : m = n := by
  rcases hm with ⟨s, inside, here⟩
  rcases hn with ⟨s', inside', there⟩
  obtain ⟨c, member, rfl⟩ := List.mem_map.mp inside
  obtain ⟨c', member', rfl⟩ := List.mem_map.mp inside'
  obtain ⟨object, i, numbered, rfl, rfl⟩ := provides_construct lowered member here
  obtain ⟨object', j, numbered', same, rfl⟩ := provides_construct lowered member' there
  obtain rfl := Naming.object_inj same
  rw [numbered_inj numbered numbered']

end Lowering

/-- Every program of a text is written as sentences that are linked. -/
theorem program_linked {text : String} {o : Options} {d : Document} {p : Program}
    (parsed : Compiler.parse text = .ok d) (generated : Compiler.generate o d = .ok p) :
    ∃ th, Lowering.theory o.toNaming d = .ok th ∧ p.clauses = th.clauses.map (·.written o) ∧
      p.texts = (th.sentences o).map Logic.Sentence.text ∧ Logic.Linked (th.sentences o) := by
  have regular := regular_of_parse parsed
  have fields := fields_ne_nil_of_parse parsed
  obtain ⟨th, lowered, written⟩ := exists_theory_of_generate generated
  have supplied : ∀ s ∈ th.sentences o, ∀ link ∈ s.links, Logic.Supplied (th.sentences o) link := by
    intro s member
    obtain ⟨c, here, rfl⟩ := List.mem_map.mp member
    exact Lowering.supplied_clause regular fields lowered here
  refine ⟨th, lowered, written, texts_eq_sentences written, supplied, ?_⟩
  intro s member s' member' name m n needed provided
  exact Lowering.construct_count_eq lowered (supplied s member _ needed) ⟨s', member', provided⟩

/-- A test that adds a fact and asks for a rule, which takes a field. -/
theorem program_linked_nested :
    ∃ d p th, Compiler.parse ("object A { x: A } relation q { a: A } " ++
        "rule r { input { a: A } rules { q(a.x) } } " ++
        "test t { facts { u: A { x: u }, q(u) } rules { r(u) } }") = .ok d ∧
      Compiler.generate {} d = .ok p ∧
      p.texts = ["o_1_x(Value, Object) :- Object = o_1(Value).", ":- dynamic(q/1).",
        "r(A) :- o_1_x(V_2, A), q(V_2).",
        "test('t') :- U = o_1(U), assertz(q(U)), (r(U) -> retract(q(U)) ; retract(q(U)), fail).",
        "test_cases(['t'])."] ∧
      p.texts = (Lowering.Theory.sentences {} th).map Logic.Sentence.text ∧
      Logic.Linked (th.sentences {}) := by
  obtain ⟨d, parsed, answer⟩ : ∃ d, Compiler.parse ("object A { x: A } relation q { a: A } " ++
      "rule r { input { a: A } rules { q(a.x) } } " ++
      "test t { facts { u: A { x: u }, q(u) } rules { r(u) } }") = .ok d ∧
      (Compiler.generate {} d).toOption.map Program.texts =
        some ["o_1_x(Value, Object) :- Object = o_1(Value).", ":- dynamic(q/1).",
          "r(A) :- o_1_x(V_2, A), q(V_2).",
          "test('t') :- U = o_1(U), assertz(q(U)), (r(U) -> retract(q(U)) ; retract(q(U)), fail).",
          "test_cases(['t'])."] := exists_ok_of_map (by decide +kernel)
  obtain ⟨p, generated, texts⟩ := exists_ok_of_map answer
  obtain ⟨th, _, _, sentences, linked⟩ := program_linked parsed generated
  exact ⟨d, p, th, parsed, generated, texts, sentences, linked⟩

end Rulebook
