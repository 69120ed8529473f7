import Rulebook.Proofs.Lowering.Accepts
import Rulebook.Proofs.Logic.Run

/-!
# Lowering keeps the meaning of field accesses

A field access means a component of an object: `x.f` is the component of `x` at the position where
`f` is declared. Lowering replaces it by a fresh variable and goals before the term. Run with the
accessor clauses of the program, these goals succeed, and they bind the fresh variables so that the
term says what the expression means.
-/

namespace Rulebook

/-! ## Meaning -/

namespace Document

variable (d : Document) (values : String → Logic.Term)

/-- The field of a value, with its type: the component at the position of the field. The value must
be of the number of its object, with one component for each field. -/
def component? (field : String) : FieldType × Logic.Term → Option (FieldType × Logic.Term)
  | (.object name, .construct symbol components) =>
    match d.objects.find? name with
    | some o =>
      if (Lowering.symbolTable d).find? name = some symbol ∧
          components.length = o.fields.length then
        match o.field? field with
        | some (position, f) => components[position]?.map fun v => (f.type, v)
        | none => none
      else none
    | none => none
  | _ => none

/-- What a variable of an object type or a field access denotes, and its type. -/
def denote? : Node → Option (FieldType × Logic.Term)
  | .term (.var name (.object object)) => some (.object object, values name)
  | .app functor [left, right] =>
    if functor = Expr.accessFunctor then
      match denote? left, Lowering.fieldName? right with
      | some value, some field => d.component? field value
      | _, _ => none
    else none
  | _ => none

mutual

/-- The term of a node in which every field access is what it denotes. -/
def meaning : Node → Logic.Term
  | .term t => Lowering.plainTerm t
  | .app functor args =>
    if functor = Expr.accessFunctor then
      ((d.denote? values (.app functor args)).map Prod.snd).getD .wildcard
    else .apply (Lowering.functorOf functor) (meanings args)

/-- The terms of several nodes. -/
def meanings : List Node → List Logic.Term
  | [] => []
  | n :: rest => meaning n :: meanings rest

end

end Document

/-! ## Accessors of a program -/

namespace Lowering

/-- The sentences of a program. -/
def Theory.sentences (o : Options) (th : Theory) : List Logic.Sentence :=
  th.clauses.map (Logic.Clause.sentence o)

open Logic (Bindings Goal)

variable {naming : Naming} {d : Document} {th : Theory}

/-- Only accessors have names of accessors. -/
theorem predicate_ne_accessor (regular : d.Regular)
    (plain : Text.isPlainAtom naming.objectPrefix.toList = true) (clean : fault? naming d = none)
    {c : Logic.Clause} {rs ts : List Logic.Clause} {k₁ k₂ : Nat}
    (rules : Each (rule (.of naming d)) d.objects.values.length d.rules.values rs k₁)
    (tests : Each (test (.of naming d)) k₁ d.tests ts k₂)
    (member : c ∈ d.relations.values.map (fun r => .directive r.name r.arity) ++ rs ++ ts ++
      [.testCases d.testNames]) (i : Nat) (field : String) :
    c.predicate naming ≠ naming.accessor i field := by
  obtain ⟨_, predicates, _⟩ := fault?_eq_none_iff.mp clean
  -- The name of an accessor holds a digit.
  have digit : ∃ a ∈ (naming.accessor i field).toList, a.isDigit = true := by
    rw [Naming.toList_accessor]
    obtain ⟨a, here⟩ := List.exists_mem_of_ne_nil _ (digits_toString i).some
    exact ⟨a, List.mem_append_right _ (List.mem_append_left _ here), (digits_toString i).all a here⟩
  have other {name : String} (none : name.toList.any Char.isDigit = false) :
      name ≠ naming.accessor i field := by
    intro same
    rw [same, List.any_eq_true.mpr digit] at none
    cases none
  simp only [List.mem_append, List.mem_map, List.mem_singleton] at member
  rcases member with ((⟨r, declared, rfl⟩ | member) | member) | rfl
  · obtain ⟨entry, here, rfl⟩ := List.mem_map.mp declared
    refine atom_ne_accessor plain (predicates _ (.inr ?_)).2 i field
    exact List.mem_map.mpr ⟨entry, here, regular.relations entry here⟩
  · obtain ⟨r, declared, _, _, gives⟩ := rules.exists_of_mem member
    obtain ⟨_, _, _, rfl⟩ := gives_rule.mp gives
    obtain ⟨entry, here, rfl⟩ := List.mem_map.mp declared
    refine atom_ne_accessor plain (predicates _ (.inl ?_)).2 i field
    exact List.mem_map.mpr ⟨entry, here, regular.rules entry here⟩
  · obtain ⟨t, _, _, _, gives⟩ := tests.exists_of_mem member
    obtain ⟨_, _, _, _, _, _, rfl⟩ := gives_test.mp gives
    exact @other "test" (by decide)
  · exact @other "test_cases" (by decide)

/-- Among the clauses of a program, one defines the accessor of a field. -/
theorem filter_accessor (regular : d.Regular)
    (plain : Text.isPlainAtom naming.objectPrefix.toList = true)
    (lowered : theory naming d = .ok th)
    {o : Object} {i position : Nat} {f : Field} (member : (o, i) ∈ numbered d)
    (here : o.fields[position]? = some f) :
    th.clauses.filter (·.predicate naming == naming.accessor i f.name) =
      [.accessor i o.name f.name position o.fields.length] := by
  obtain ⟨clean, rs, k₁, ts, k₂, rules, tests, rfl⟩ := theory_eq_ok_iff.mp lowered
  have among : .accessor i o.name f.name position o.fields.length ∈
      (numbered d).flatMap accessors := by
    rw [List.mem_flatMap]
    refine ⟨(o, i), member, List.mem_map.mpr ⟨(f, position), ?_, rfl⟩⟩
    exact List.mem_zipIdx_iff_getElem?.mpr here
  have accessor : ((numbered d).flatMap accessors).filter
      (·.predicate naming == naming.accessor i f.name) =
        [.accessor i o.name f.name position o.fields.length] :=
    filter_key_eq (nodup_accessors regular) among
  simp only [List.append_assoc]
  rw [List.filter_append, accessor, List.append_right_eq_self, List.filter_eq_nil_iff]
  intro c inside same
  simp only [← List.append_assoc] at inside
  have apart := predicate_ne_accessor regular plain clean rules tests inside i f.name
  exact apart (by simpa using same)

/-- Among the sentences of a program, one defines the accessor of a field. It has an argument for each
field of the object, and takes the one at the position of the field. -/
theorem filter_sentences {options : Options} (regular : d.Regular)
    (plain : Text.isPlainAtom options.objectPrefix.toList = true)
    (lowered : theory options.toNaming d = .ok th)
    {o : Object} {i position : Nat} {f : Field} (member : (o, i) ∈ numbered d)
    (here : o.fields[position]? = some f) :
    (th.sentences options).filter (·.predicate == options.toNaming.accessor i f.name) =
      [.accessor (options.toNaming.accessor i f.name) (options.toNaming.object i)
        (Logic.pick position o.fields.length)] := by
  have same : (fun c : Logic.Clause => (c.sentence options).predicate ==
      options.toNaming.accessor i f.name) =
        fun c => c.predicate options.toNaming == options.toNaming.accessor i f.name := by
    funext c
    rw [Logic.Clause.predicate_sentence]
  rw [Theory.sentences, List.filter_map, Function.comp_def, same,
    filter_accessor regular plain lowered member here]
  rfl

/-! ## Runs of lowered goals -/

theorem component?_eq_some_iff {values : FieldType × Logic.Term} {field : String}
    {r : FieldType × Logic.Term} :
    d.component? field values = some r ↔
      ∃ name symbol components o position f v, values = (.object name, .construct symbol components) ∧
        d.objects.find? name = some o ∧ (symbolTable d).find? name = some symbol ∧
        components.length = o.fields.length ∧ o.field? field = some (position, f) ∧
        components[position]? = some v ∧ r = (f.type, v) := by
  constructor
  · intro h
    unfold Document.component? at h
    split at h
    · rename_i name symbol components
      split at h
      · rename_i o found
        split at h
        · rename_i fits
          split at h
          · rename_i position f hasField
            obtain ⟨v, here, same⟩ := Option.map_eq_some_iff.mp h
            exact ⟨name, symbol, components, o, position, f, v, rfl, found, fits.1, fits.2, hasField,
              here, same.symm⟩
          · cases h
        · cases h
      · cases h
    · cases h
  · intro ⟨name, symbol, components, o, position, f, v, whole, found, hasSymbol, fits, hasField, here,
      same⟩
    simp [whole, Document.component?, found, hasSymbol, fits, hasField, here, same]

theorem denote?_access_eq_some_iff {values : String → Logic.Term} {args : List Node}
    {r : FieldType × Logic.Term} :
    d.denote? values (.app Expr.accessFunctor args) = some r ↔
      ∃ left right field value, args = [left, right] ∧ fieldName? right = some field ∧
        d.denote? values left = some value ∧ d.component? field value = some r := by
  constructor
  · intro h
    unfold Document.denote? at h
    split at h
    · rename_i whole
      cases whole
    · rename_i left right whole
      cases whole
      rw [if_pos rfl] at h
      split at h
      · rename_i value field denoted named
        exact ⟨left, right, field, value, rfl, named, denoted, h⟩
      · cases h
    · cases h
  · intro ⟨left, right, field, value, whole, named, denoted, h⟩
    rw [whole, Document.denote?, if_pos rfl, denoted, named]
    exact h

section Runs

variable {options : Options} {values : String → Logic.Term} {site : Site}

/-- Taking a field of a bound target binds the next number to the component. -/
theorem run_project (regular : d.Regular)
    (plain : Text.isPlainAtom options.objectPrefix.toList = true)
    (lowered : theory options.toNaming d = .ok th)
    {t : Target} {field : String} {a : Access} {k k' : Nat} {value v : Logic.Term}
    {type : FieldType}
    {σ : Bindings} (gives : Gives (project (.of options.toNaming d) site t field) k a k')
    (below : σ.Below k) (bound : t.value.value? values σ = some value)
    (denoted : d.component? field (.object t.objectName, value) = some (type, v)) :
    a.type = type ∧ ∃ goal τ, a.goals = t.goals ++ [goal] ∧
      Goal.run options.toNaming (th.sentences options) values σ [goal] = some τ ∧ σ.Extends τ ∧
      τ.Below k' ∧ τ.lookup a.result = some v := by
  obtain ⟨o, symbol, position, f, found, hasSymbol, hasField, rfl, rfl⟩ := gives_project.mp gives
  obtain ⟨_, _, components, _, _, _, _, whole, found', hasSymbol', fits, hasField', here, same⟩ :=
    component?_eq_some_iff.mp denoted
  obtain ⟨named, rfl⟩ := Prod.mk.inj whole
  cases named
  have found : d.objects.find? t.objectName = some o := found
  have hasSymbol : (symbolTable d).find? t.objectName = some symbol := hasSymbol
  -- Both sides look up the same object, number and field.
  rw [found] at found'
  cases found'
  rw [hasSymbol] at hasSymbol'
  cases hasSymbol'
  rw [hasField] at hasField'
  cases hasField'
  cases same
  have placed := (Object.field?_eq_some_iff (regular.distinct_fields found)).mp hasField
  have only := filter_sentences regular plain lowered
    ((regular.symbolTable_find? found).mp hasSymbol) placed.1
  have taken : (Logic.Sentence.accessor (options.toNaming.accessor symbol f.name)
      (options.toNaming.object symbol) (Logic.pick position o.fields.length)).component?
        options.toNaming (.construct symbol components) = some v := by
    rw [← fits, Logic.Sentence.component?, if_pos ⟨rfl, Logic.length_pick _ _⟩,
      Logic.picked?_pick here]
  have free := below.lookup_eq_none (Nat.lt_succ_self k)
  refine ⟨rfl, _, _, rfl, Goal.run_access only bound taken free, Bindings.Extends.append _ _,
    below.append, Bindings.lookup_append_self free⟩

/-- The goals of a target leave it bound to what it denotes. -/
def RunsTarget (options : Options) (d : Document) (th : Theory) (values : String → Logic.Term)
    (site : Site) (n : Node) : Prop :=
  ∀ (k k' : Nat) (t : Target) (type : FieldType) (v : Logic.Term) (σ : Bindings),
    Gives (target (.of options.toNaming d) site n) k t k' →
    d.denote? values n = some (type, v) → σ.Below k →
    type = .object t.objectName ∧
    ∃ τ, Goal.run options.toNaming (th.sentences options) values σ t.goals = some τ ∧
      σ.Extends τ ∧ τ.Below k' ∧ t.value.value? values τ = some v

/-- The goals of a field access bind its variable to what it denotes. -/
theorem run_access (regular : d.Regular)
    (plain : Text.isPlainAtom options.objectPrefix.toList = true)
    (lowered : theory options.toNaming d = .ok th)
    {args : List Node} (targets : ∀ n ∈ args, RunsTarget options d th values site n) {a : Access}
    {k k' : Nat} {type : FieldType} {v : Logic.Term} {σ : Bindings}
    (gives : Gives (access (.of options.toNaming d) site args) k a k')
    (denoted : d.denote? values (.app Expr.accessFunctor args) = some (type, v))
    (below : σ.Below k) :
    a.type = type ∧
    ∃ τ, Goal.run options.toNaming (th.sentences options) values σ a.goals = some τ ∧ σ.Extends τ ∧
      τ.Below k' ∧ τ.lookup a.result = some v := by
  obtain ⟨left, right, field, t, k₁, rfl, named, ht, ha⟩ := gives_access.mp gives
  obtain ⟨_, _, _, value, whole, named', denotedLeft, h⟩ := denote?_access_eq_some_iff.mp denoted
  cases whole
  rw [named] at named'
  cases named'
  obtain ⟨typed, τ, runs, kept, belowLeft, bound⟩ :=
    targets left (by simp) k k₁ t value.1 value.2 σ ht denotedLeft below
  have h : d.component? field (.object t.objectName, value.2) = some (type, v) := by
    rw [← typed]
    exact h
  obtain ⟨typed, goal, υ, goals, runsGoal, keptGoal, belowGoal, result⟩ :=
    run_project regular plain lowered ha belowLeft bound h
  refine ⟨typed, υ, ?_, kept.trans keptGoal, belowGoal, result⟩
  rw [goals, Goal.run_append, runs]
  exact runsGoal

theorem runs_target (regular : d.Regular)
    (plain : Text.isPlainAtom options.objectPrefix.toList = true)
    (lowered : theory options.toNaming d = .ok th)
    (n : Node) : RunsTarget options d th values site n := by
  induction n using Node.induction with
  | term t =>
    intro k k' target type v σ gives denoted below
    rcases gives_target.mp gives with ⟨name, object, whole, _, rfl, rfl⟩ | ⟨_, _, _, whole, _⟩
    · cases whole
      cases denoted
      exact ⟨rfl, σ, rfl, Bindings.Extends.refl σ, below, rfl⟩
    · cases whole
  | app functor args ih =>
    intro k k' target type v σ gives denoted below
    rcases gives_target.mp gives with ⟨_, _, whole, _⟩ | ⟨_, a, object, whole, ha, typed, rfl⟩
    · cases whole
    · cases whole
      obtain ⟨same, τ, runs, kept, belowResult, result⟩ :=
        run_access regular plain lowered ih ha denoted below
      exact ⟨same.symm.trans typed, τ, runs, kept, belowResult, result⟩

/-- What lowered goals and terms do: the goals succeed, and under the bindings that they leave, and
any later ones, the terms are the given ones. -/
def Realizes (options : Options) (th : Theory) (values : String → Logic.Term) (k k' : Nat)
    (goals : List Goal) (terms meanings : List Logic.Term) : Prop :=
  ∀ σ : Bindings, σ.Below k →
    ∃ τ, Goal.run options.toNaming (th.sentences options) values σ goals = some τ ∧
      σ.Extends τ ∧ τ.Below k' ∧ ∀ υ, τ.Extends υ → terms.map (Logic.Term.subst υ) = meanings

/-- Goals one after the other; the later ones keep what the earlier ones bind. -/
theorem Realizes.append {k k₁ k' : Nat} {gs hs : List Goal} {ts us ms ns : List Logic.Term}
    (first : Realizes options th values k k₁ gs ts ms)
    (second : Realizes options th values k₁ k' hs us ns) :
    Realizes options th values k k' (gs ++ hs) (ts ++ us) (ms ++ ns) := by
  intro σ below
  obtain ⟨τ, runs, kept, belowFirst, firstTerms⟩ := first σ below
  obtain ⟨υ, runs', kept', belowSecond, secondTerms⟩ := second τ belowFirst
  refine ⟨υ, ?_, kept.trans kept', belowSecond, fun ω later => ?_⟩
  · rw [Goal.run_append, runs]
    exact runs'
  · rw [List.map_append, firstTerms ω (kept'.trans later), secondTerms ω later]

theorem realizes_nil (k : Nat) : Realizes options th values k k [] [] [] :=
  fun σ below => ⟨σ, rfl, Bindings.Extends.refl σ, below, fun _ _ => rfl⟩

/-- Arguments, if each of them does what it means. -/
theorem realizes_each {args : List Node} {ls : List Lowered} {k k' : Nat}
    (each : Each (node (.of options.toNaming d) site) k args ls k')
    (realizes : ∀ n ∈ args, ∀ k l k', Gives (node (.of options.toNaming d) site n) k l k' →
      Realizes options th values k k' l.prerequisites [l.value] [d.meaning values n]) :
    Realizes options th values k k' (ls.flatMap Lowered.prerequisites) (ls.map Lowered.value)
      (args.map (d.meaning values)) := by
  induction each with
  | nil => exact realizes_nil _
  | cons first _ ih =>
    rw [List.forall_mem_cons] at realizes
    exact (realizes.1 _ _ _ first).append (ih realizes.2)

/-- Leaves have no fresh variables. -/
theorem subst_plainTerm (σ : Bindings) (t : Term) :
    (plainTerm t).subst σ = plainTerm t := by
  induction t with
  | field _ _ ih => exact ih
  | int _ | float _ | string _ | ident _ | var _ _ => rfl

theorem meanings_eq_map (nodes : List Node) :
    d.meanings values nodes = nodes.map (d.meaning values) := by
  induction nodes with
  | nil => rfl
  | cons n rest ih => rw [Document.meanings, ih, List.map_cons]

/-- An applied functor, if its arguments do what they mean. -/
theorem realizes_apply {functor : String} (notAccess : functor ≠ Expr.accessFunctor)
    {args : List Node} {goals : List Goal} {terms : List Logic.Term} {k k' : Nat}
    (realizes : Realizes options th values k k' goals terms (args.map (d.meaning values))) :
    Realizes options th values k k' goals [.apply (functorOf functor) terms]
      [d.meaning values (.app functor args)] := by
  intro σ below
  obtain ⟨τ, runs, kept, belowResult, same⟩ := realizes σ below
  refine ⟨τ, runs, kept, belowResult, fun υ later => ?_⟩
  rw [List.map_singleton, Logic.Term.subst, Logic.Term.substAll_eq_map, same υ later,
    Document.meaning, if_neg notAccess, meanings_eq_map]

/-- The field accesses inside a node denote something. -/
def Defined (d : Document) (values : String → Logic.Term) (n : Node) : Prop :=
  ∀ m : Node, m.Within n → m.IsAccess → (d.denote? values m).isSome = true

theorem defined_term {values : String → Logic.Term} {t : Term} : Defined d values (.term t) := by
  intro m within access
  cases within
  rcases access with ⟨_, whole⟩
  cases whole

/-- The accesses inside an application are its own and those of its arguments. -/
theorem defined_app {values : String → Logic.Term} {functor : String} {args : List Node}
    (own : functor = Expr.accessFunctor → (d.denote? values (.app functor args)).isSome = true)
    (inner : ∀ n ∈ args, Defined d values n) : Defined d values (.app functor args) := by
  intro m within access
  cases within with
  | here =>
    rcases access with ⟨_, whole⟩
    cases whole
    exact own rfl
  | inside member within => exact inner _ member m within access

/-- A plain node does what it means. -/
theorem realizes_node (regular : d.Regular)
    (plainPrefix : Text.isPlainAtom options.objectPrefix.toList = true)
    (lowered : theory options.toNaming d = .ok th) {n : Node} (plain : n.Plain)
    (defined : Defined d values n) {k k' : Nat} {l : Lowered}
    (gives : Gives (node (.of options.toNaming d) site n) k l k') :
    Realizes options th values k k' l.prerequisites [l.value] [d.meaning values n] := by
  induction plain generalizing k k' l with
  | @term t leaf =>
    obtain ⟨_, rfl, rfl⟩ := gives_node_term.mp gives
    intro σ below
    refine ⟨σ, rfl, Bindings.Extends.refl σ, below, fun υ _ => ?_⟩
    rw [List.map_singleton, subst_plainTerm, Document.meaning]
  | @app op args plain ih =>
    by_cases access : op.spelling = Expr.accessFunctor
    · rw [access] at gives defined ⊢
      obtain ⟨a, ha, rfl⟩ := gives_node_access.mp gives
      obtain ⟨r, denoted⟩ := Option.isSome_iff_exists.mp (defined _ .here ⟨args, rfl⟩)
      intro σ below
      obtain ⟨_, τ, runs, kept, belowResult, result⟩ := run_access regular plainPrefix lowered
        (fun n _ => runs_target regular plainPrefix lowered n) ha denoted below
      refine ⟨τ, runs, kept, belowResult, fun υ later => ?_⟩
      have bound := later _ _ result
      simp [Logic.Term.subst, bound, Document.meaning, denoted]
    · obtain ⟨_, ls, each, rfl⟩ := (gives_node_apply op.spelling_ne_new access).mp gives
      refine realizes_apply access (realizes_each each fun n member k l k' gives => ?_)
      exact ih n member (fun m within => defined m (.inside member within)) gives

/-- An expression that is no instantiation does what it means. -/
theorem realizes_expr (regular : d.Regular)
    (plainPrefix : Text.isPlainAtom options.objectPrefix.toList = true)
    (lowered : theory options.toNaming d = .ok th) {e : Expr} (form : e.Invokes ∨ e.node.Plain)
    (notNew : e.functor ≠ Expr.newFunctor) (defined : Defined d values e.node) {k k' : Nat}
    {l : Lowered} (gives : Gives (expr (.of options.toNaming d) site e) k l k') :
    Realizes options th values k k' l.prerequisites [l.value] [d.meaning values e.node] := by
  rcases form with invokes | plain
  · obtain ⟨_, ls, each, rfl⟩ := (gives_node_apply notNew invokes.ne_access).mp gives
    refine realizes_apply invokes.ne_access (realizes_each each fun n member k l k' gives => ?_)
    exact realizes_node regular plainPrefix lowered (invokes.args n member)
      (fun m within => defined m (.inside member within)) gives
  · exact realizes_node regular plainPrefix lowered plain defined gives

end Runs

end Lowering

/-- The expressions of rules and tests. -/
def Document.expressions (d : Document) : List Expr :=
  d.rules.values.flatMap Rule.body ++ d.tests.flatMap fun t => t.facts ++ t.body

/-- Every expression of a correct document that is no instantiation can be lowered. -/
theorem Document.Correct.lowers {naming : Naming} {d : Document} (correct : d.Correct naming)
    (regular : d.Regular) {e : Expr} (member : e ∈ d.expressions)
    (notNew : e.functor ≠ Expr.newFunctor) :
    (e.Invokes ∨ e.node.Plain) ∧ Lowering.Lowers naming d e := by
  rcases List.mem_append.mp member with member | member
  · obtain ⟨r, declared, here⟩ := List.mem_flatMap.mp member
    refine ⟨regular.bodies r declared e here, ?_⟩
    exact (Lowering.lowers_iff_bodyCorrect correct.apart).mpr (correct.bodies r declared e here)
  · obtain ⟨t, declared, here⟩ := List.mem_flatMap.mp member
    rcases List.mem_append.mp here with fact | check
    · have invokes : e.Invokes := by
        rcases regular.facts t declared e fact with invokes | ⟨_, _, _, rfl, _⟩
        · exact invokes
        · exact absurd rfl notNew
      have factCorrect := (correct.facts t declared e fact).2 notNew
      refine ⟨.inl invokes, fun new => absurd new notNew, fun _ => ⟨factCorrect.1, fun _ => ?_⟩⟩
      obtain ⟨r, found, arity⟩ := factCorrect.2
      exact (Lowering.arity?_eq_some_iff correct.apart).mpr (.inr ⟨r, found, arity⟩)
    · have invokes := regular.checks t declared e check
      refine ⟨.inl invokes, ?_⟩
      exact ((Lowering.lowers_iff_checkCorrect invokes).mpr (correct.checks t declared e check)).2

theorem Naming.isPlainAtom_of_validate {naming : Naming} (valid : naming.validate = .ok ()) :
    Text.isPlainAtom naming.objectPrefix.toList = true :=
  (Naming.validate_eq_ok_iff.mp valid).1

/-- A program is written as the sentences of its clauses. -/
theorem texts_eq_sentences {o : Options} {p : Program} {th : Lowering.Theory}
    (written : p.clauses = th.clauses.map (·.written o)) :
    p.texts = (th.sentences o).map Logic.Sentence.text := by
  rw [Program.texts, written, List.map_map, Lowering.Theory.sentences, List.map_map]
  refine List.map_congr_left fun c _ => ?_
  exact c.text_sentence.symm

/-- Lowering keeps the meaning of the expressions of a program. From any number on it gives goals
and a term, written as phrases. The goals succeed with the sentences that the program is written as,
and bind their variables, each once and in their order; under these bindings the term is what the
expression means, and is written as what it means. -/
theorem lowering_keeps_meaning {text : String} {o : Options} {d : Document} {p : Program}
    (parsed : Compiler.parse text = .ok d) (valid : o.validate = .ok ())
    (generated : Compiler.generate o d = .ok p) {e : Expr} (member : e ∈ d.expressions)
    (notNew : e.functor ≠ Expr.newFunctor) (values : String → Logic.Term)
    (defined : Lowering.Defined d values e.node) (site : Site) (k : Nat) :
    ∃ th l k' σ, Lowering.theory o.toNaming d = .ok th ∧ p.clauses = th.clauses.map (·.written o) ∧
      p.texts = (th.sentences o).map Logic.Sentence.text ∧
      (Lowering.expr (.of o.toNaming d) site e).run k = .ok (l, k') ∧
      Logic.Goal.texts o l.goals = l.goals.map (fun goal => (goal.phrase o).text) ∧
      Logic.Goal.run o.toNaming (th.sentences o) values [] l.prerequisites = some σ ∧
      σ.map Prod.fst = l.prerequisites.filterMap Logic.Goal.result? ∧ (σ.map Prod.fst).Nodup ∧
      l.value.subst σ = d.meaning values e.node ∧
      (l.value.subst σ).text o = ((d.meaning values e.node).phrase o).text := by
  have regular := regular_of_parse parsed
  obtain ⟨th, lowered, written⟩ := exists_theory_of_generate generated
  have correct := (Lowering.exists_theory_iff regular).mp ⟨th, lowered⟩
  obtain ⟨form, lowers⟩ := correct.lowers regular member notNew
  have accepted : Lowering.Accepts (Lowering.expr (.of o.toNaming d) site e) _ :=
    Lowering.accepts_lowers regular form
  obtain ⟨l, k', gives⟩ := (accepted k).mpr lowers
  have realizes := Lowering.realizes_expr regular (Naming.isPlainAtom_of_validate valid) lowered form
    notNew defined gives
  obtain ⟨σ, runs, _, _, same⟩ := realizes [] (by simp [Logic.Bindings.Below])
  obtain ⟨binds, distinct⟩ := Logic.Goal.run_binds runs List.nodup_nil
  have value := same σ (Logic.Bindings.Extends.refl σ)
  simp only [List.map_cons, List.map_nil, List.cons.injEq, and_true] at value
  have goals : Logic.Goal.texts o l.goals = l.goals.map fun goal => (goal.phrase o).text := by
    rw [← Logic.Goal.texts_phrases, Logic.Goal.phrases_eq, Logic.Phrase.texts_eq, List.map_map]
    rfl
  refine ⟨th, l, k', σ, lowered, written, texts_eq_sentences written, gives, goals, runs,
    by simpa using binds, distinct, value, ?_⟩
  rw [value, Logic.Term.text_phrase]

/-- A field of a field, compared. -/
theorem lowering_keeps_meaning_nested :
    ∃ d p th l k' σ,
      Compiler.parse "object A { x: A, n: int } rule r { input { a: A } rules { a.x.n > 1 } }" =
        .ok d ∧
      Compiler.generate {} d = .ok p ∧
      p.texts = ["o_1_x(Value, Object) :- Object = o_1(Value,_).",
        "o_1_n(Value, Object) :- Object = o_1(_,Value).",
        "r(A) :- o_1_x(V_2, A), o_1_n(V_3, V_2), @>(V_3,1).", "test_cases([])."] ∧
      p.texts = (Lowering.Theory.sentences {} th).map Logic.Sentence.text ∧
      (Lowering.expr (.of {} d) (.rule "r") ⟨">", [.app "." [.app "." [.term (.var "a" (.object "A")),
        .term (.ident "x")], .term (.ident "n")], .term (.int 1)]⟩).run 1 = .ok (l, k') ∧
      Logic.Goal.texts {} l.goals = ["o_1_x(V_2, A)", "o_1_n(V_3, V_2)", "@>(V_3,1)"] ∧
      Logic.Goal.run {} (Lowering.Theory.sentences {} th)
        (fun _ => .construct 1 [.construct 1 [.wildcard, .int 5], .int 0]) [] l.prerequisites = some σ ∧
      l.value.subst σ = .apply (.operator .greater) [.int 5, .int 1] ∧
      (l.value.subst σ).text {} = "@>(5,1)" := by
  let values : String → Logic.Term :=
    fun _ => .construct 1 [.construct 1 [.wildcard, .int 5], .int 0]
  let document := Written.document [.object ⟨"A", [⟨"x", .object "A"⟩, ⟨"n", .int⟩]⟩,
    .rule ⟨"r", [⟨"a", .object "A"⟩], [⟨">", [.app "." [.app "." [.term (.ident "a"),
      .term (.ident "x")], .term (.ident "n")], .term (.int 1)]⟩]⟩]
  have parsed : Compiler.parse
      "object A { x: A, n: int } rule r { input { a: A } rules { a.x.n > 1 } }" = .ok document := by
    decide +kernel
  obtain ⟨p, generated, texts⟩ : ∃ p, Compiler.generate {} document = .ok p ∧
      p.texts = ["o_1_x(Value, Object) :- Object = o_1(Value,_).",
        "o_1_n(Value, Object) :- Object = o_1(_,Value).",
        "r(A) :- o_1_x(V_2, A), o_1_n(V_3, V_2), @>(V_3,1).", "test_cases([])."] :=
    exists_ok_of_map (by decide +kernel)
  let inner : Node := .app "." [.term (.var "a" (.object "A")), .term (.ident "x")]
  let outer : Node := .app "." [inner, .term (.ident "n")]
  have definedInner : Lowering.Defined document values inner := by
    refine Lowering.defined_app (fun _ => by decide +kernel) ?_
    simp [Lowering.defined_term]
  have definedOuter : Lowering.Defined document values outer := by
    refine Lowering.defined_app (fun _ => by decide +kernel) ?_
    simp [Lowering.defined_term, definedInner]
  have defined : Lowering.Defined document values (.app ">" [outer, .term (.int 1)]) := by
    refine Lowering.defined_app (fun same => absurd same (by decide)) ?_
    simp [Lowering.defined_term, definedOuter]
  obtain ⟨th, l, k', σ, _, _, sentences, gives, _, runs, _, _, value, _⟩ :=
    lowering_keeps_meaning parsed (by decide) generated
      (e := ⟨">", [outer, .term (.int 1)]⟩) (by decide +kernel) (by decide) values defined (.rule "r") 1
  obtain ⟨r, lowered, goals⟩ : ∃ r, (Lowering.expr (.of {} document) (.rule "r")
      ⟨">", [outer, .term (.int 1)]⟩).run 1 = .ok r ∧
      Logic.Goal.texts {} r.1.goals = ["o_1_x(V_2, A)", "o_1_n(V_3, V_2)", "@>(V_3,1)"] :=
    exists_ok_of_map (by decide +kernel)
  obtain rfl : r = (l, k') := Except.ok.inj (lowered.symm.trans gives)
  have value : l.value.subst σ = .apply (.operator .greater) [.int 5, .int 1] := value
  refine ⟨document, p, th, l, k', σ, parsed, generated, texts, sentences, gives, goals, runs, value, ?_⟩
  rw [value]
  decide +kernel

end Rulebook
