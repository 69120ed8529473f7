import Rulebook.Proofs.Lowering.Correct

/-!
# Lowering accepts the correct documents

`Accepts x P` says that a lowering `x` succeeds, from any number, exactly if `P` holds. Function by
function, what the lowering accepts is a part of the judgement of correctness; the document of a
text becomes a program exactly if it is correct.
-/

namespace Rulebook.Lowering

variable {α β : Type}

/-- Lowering succeeds exactly under a condition, whatever the numbers given out before. -/
def Accepts (x : Lower α) (P : Prop) : Prop := ∀ k, (∃ a k', Gives x k a k') ↔ P

/-- Several things are accepted if each of them is. -/
theorem exists_each_iff {f : α → Lower β} {P : α → Prop} {as : List α}
    (accepts : ∀ a ∈ as, Accepts (f a) (P a)) (k : Nat) :
    (∃ bs k', Each f k as bs k') ↔ ∀ a ∈ as, P a := by
  induction as generalizing k with
  | nil =>
    constructor
    · intro _
      exact nofun
    · intro _
      exact ⟨[], k, .nil⟩
  | cons a rest ih =>
    rw [List.forall_mem_cons] at accepts ⊢
    constructor
    · intro ⟨bs, k', each⟩
      cases each with
      | cons first each =>
        exact ⟨(accepts.1 k).mp ⟨_, _, first⟩, (ih accepts.2 _).mp ⟨_, _, each⟩⟩
    · intro ⟨here, later⟩
      obtain ⟨b, k₁, first⟩ := (accepts.1 k).mpr here
      obtain ⟨bs, k', each⟩ := (ih accepts.2 k₁).mpr later
      exact ⟨b :: bs, k', .cons first each⟩

variable {naming : Naming} {d : Document} {site : Site}

/-! ## Field accesses -/

theorem fieldName?_eq_some_iff {n : Node} {name : String} :
    fieldName? n = some name ↔ n.Identifies name := by
  constructor
  · intro h
    unfold fieldName? at h
    split at h
    · cases h
      exact .ident
    · cases h
      exact .var
    · cases h
  · intro h
    cases h <;> rfl

/-- Taking a field succeeds if the object has it. -/
theorem exists_project_iff (regular : d.Regular) {t : Target} {field : String} {k : Nat}
    {type : FieldType} :
    (∃ a k', Gives (project (.of naming d) site t field) k a k' ∧ a.type = type) ↔
      ∃ o f, d.objects.find? t.objectName = some o ∧ f ∈ o.fields ∧ f.name = field ∧
        f.type = type := by
  simp only [gives_project]
  constructor
  · intro ⟨a, k', ⟨o, symbol, position, f, found, _, hasField, value, _⟩, typed⟩
    have here := (Object.field?_eq_some_iff (regular.distinct_fields found)).mp hasField
    rw [value] at typed
    exact ⟨o, f, found, List.mem_of_getElem? here.1, here.2, typed⟩
  · intro ⟨o, f, found, member, named, typed⟩
    obtain ⟨symbol, hasSymbol⟩ := regular.exists_symbol found
    obtain ⟨position, here⟩ := List.getElem?_of_mem member
    have hasField := (Object.field?_eq_some_iff (regular.distinct_fields found)).mpr ⟨here, named⟩
    exact ⟨_, _, ⟨o, symbol, position, f, found, hasSymbol, hasField, rfl, rfl⟩, typed⟩

/-- What a field may be taken from: nodes of an object type, whose variable is free. -/
def TargetsCorrect (naming : Naming) (d : Document) (site : Site) (n : Node) : Prop :=
  ∀ object k, (∃ t k', Gives (target (.of naming d) site n) k t k' ∧ t.objectName = object) ↔
    d.Selects n (.object object) ∧ ∀ name, n.Prints name → ¬ naming.Reserved name

/-- A field access succeeds if its target does and has the field. -/
theorem exists_access_iff (regular : d.Regular) {args : List Node} {k : Nat} {type : FieldType}
    (targets : ∀ n ∈ args, TargetsCorrect naming d site n) :
    (∃ a k', Gives (access (.of naming d) site args) k a k' ∧ a.type = type) ↔
      d.Selects (.app Expr.accessFunctor args) type ∧
        ∀ name, (Node.app Expr.accessFunctor args).Prints name → ¬ naming.Reserved name := by
  simp only [gives_access]
  constructor
  · intro ⟨a, k', ⟨left, right, field, t, k₁, whole, named, ht, ha⟩, typed⟩
    subst whole
    have leftCorrect := (targets left (by simp) t.objectName k).mp ⟨t, k₁, ht, rfl⟩
    obtain ⟨o, f, found, member, rfl, rfl⟩ := (exists_project_iff regular).mp ⟨a, k', ha, typed⟩
    constructor
    · exact .field leftCorrect.1 found member (fieldName?_eq_some_iff.mp named)
    · intro name printed
      exact leftCorrect.2 name (Node.prints_access_iff.mp printed)
  · intro ⟨selects, free⟩
    cases selects with
    | @field left right object o f selects found member named =>
      have leftFree : ∀ name, left.Prints name → ¬ naming.Reserved name :=
        fun name printed => free name (.target printed)
      obtain ⟨t, k₁, ht, rfl⟩ := (targets left (by simp) object k).mpr ⟨selects, leftFree⟩
      obtain ⟨a, k', ha, typed⟩ :=
        (exists_project_iff (k := k₁) regular).mpr ⟨o, f, found, member, rfl, rfl⟩
      exact ⟨a, k', ⟨left, right, f.name, t, k₁, rfl, fieldName?_eq_some_iff.mpr named, ht, ha⟩,
        typed⟩

theorem targets_correct (regular : d.Regular) (n : Node) : TargetsCorrect naming d site n := by
  induction n using Node.induction with
  | term t =>
    intro object k
    simp only [gives_target]
    constructor
    · intro ⟨t', k', h, same⟩
      rcases h with ⟨name, object', whole, free, value, _⟩ | ⟨_, _, _, whole, _⟩
      · cases whole
        rw [value] at same
        subst same
        refine ⟨.variable, fun other printed => ?_⟩
        cases printed with
        | leaf h =>
          cases h
          exact free
      · cases whole
    · intro ⟨selects, free⟩
      cases selects
      exact ⟨_, k, .inl ⟨_, _, rfl, free _ (.leaf .var), rfl, rfl⟩, rfl⟩
  | app functor args ih =>
    intro object k
    simp only [gives_target]
    constructor
    · intro ⟨t, k', h, same⟩
      rcases h with ⟨_, _, whole, _⟩ | ⟨args', a, object', whole, ha, typed, value⟩
      · cases whole
      · cases whole
        rw [value] at same
        subst same
        exact (exists_access_iff regular ih).mp ⟨a, k', ha, typed⟩
    · intro h
      have access : functor = Expr.accessFunctor := by
        generalize FieldType.object object = type at h
        cases h.1
        rfl
      subst access
      obtain ⟨a, k', ha, typed⟩ := (exists_access_iff (k := k) regular ih).mpr h
      exact ⟨_, k', .inr ⟨args, a, object, rfl, ha, typed, rfl⟩, rfl⟩

/-! ## Expressions -/

/-- A plain node is accepted if it is correct. -/
theorem accepts_node (regular : d.Regular) {n : Node} (plain : n.Plain) :
    Accepts (node (.of naming d) site n) (n.Correct naming d) := by
  induction plain with
  | term leaf =>
    intro k
    rw [Node.correct_term_iff leaf]
    simp only [gives_node_term]
    constructor
    · intro ⟨_, _, free, _, _⟩
      exact free
    · intro free
      exact ⟨_, k, free, rfl, rfl⟩
  | @app op args plain ih =>
    intro k
    by_cases access : op.spelling = Expr.accessFunctor
    · rw [access, Node.correct_access_iff]
      simp only [gives_node_access]
      have accessed {type : FieldType} :=
        @exists_access_iff naming d site regular args k type fun n _ => targets_correct regular n
      constructor
      · intro ⟨l, k', a, ha, value⟩
        have h := accessed.mp ⟨a, k', ha, rfl⟩
        exact ⟨⟨_, h.1⟩, h.2⟩
      · intro ⟨⟨type, selects⟩, free⟩
        obtain ⟨a, k', ha, _⟩ := accessed.mpr ⟨selects, free⟩
        exact ⟨_, k', a, ha, rfl⟩
    · have spelled := Operator.ofSpelling?_eq_some_iff.mpr (rfl : op.spelling = op.spelling)
      rw [Node.correct_app_iff access, ← exists_each_iff ih k]
      simp only [gives_node_apply op.spelling_ne_new access, spelled, reduceCtorEq, false_implies,
        true_and]
      constructor
      · intro ⟨_, k', ls, each, _⟩
        exact ⟨ls, k', each⟩
      · intro ⟨ls, k', each⟩
        exact ⟨_, k', ls, each, rfl⟩

theorem exists_arguments_iff (regular : d.Regular) {args : List Node} (plain : ∀ n ∈ args, n.Plain)
    (k : Nat) :
    (∃ ls k', Each (node (.of naming d) site) k args ls k') ↔ ∀ n ∈ args, n.Correct naming d :=
  exists_each_iff (fun n member => accepts_node regular (plain n member)) k

/-- An invocation, or a plain node, that is no instantiation. -/
theorem accepts_expr (regular : d.Regular) {e : Expr} (form : e.Invokes ∨ e.node.Plain)
    (notNew : e.functor ≠ Expr.newFunctor) :
    Accepts (expr (.of naming d) site e)
      (e.node.Correct naming d ∧
        (Operator.ofSpelling? e.functor = none → arity? d e.functor = some e.args.length)) := by
  intro k
  rcases form with invokes | plain
  · unfold expr Expr.node
    rw [Node.correct_app_iff invokes.ne_access,
      ← @exists_arguments_iff naming d site regular _ invokes.args k]
    simp only [gives_node_apply notNew invokes.ne_access]
    constructor
    · intro ⟨_, k', arity, ls, each, _⟩
      exact ⟨⟨ls, k', each⟩, arity⟩
    · intro ⟨⟨ls, k', each⟩, arity⟩
      exact ⟨_, k', arity, ls, each, rfl⟩
  · have operator : Operator.ofSpelling? e.functor ≠ none := by
      unfold Expr.node at plain
      generalize e.functor = functor at plain
      cases plain with
      | @app op _ _ =>
        rw [Operator.ofSpelling?_eq_some_iff.mpr (rfl : op.spelling = op.spelling)]
        simp
    rw [expr, accepts_node regular plain k]
    constructor
    · intro correct
      exact ⟨correct, fun none => absurd none operator⟩
    · intro h
      exact h.1

/-! ## Instantiations -/

/-- The assignments of an instantiation that a text writes are to distinct fields. -/
theorem distinct_assigned {e : Expr} (form : e.Invokes ∨ e.Creates) {first : Node}
    {assigned : List (String × Term)}
    (whole : e.args = first :: assigned.map fun a => .term (.field a.1 a.2)) :
    (assigned.map Prod.fst).Nodup := by
  rcases form with invokes | ⟨name, object, assigned', rfl, distinct⟩
  · -- An argument of an invocation is no assignment.
    cases assigned with
    | nil => exact List.nodup_nil
    | cons a rest =>
      have plain := invokes.args (.term (.field a.1 a.2)) (by simp [whole])
      cases plain with
      | term leaf => exact absurd rfl (leaf a.1 a.2)
  · rw [← assigned_inj (List.cons.inj whole).2]
    exact distinct

theorem exists_forall₂_iff {R : α → β → Prop} {as : List α} :
    (∃ bs, List.Forall₂ R as bs) ↔ ∀ a ∈ as, ∃ b, R a b := by
  induction as with
  | nil => simp
  | cons a rest ih =>
    rw [List.forall_mem_cons, ← ih]
    constructor
    · intro ⟨bs, each⟩
      cases each with
      | cons first each => exact ⟨⟨_, first⟩, _, each⟩
    · intro ⟨⟨b, first⟩, bs, each⟩
      exact ⟨b :: bs, .cons first each⟩

theorem find?_assigned_iff {assigned : List (String × Term)}
    (distinct : (assigned.map Prod.fst).Nodup) {a : String × Term} {name : String} :
    assigned.find? (·.1 == name) = some a ↔ a ∈ assigned ∧ a.1 = name := by
  constructor
  · intro found
    exact ⟨List.mem_of_find?_eq_some found, by simpa using List.find?_some found⟩
  · intro ⟨member, named⟩
    have exists_one : (assigned.find? (·.1 == name)).isSome = true := by
      rw [List.find?_isSome]
      exact ⟨a, member, by simpa using named⟩
    obtain ⟨b, found⟩ := Option.isSome_iff_exists.mp exists_one
    have namedThere : b.1 = name := by simpa using List.find?_some found
    rw [found, List.inj_on_of_nodup_map distinct (List.mem_of_find?_eq_some found) member
      (namedThere.trans named.symm)]

/-- Every field has a value exactly if every assignment is admitted. -/
theorem exists_values_iff {fields : List Field} {assigned : List (String × Term)}
    (distinctFields : (fields.map Field.name).Nodup) (distinct : (assigned.map Prod.fst).Nodup) :
    ((∀ a ∈ assigned, ∃ f ∈ fields, f.name = a.1) ∧
      ∃ values, List.Forall₂ (Fills naming assigned) fields values) ↔
    ∀ a ∈ assigned, ∃ f ∈ fields, f.name = a.1 ∧ ∃ v, Admits naming f.type a.2 v := by
  rw [exists_forall₂_iff]
  constructor
  · intro ⟨known, filled⟩ a member
    obtain ⟨f, here, named⟩ := known a member
    have found := (find?_assigned_iff distinct).mpr ⟨member, named.symm⟩
    obtain ⟨v, fills⟩ := filled f here
    cases fills with
    | assigned found' admitted =>
      rw [found] at found'
      cases found'
      exact ⟨f, here, named, v, admitted⟩
    | «open» found' => simp [found] at found'
  · intro admitted
    constructor
    · intro a member
      obtain ⟨f, here, named, _⟩ := admitted a member
      exact ⟨f, here, named⟩
    · intro f here
      cases found : assigned.find? (·.1 == f.name) with
      | none => exact ⟨_, .open found⟩
      | some a =>
        obtain ⟨member, named⟩ := (find?_assigned_iff distinct).mp found
        obtain ⟨f', here', named', v, h⟩ := admitted a member
        have same : f' = f :=
          List.inj_on_of_nodup_map distinctFields here' here (named'.trans named)
        subst same
        exact ⟨v, .assigned found h⟩

/-- An instantiation that a text writes is accepted if it is correct. -/
theorem accepts_instantiate (regular : d.Regular) {e : Expr} (form : e.Invokes ∨ e.Creates) :
    Accepts (instantiate (.of naming d) site e.args) (e.NewCorrect naming d) := by
  intro k
  simp only [gives_instantiate, Object.field?_isSome_iff]
  constructor
  · intro ⟨_, _, name, object, o, symbol, assigned, values, whole, found, _, known, each, free, _, _⟩
    refine ⟨name, object, o, assigned, whole, found, free, ?_⟩
    apply (exists_values_iff (regular.distinct_fields found) (distinct_assigned form whole)).mp
    exact ⟨known, values, each⟩
  · intro ⟨name, object, o, assigned, whole, found, free, admitted⟩
    obtain ⟨symbol, hasSymbol⟩ := regular.exists_symbol found
    obtain ⟨known, values, each⟩ :=
      (exists_values_iff (regular.distinct_fields found) (distinct_assigned form whole)).mpr admitted
    exact ⟨_, k, name, object, o, symbol, assigned, values, whole, found, hasSymbol, known, each, free,
      rfl, rfl⟩

/-- An expression whose functor is that of instantiations. -/
theorem accepts_new (regular : d.Regular) {e : Expr} (form : e.Invokes ∨ e.Creates)
    (new : e.functor = Expr.newFunctor) :
    Accepts (expr (.of naming d) site e) (e.NewCorrect naming d) := by
  intro k
  rw [expr, Expr.node, new]
  simp only [gives_node_new]
  exact accepts_instantiate regular form k

/-! ## Rules and tests -/

/-- With no name both a rule and a relation, a predicate takes what either declares. -/
theorem arity?_eq_some_iff (apart : ∀ name ∈ d.rules.keys, name ∉ d.relations.keys) {name : String}
    {count : Nat} : arity? d name = some count ↔ d.Takes name count := by
  unfold arity? Document.Takes
  cases rule : d.rules.find? name with
  | none => cases relation : d.relations.find? name <;> simp
  | some r =>
    have declared : name ∈ d.rules.keys := Table.contains_iff.mp (by simp [Table.contains, rule])
    have absent : d.relations.find? name = none := by
      cases relation : d.relations.find? name with
      | none => rfl
      | some _ =>
        have both := apart name declared
        exact absurd (Table.contains_iff.mp (by simp [Table.contains, relation])) both
    simp [absent]

/-- Correct up to the arity of a predicate, which is looked up. -/
def Lowers (naming : Naming) (d : Document) (e : Expr) : Prop :=
  (e.functor = Expr.newFunctor → e.NewCorrect naming d) ∧
  (e.functor ≠ Expr.newFunctor → e.node.Correct naming d ∧
    (Operator.ofSpelling? e.functor = none → arity? d e.functor = some e.args.length))

theorem accepts_lowers (regular : d.Regular) {e : Expr} (form : e.Invokes ∨ e.node.Plain) :
    Accepts (expr (.of naming d) site e) (Lowers naming d e) := by
  intro k
  unfold Lowers
  by_cases new : e.functor = Expr.newFunctor
  · have invokes : e.Invokes := form.resolve_right fun plain => Expr.ne_new_of_plain plain new
    rw [accepts_new regular (.inl invokes) new k]
    simp [new]
  · rw [accepts_expr regular form new k]
    simp [new]

theorem lowers_iff_bodyCorrect (apart : ∀ name ∈ d.rules.keys, name ∉ d.relations.keys) {e : Expr} :
    Lowers naming d e ↔ e.BodyCorrect naming d := by
  unfold Lowers Expr.BodyCorrect
  simp only [arity?_eq_some_iff apart]

/-- What a test asks for must be a declared rule, and is then an expression like any other. -/
theorem lowers_iff_checkCorrect {e : Expr} (invokes : e.Invokes) :
    (d.rules.contains e.functor = true ∧ Lowers naming d e) ↔ e.CheckCorrect naming d := by
  have declared : d.rules.contains e.functor = true ↔ ∃ r, d.rules.find? e.functor = some r :=
    Option.isSome_iff_exists
  unfold Lowers Expr.CheckCorrect
  rw [declared]
  constructor
  · intro ⟨⟨r, found⟩, create, other⟩
    refine ⟨r, found, create, fun new => ?_⟩
    have takes := (other new).2 invokes.word
    simp only [arity?, found, Option.some.injEq] at takes
    exact ⟨(other new).1, takes⟩
  · intro ⟨r, found, create, other⟩
    refine ⟨⟨r, found⟩, create, fun new => ⟨(other new).1, fun _ => ?_⟩⟩
    simp only [arity?, found, (other new).2]

theorem accepts_rule (regular : d.Regular) (apart : ∀ name ∈ d.rules.keys, name ∉ d.relations.keys)
    {r : Rule} (forms : ∀ e ∈ r.body, e.Invokes ∨ e.node.Plain) :
    Accepts (rule (.of naming d) r)
      ((∀ t ∈ r.params, ∀ name ∈ t.variable?, ¬ naming.Reserved name) ∧
        ∀ e ∈ r.body, e.BodyCorrect naming d) := by
  intro k
  have body : ∀ e ∈ r.body, Accepts (expr (.of naming d) (.rule r.name) e) (e.BodyCorrect naming d) :=
    fun e member k => by
      rw [← lowers_iff_bodyCorrect apart]
      exact accepts_lowers regular (forms e member) k
  rw [← exists_each_iff body k]
  simp only [gives_rule]
  constructor
  · intro ⟨_, k', free, ls, each, _⟩
    exact ⟨free, ls, k', each⟩
  · intro ⟨free, ls, k', each⟩
    exact ⟨_, k', free, ls, each, rfl⟩

theorem accepts_fact (regular : d.Regular) {e : Expr} (form : e.Invokes ∨ e.Creates) :
    Accepts (fact (.of naming d) site e) (e.FactCorrect naming d) := by
  intro k
  unfold Expr.FactCorrect
  by_cases new : e.functor = Expr.newFunctor
  · simp only [gives_fact_new new, new, true_implies, ne_eq, not_true_eq_false, false_implies,
      and_true]
    rw [← (accepts_new regular form new : Accepts (expr (.of naming d) site e) _) k]
    constructor
    · intro ⟨_, k', l, hl, _⟩
      exact ⟨l, k', hl⟩
    · intro ⟨l, k', hl⟩
      exact ⟨_, k', l, hl, rfl⟩
  · have invokes : e.Invokes := by
      rcases form with invokes | ⟨_, _, _, rfl, _⟩
      · exact invokes
      · exact absurd rfl new
    simp only [gives_fact new, new, false_implies, true_and, ne_eq, not_false_eq_true, true_implies]
    rw [Expr.node, Node.correct_app_iff invokes.ne_access,
      ← @exists_arguments_iff naming d site regular _ invokes.args k]
    constructor
    · intro ⟨_, k', ⟨r, declared, arity⟩, ls, each, _⟩
      exact ⟨⟨ls, k', each⟩, r, declared, arity.symm⟩
    · intro ⟨⟨ls, k', each⟩, r, declared, arity⟩
      exact ⟨_, k', ⟨r, declared, arity.symm⟩, ls, each, rfl⟩

theorem accepts_test (regular : d.Regular) {t : Test} (facts : ∀ e ∈ t.facts, e.Invokes ∨ e.Creates)
    (checks : ∀ e ∈ t.body, e.Invokes) :
    Accepts (test (.of naming d) t)
      ((∀ e ∈ t.facts, e.FactCorrect naming d) ∧ ∀ e ∈ t.body, e.CheckCorrect naming d) := by
  intro k
  have given : ∀ e ∈ t.facts, Accepts (fact (.of naming d) (.test t.name) e) (e.FactCorrect naming d) :=
    fun e member => accepts_fact regular (facts e member)
  -- Whether a rule is declared does not depend on the numbers, so it can go with each expression.
  have asked (k : Nat) :
      ((∀ e ∈ t.body, d.rules.contains e.functor = true) ∧
        ∃ ls k', Each (expr (.of naming d) (.test t.name)) k t.body ls k') ↔
      ∀ e ∈ t.body, e.CheckCorrect naming d := by
    have lowers : ∀ e ∈ t.body, Accepts (expr (.of naming d) (.test t.name) e) (Lowers naming d e) :=
      fun e member => accepts_lowers regular (.inl (checks e member))
    rw [exists_each_iff lowers k, ← forall₂_and]
    refine forall₂_congr fun e member => ?_
    exact lowers_iff_checkCorrect (checks e member)
  rw [← exists_each_iff given k]
  simp only [gives_test]
  constructor
  · intro ⟨_, k', known, fs, k₁, ls, facts, each, _⟩
    exact ⟨⟨fs, k₁, facts⟩, (asked k₁).mp ⟨known, ls, k', each⟩⟩
  · intro ⟨⟨fs, k₁, facts⟩, correct⟩
    obtain ⟨known, ls, k', each⟩ := (asked k₁).mpr correct
    exact ⟨_, k', known, fs, k₁, ls, facts, each, rfl⟩

/-! ## Documents -/

theorem typeFault?_eq_none_iff {type : FieldType} :
    typeFault? d (type, site) = none ↔ d.Knows type := by
  unfold typeFault? Document.Knows
  cases type with
  | object name =>
    simp only [FieldType.object.injEq, forall_eq', ← Table.contains_iff]
    split <;> simp_all
  | int | float | string => simp

theorem nameFault?_eq_none_iff {name : String} :
    nameFault? naming (name, site) = none ↔
      name ∉ reservedPredicates ∧ ¬ naming.Taken name := by
  unfold nameFault?
  rw [← isObjectName_iff]
  by_cases reserved : name ∈ reservedPredicates <;> simp [reserved]

theorem clash?_eq_none_iff :
    clash? d = none ↔ ∀ name ∈ d.rules.keys, name ∉ d.relations.keys := by
  unfold clash?
  simp only [Option.map_eq_none_iff, List.find?_eq_none, Table.contains_iff]

/-- Every type that a parameter names is known. -/
theorem paramTypes_known_iff :
    (∀ use ∈ d.rules.values.flatMap (fun r => r.params.filterMap fun
        | .var _ type => some (type, Site.rule r.name)
        | _ => none), typeFault? d use = none) ↔
      ∀ r ∈ d.rules.values, ∀ name type, .var name type ∈ r.params → d.Knows type := by
  simp only [List.mem_flatMap, List.mem_filterMap]
  constructor
  · intro h r here name type member
    exact typeFault?_eq_none_iff.mp (h _ ⟨r, here, _, member, rfl⟩)
  · intro h use used
    rcases used with ⟨r, here, p, member, same⟩
    cases p <;> cases same
    exact typeFault?_eq_none_iff.mpr (h r here _ _ member)

/-- Every type that a declaration names is known. -/
theorem typeUses_known_iff :
    (∀ use ∈ typeUses d, typeFault? d use = none) ↔
      (∀ o ∈ d.objects.values, ∀ f ∈ o.fields, d.Knows f.type) ∧
      (∀ r ∈ d.relations.values, ∀ f ∈ r.fields, d.Knows f.type) ∧
      ∀ r ∈ d.rules.values, ∀ name type, .var name type ∈ r.params → d.Knows type := by
  have fields {α : Type} (owners : List α) (fields : α → List Field) (site : α → Site) :
      (∀ use ∈ owners.flatMap fun a => (fields a).map fun f => (f.type, site a),
        typeFault? d use = none) ↔ ∀ a ∈ owners, ∀ f ∈ fields a, d.Knows f.type := by
    simp only [List.mem_flatMap, List.mem_map, forall_exists_index, and_imp]
    constructor
    · intro h a here f member
      exact typeFault?_eq_none_iff.mp (h _ a here f member rfl)
    · intro h use a here f member same
      rw [← same, typeFault?_eq_none_iff]
      exact h a here f member
  unfold typeUses
  rw [List.forall_mem_append, List.forall_mem_append, and_assoc]
  exact and_congr (fields _ _ _) (and_congr (fields _ _ _) paramTypes_known_iff)

/-- A document without faults has known types and free and distinct predicates. -/
theorem fault?_eq_none_iff :
    fault? naming d = none ↔
      (∀ use ∈ typeUses d, typeFault? d use = none) ∧
      (∀ name, name ∈ d.rules.keys ∨ name ∈ d.relations.keys →
        name ∉ reservedPredicates ∧ ¬ naming.Taken name) ∧
      ∀ name ∈ d.rules.keys, name ∉ d.relations.keys := by
  have names : (∀ use ∈ predicateNames d, nameFault? naming use = none) ↔
      ∀ name, name ∈ d.rules.keys ∨ name ∈ d.relations.keys →
        name ∉ reservedPredicates ∧ ¬ naming.Taken name := by
    unfold predicateNames
    simp only [List.mem_append, List.mem_map]
    constructor
    · intro h name declared
      rcases declared with rule | relation
      · exact nameFault?_eq_none_iff.mp (h _ (.inl ⟨name, rule, rfl⟩))
      · exact nameFault?_eq_none_iff.mp (h _ (.inr ⟨name, relation, rfl⟩))
    · intro h use used
      rcases used with ⟨name, declared, same⟩ | ⟨name, declared, same⟩
      · rw [← same, nameFault?_eq_none_iff]
        exact h name (.inl declared)
      · rw [← same, nameFault?_eq_none_iff]
        exact h name (.inr declared)
  rw [← names, ← clash?_eq_none_iff]
  unfold fault?
  simp [List.findSome?_eq_none_iff]

/-- A regular document becomes clauses exactly if it is correct. -/
theorem exists_theory_iff (regular : d.Regular) :
    (∃ th, theory naming d = .ok th) ↔ d.Correct naming := by
  have free {r : Rule} (declared : r ∈ d.rules.values) :
      (∀ t ∈ r.params, ∀ name ∈ t.variable?, ¬ naming.Reserved name) ↔
        ∀ name type, .var name type ∈ r.params → ¬ naming.Reserved name := by
    constructor
    · intro h name type member
      exact h _ member name rfl
    · intro h t member name named
      obtain ⟨_, type, rfl⟩ := regular.params r declared t member
      cases named
      exact h name type member
  simp only [theory_eq_ok_iff]
  constructor
  · intro ⟨_, clean, rs, k₁, ts, k₂, ruleClauses, testClauses, _⟩
    obtain ⟨types, names, apart⟩ := fault?_eq_none_iff.mp clean
    obtain ⟨fieldTypes, relationTypes, paramTypes⟩ := typeUses_known_iff.mp types
    have rules := (exists_each_iff
      (fun r here => accepts_rule regular apart (regular.bodies r here)) _).mp ⟨rs, k₁, ruleClauses⟩
    have tests := (exists_each_iff
      (fun t here => accepts_test regular (regular.facts t here) (regular.checks t here)) _).mp
      ⟨ts, k₂, testClauses⟩
    exact ⟨fieldTypes, relationTypes, paramTypes, names, apart,
      fun r here => (free here).mp (rules r here).1, fun r here => (rules r here).2,
      fun t here => (tests t here).1, fun t here => (tests t here).2⟩
  · intro correct
    have clean : fault? naming d = none := fault?_eq_none_iff.mpr
      ⟨typeUses_known_iff.mpr ⟨correct.fieldTypes, correct.relationTypes, correct.paramTypes⟩,
        correct.predicates, correct.apart⟩
    obtain ⟨rs, k₁, ruleClauses⟩ := (exists_each_iff
      (fun r here => accepts_rule regular correct.apart (regular.bodies r here))
      d.objects.values.length).mpr
      fun r here => ⟨(free here).mpr (correct.params r here), correct.bodies r here⟩
    obtain ⟨ts, k₂, testClauses⟩ := (exists_each_iff
      (fun t here => accepts_test regular (regular.facts t here) (regular.checks t here)) k₁).mpr
      fun t here => ⟨correct.facts t here, correct.checks t here⟩
    exact ⟨_, clean, rs, k₁, ts, k₂, ruleClauses, testClauses, rfl⟩

end Rulebook.Lowering

namespace Rulebook

/-- A program is the written clauses of the theory of its document. -/
theorem exists_theory_of_generate {o : Options} {d : Document} {p : Program}
    (generated : Compiler.generate o d = .ok p) :
    ∃ th, Lowering.theory o.toNaming d = .ok th ∧ p.clauses = th.clauses.map (·.written o) := by
  unfold Compiler.generate Program.ofDocument at generated
  cases lowered : Lowering.theory o.toNaming d with
  | error e => simp [lowered, bind, Except.bind, Except.mapError] at generated
  | ok th =>
    simp only [lowered, bind, Except.bind, Except.mapError, pure, Except.pure,
      Except.ok.injEq] at generated
    exact ⟨th, rfl, by rw [← generated]⟩

/-- The document of a text becomes a program exactly if it is correct. -/
theorem generate_ok_iff_correct {text : String} {d : Document} {o : Options}
    (parsed : Compiler.parse text = .ok d) :
    (∃ p, Compiler.generate o d = .ok p) ↔ d.Correct o.toNaming := by
  rw [← Lowering.exists_theory_iff (regular_of_parse parsed)]
  unfold Compiler.generate Program.ofDocument
  cases Lowering.theory o.toNaming d with
  | error e => simp [bind, Except.bind, Except.mapError]
  | ok th => simp [bind, Except.bind, Except.mapError, pure, Except.pure]

/-- A text that compiles has a document and a program. -/
theorem exists_program_of_compile {o : Options} {text : String}
    (compiles : (Compiler.compile o text).isOk = true) :
    ∃ d p, Compiler.parse text = .ok d ∧ Compiler.generate o d = .ok p := by
  unfold Compiler.compile at compiles
  cases parsed : Compiler.parse text with
  | error e => simp [parsed, bind, Except.bind, Except.isOk, Except.toBool] at compiles
  | ok d =>
    rw [parsed] at compiles
    change (Compiler.generate o d).isOk = true at compiles
    cases generated : Compiler.generate o d with
    | error e => simp [generated, Except.isOk, Except.toBool] at compiles
    | ok p => exact ⟨d, p, rfl, generated⟩

/-- A rule that takes a field of a field has a program. -/
theorem exists_program_nested :
    ∃ d p, Compiler.parse "object A { x: A, n: int } rule r { input { a: A } rules { a.x.n > 1 } }" =
      .ok d ∧ Compiler.generate {} d = .ok p :=
  exists_program_of_compile (by decide +kernel)

/-- The document of that rule is correct. -/
theorem correct_of_generate_nested :
    ∃ d, Compiler.parse "object A { x: A, n: int } rule r { input { a: A } rules { a.x.n > 1 } }" =
      .ok d ∧ d.Correct ({} : Options).toNaming := by
  rcases exists_program_nested with ⟨d, p, parsed, generated⟩
  exact ⟨d, parsed, (generate_ok_iff_correct parsed).mp ⟨p, generated⟩⟩

end Rulebook
