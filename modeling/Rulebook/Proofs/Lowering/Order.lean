import Rulebook.Proofs.Lowering.Hygiene
import Rulebook.Proofs.Lowering.Meaning
import Rulebook.Proofs.Lowering.Positions

/-!
# The order of field accesses

The field accesses of a document are counted once, expression by expression and in each from left to
right and from the inside out. The accessor goals of the clauses are these accesses in this order: the
number of a fresh variable is the place of its access, and the goals of an expression are those of its
accesses and then its own.
-/

namespace Rulebook

/-! ## Counting accesses -/

namespace Node

mutual

/-- The arguments of the field accesses of a node, from left to right and from the inside out. -/
def accesses : Node → List (List Node)
  | term _ => []
  | app functor args =>
    accessesAll args ++ if functor = Expr.accessFunctor then [args] else []

/-- The field accesses of several nodes. -/
def accessesAll : List Node → List (List Node)
  | [] => []
  | n :: rest => accesses n ++ accessesAll rest

end

@[simp] theorem accessesAll_eq (nodes : List Node) : accessesAll nodes = nodes.flatMap accesses := by
  induction nodes with
  | nil => rfl
  | cons n rest ih => rw [accessesAll, ih, List.flatMap_cons]

@[simp] theorem accesses_term (t : Term) : (term t).accesses = [] := rfl

theorem accesses_app {functor : String} {args : List Node} (other : functor ≠ Expr.accessFunctor) :
    (app functor args).accesses = args.flatMap accesses := by
  rw [accesses, if_neg other, List.append_nil, accessesAll_eq]

/-- What stands right of a dot has no accesses, so those of an access are those of its target and then
the access itself. -/
theorem accesses_access {left right : Node} {field : String} (named : right.Identifies field) :
    (app Expr.accessFunctor [left, right]).accesses = left.accesses ++ [[left, right]] := by
  have leaf : right.accesses = [] := by cases named <;> rfl
  rw [accesses, if_pos rfl, accessesAll_eq, List.flatMap_cons, List.flatMap_singleton, leaf,
    List.append_nil]

end Node

def Expr.accesses (e : Expr) : List (List Node) := e.node.accesses

def Rule.accesses (r : Rule) : List (List Node) := r.body.flatMap Expr.accesses

/-- The field accesses of a test, those of the facts first. -/
def Test.accesses (t : Test) : List (List Node) := (t.facts ++ t.body).flatMap Expr.accesses

/-- The field accesses of a document, those of the rules first. -/
def Document.accesses (d : Document) : List (List Node) := d.expressions.flatMap Expr.accesses

theorem Document.accesses_eq (d : Document) :
    d.accesses = d.rules.values.flatMap Rule.accesses ++ d.tests.flatMap Test.accesses := by
  rw [accesses, expressions, List.flatMap_append, List.flatMap_assoc, List.flatMap_assoc]
  rfl

namespace Logic

namespace Goal

mutual

/-- The accessor goals of a goal in the order in which they are written. -/
def accessors : Goal → List Goal
  | access object field result target => [access object field result target]
  | holds _ | assert _ | retract _ | fail => []
  | choice condition success failure =>
    accessorsAll condition ++ accessorsAll success ++ accessorsAll failure

/-- The accessor goals of several goals. -/
def accessorsAll : List Goal → List Goal
  | [] => []
  | goal :: rest => accessors goal ++ accessorsAll rest

end

@[simp] theorem accessorsAll_eq (goals : List Goal) :
    accessorsAll goals = goals.flatMap accessors := by
  induction goals with
  | nil => rfl
  | cons goal rest ih => rw [accessorsAll, ih, List.flatMap_cons]

/-- The fact that a goal adds. -/
def added? : Goal → Option Term
  | assert fact => some fact
  | holds _ | access _ _ _ _ | retract _ | fail | choice _ _ _ => none

end Goal

/-- The accessor goals of a clause in the order in which they are written. -/
def Clause.accessorGoals : Clause → List Goal
  | rule _ _ body | test _ body => body.flatMap Goal.accessors
  | accessor _ _ _ _ _ | directive _ _ | testCases _ => []

end Logic

namespace Lowering

open Logic (Goal Clause)

/-! ## Goals of accesses -/

/-- The variable that holds the target of an access with a number. The target of a target comes right
before it, so its number is the one before. -/
inductive Holds : Nat → Node → Logic.Var → Prop
  | user {i : Nat} {name : String} {type : FieldType} : Holds i (.term (.var name type)) (.user name)
  | fresh {i : Nat} {args : List Node} : Holds (i + 1) (.app Expr.accessFunctor args) (.fresh i)

/-- The goal of an access with a number: it takes the named field from the variable of the target, with
the accessor of the object that the target is, and introduces the fresh variable of the number. -/
inductive AccessGoal (d : Document) : List Node × Nat → Goal → Prop
  | intro {left right : Node} {owner : String} {object : Object} {symbol i : Nat} {f : Field}
      {target : Logic.Var} : d.Selects left (.object owner) → d.Numbers owner object symbol →
      f ∈ object.fields → right.Identifies f.name → Holds i left target →
      AccessGoal d ([left, right], i) (.access symbol f.name i target)

/-- The goals are those of the accesses, with the numbers after `k`. -/
def AccessGoals (d : Document) (k : Nat) (accesses : List (List Node)) (goals : List Goal) : Prop :=
  List.Forall₂ (AccessGoal d) (accesses.zipIdx (k + 1)) goals

section

variable {naming : Naming} {d : Document} {site : Site} {k k' : Nat}

theorem accessGoals_nil : AccessGoals d k [] [] := .nil

theorem AccessGoals.append {as bs : List (List Node)} {gs hs : List Goal}
    (first : AccessGoals d k as gs) (second : AccessGoals d (k + as.length) bs hs) :
    AccessGoals d k (as ++ bs) (gs ++ hs) := by
  have after : k + 1 + as.length = k + as.length + 1 := by omega
  unfold AccessGoals
  rw [List.zipIdx_append, after]
  exact List.rel_append first second

/-- Goals of accesses are accessor goals. -/
theorem AccessGoals.isAccess {as : List (List Node)} {gs : List Goal} (goals : AccessGoals d k as gs) :
    ∀ g ∈ gs, ∃ symbol field i target, g = .access symbol field i target := by
  unfold AccessGoals at goals
  generalize as.zipIdx (k + 1) = numbered at goals
  induction goals with
  | nil => nofun
  | cons first _ ih =>
    cases first
    exact List.forall_mem_cons.mpr ⟨⟨_, _, _, _, rfl⟩, ih⟩

theorem AccessGoals.accessors_eq {as : List (List Node)} {gs : List Goal}
    (goals : AccessGoals d k as gs) : gs.flatMap Goal.accessors = gs := by
  have each : ∀ g ∈ gs, g.accessors = [g] := by
    intro g member
    obtain ⟨_, _, _, _, rfl⟩ := goals.isAccess g member
    rfl
  rw [List.flatMap_congr each, List.flatMap_singleton']

theorem AccessGoals.added_eq {as : List (List Node)} {gs : List Goal}
    (goals : AccessGoals d k as gs) : gs.filterMap Goal.added? = [] := by
  rw [List.filterMap_eq_nil_iff]
  intro g member
  obtain ⟨_, _, _, _, rfl⟩ := goals.isAccess g member
  rfl

/-! ## One after the other -/

/-- Things in turn, each from the number that the accesses before it leave. -/
inductive InTurn {α β : Type} (accesses : α → List (List Node)) (R : Nat → α → β → Prop) :
    Nat → List α → List β → Prop
  | nil {k : Nat} : InTurn accesses R k [] []
  | cons {k : Nat} {a : α} {as : List α} {b : β} {bs : List β} :
      R k a b → InTurn accesses R (k + (accesses a).length) as bs →
      InTurn accesses R k (a :: as) (b :: bs)

/-- What lowers each thing from its number on lowers all of them in turn. -/
theorem inTurn_of_each {α β γ : Type} {f : α → Lower β} {accesses : α → List (List Node)}
    {R : Nat → α → γ → Prop} (view : β → γ) {as : List α} {bs : List β} (each : Each f k as bs k')
    (step : ∀ a ∈ as, ∀ k b k', Gives (f a) k b k' →
      R k a (view b) ∧ k' = k + (accesses a).length) :
    InTurn accesses R k as (bs.map view) ∧ k' = k + (as.flatMap accesses).length := by
  induction each with
  | nil => exact ⟨.nil, rfl⟩
  | @cons k k₁ k' a as b bs first later ih =>
    rw [List.forall_mem_cons] at step
    obtain ⟨here, count⟩ := step.1 _ _ _ first
    obtain ⟨there, counts⟩ := ih step.2
    subst count
    refine ⟨.cons here there, ?_⟩
    rw [counts, List.flatMap_cons, List.length_append, Nat.add_assoc]

/-- The accesses of things in turn have their goals in turn. -/
theorem InTurn.accessGoals {α β : Type} {accesses : α → List (List Node)}
    {R : Nat → α → β → Prop} {goals : β → List Goal} {as : List α} {bs : List β}
    (inTurn : InTurn accesses R k as bs)
    (step : ∀ k a b, R k a b → AccessGoals d k (accesses a) (goals b)) :
    AccessGoals d k (as.flatMap accesses) (bs.flatMap goals) := by
  induction inTurn with
  | nil => exact accessGoals_nil
  | cons here _ ih =>
    rw [List.flatMap_cons, List.flatMap_cons]
    exact (step _ _ _ here).append ih

/-- The prerequisites of arguments that each have the goals of their own accesses. -/
theorem accessGoals_of_each {args : List Node} {ls : List Lowered} {f : Node → Lower Lowered}
    (each : Each f k args ls k')
    (step : ∀ n ∈ args, ∀ k l k', Gives (f n) k l k' →
      AccessGoals d k n.accesses l.prerequisites ∧ k' = k + n.accesses.length) :
    AccessGoals d k (args.flatMap Node.accesses) (ls.flatMap Lowered.prerequisites) ∧
      k' = k + (args.flatMap Node.accesses).length := by
  have turns : InTurn Node.accesses (fun k n l => AccessGoals d k n.accesses l) k args
      (ls.map Lowered.prerequisites) ∧ _ := inTurn_of_each _ each step
  have goals := turns.1.accessGoals fun _ _ _ goals => goals
  rw [List.flatMap_map] at goals
  exact ⟨goals, turns.2⟩

/-! ## Expressions -/

/-- A field access takes the last number. -/
theorem result_of_access {env : Env} {args : List Node} {a : Access}
    (gives : Gives (access env site args) k a k') : a.result = k' := by
  obtain ⟨_, _, _, _, _, _, _, _, projects⟩ := gives_access.mp gives
  obtain ⟨_, _, _, _, _, _, _, rfl, rfl⟩ := gives_project.mp projects
  rfl

theorem holds_of_target {env : Env} {n : Node} {t : Target}
    (gives : Gives (target env site n) k t k') : Holds (k' + 1) n t.value := by
  rcases gives_target.mp gives with ⟨name, object, rfl, _, rfl, rfl⟩ | ⟨args, a, _, rfl, ha, _, rfl⟩
  · exact .user
  · rw [result_of_access ha]
    exact .fresh

/-- Taking a field of a target adds the goal of the access, with the next number. -/
theorem exists_accessGoal (regular : d.Regular) {left right : Node} {field : String}
    (named : right.Identifies field) {t : Target} {a : Access} {k₁ : Nat}
    (ht : Gives (target (.of naming d) site left) k t k₁)
    (projects : Gives (project (.of naming d) site t field) k₁ a k') :
    ∃ goal, a.goals = t.goals ++ [goal] ∧ k' = k₁ + 1 ∧
      AccessGoal d ([left, right], k₁ + 1) goal := by
  obtain ⟨object, symbol, position, f, found, known, hasField, rfl, rfl⟩ :=
    gives_project.mp projects
  have selects : d.Selects left (.object t.objectName) :=
    ((targets_correct regular left t.objectName k).mp ⟨t, k₁, ht, rfl⟩).1
  have numbers : d.Numbers t.objectName object symbol :=
    regular.numbers found ((regular.symbolTable_find? found).mp known)
  obtain ⟨here, rfl⟩ := (Object.field?_eq_some_iff (regular.distinct_fields found)).mp hasField
  refine ⟨_, rfl, rfl, ?_⟩
  exact .intro selects numbers (List.mem_of_getElem? here) named (holds_of_target ht)

/-- The prerequisites of a node are the goals of its accesses. -/
theorem accessGoals_node (regular : d.Regular) {n : Node} {l : Lowered}
    (gives : Gives (node (.of naming d) site n) k l k') :
    AccessGoals d k n.accesses l.prerequisites ∧ k' = k + n.accesses.length := by
  induction n using Node.induction generalizing k l k' with
  | term t =>
    obtain ⟨_, rfl, rfl⟩ := gives_node_term.mp gives
    exact ⟨accessGoals_nil, rfl⟩
  | app functor args ih =>
    by_cases new : functor = Expr.newFunctor
    · subst new
      obtain ⟨_, _, _, _, assigned, _, rfl, _, _, _, _, _, rfl, rfl⟩ :=
        gives_instantiate.mp (gives_node_new.mp gives)
      -- Only leaves are assigned.
      have none : (assigned.map fun a => Node.term (.field a.1 a.2)).flatMap Node.accesses = [] := by
        simp [List.flatMap_map]
      rw [Node.accesses_app (by decide), List.flatMap_cons, Node.accesses_term, none]
      exact ⟨accessGoals_nil, rfl⟩
    · by_cases accesses : functor = Expr.accessFunctor
      · subst accesses
        obtain ⟨a, ha, rfl⟩ := gives_node_access.mp gives
        obtain ⟨left, right, field, t, k₁, rfl, name, ht, projects⟩ := gives_access.mp ha
        have named := fieldName?_eq_some_iff.mp name
        obtain ⟨before, rfl⟩ := ih left List.mem_cons_self (gives_node_of_target ht)
        obtain ⟨goal, goals, rfl, last⟩ := exists_accessGoal regular named ht projects
        rw [Node.accesses_access named, goals]
        exact ⟨before.append (.cons last .nil), by simp [Nat.add_assoc]⟩
      · obtain ⟨_, ls, each, rfl⟩ := (gives_node_apply new accesses).mp gives
        rw [Node.accesses_app accesses]
        exact accessGoals_of_each each fun n member k l k' => ih n member

/-- The goals of an expression: those of its accesses, and then its own. -/
def Unfolds (d : Document) (final : Logic.Term → Goal) (k : Nat) (e : Expr) (goals : List Goal) :
    Prop :=
  ∃ accesses value, goals = accesses ++ [final value] ∧ AccessGoals d k e.accesses accesses

theorem unfolds_expr (regular : d.Regular) {e : Expr} {l : Lowered}
    (gives : Gives (expr (.of naming d) site e) k l k') :
    Unfolds d .holds k e l.goals ∧ k' = k + e.accesses.length := by
  obtain ⟨goals, count⟩ := accessGoals_node regular gives
  exact ⟨⟨l.prerequisites, l.value, rfl, goals⟩, count⟩

theorem unfolds_body (regular : d.Regular) {es : List Expr} {ls : List Lowered}
    (each : Each (expr (.of naming d) site) k es ls k') :
    InTurn Expr.accesses (Unfolds d .holds) k es (ls.map Lowered.goals) ∧
      k' = k + (es.flatMap Expr.accesses).length :=
  inTurn_of_each Lowered.goals each fun _ _ _ _ _ gives => unfolds_expr regular gives

/-- The goal of a fact: a new value is given to its variable, any other fact is added. -/
def factGoal (e : Expr) : Logic.Term → Goal :=
  if e.functor = Expr.newFunctor then .holds else .assert

theorem unfolds_fact (regular : d.Regular) {e : Expr} (form : e.Invokes ∨ e.Creates)
    {r : List Goal × List Logic.Term} (gives : Gives (fact (.of naming d) site e) k r k') :
    Unfolds d (factGoal e) k e r.1 ∧ k' = k + e.accesses.length := by
  unfold factGoal
  by_cases new : e.functor = Expr.newFunctor
  · rw [if_pos new]
    obtain ⟨l, hl, rfl⟩ := (gives_fact_new new).mp gives
    exact unfolds_expr regular hl
  · rw [if_neg new]
    have invokes : e.Invokes := by
      rcases form with invokes | ⟨_, _, _, rfl, _⟩
      · exact invokes
      · exact absurd rfl new
    obtain ⟨_, ls, each, rfl⟩ := (gives_fact new).mp gives
    obtain ⟨goals, count⟩ := accessGoals_of_each each fun _ _ _ _ _ => accessGoals_node regular
    have same : e.accesses = e.args.flatMap Node.accesses := Node.accesses_app invokes.ne_access
    rw [← same] at goals count
    exact ⟨⟨_, _, rfl, goals⟩, count⟩

/-- The facts that are taken away are those that are added. -/
theorem added_of_fact (regular : d.Regular) {e : Expr} {r : List Goal × List Logic.Term}
    (gives : Gives (fact (.of naming d) site e) k r k') : r.2 = r.1.filterMap Goal.added? := by
  by_cases new : e.functor = Expr.newFunctor
  · obtain ⟨l, hl, rfl⟩ := (gives_fact_new new).mp gives
    rw [Lowered.goals, List.filterMap_append, (accessGoals_node regular hl).1.added_eq]
    rfl
  · obtain ⟨_, ls, each, rfl⟩ := (gives_fact new).mp gives
    obtain ⟨goals, _⟩ := accessGoals_of_each each fun _ _ _ _ _ => accessGoals_node regular
    rw [List.filterMap_append, goals.added_eq]
    rfl

/-- The accessor goals of an expression are those of its accesses. -/
theorem Unfolds.accessGoals {final : Logic.Term → Goal} {e : Expr} {goals : List Goal}
    (unfolds : Unfolds d final k e goals) (plain : ∀ value, (final value).accessors = []) :
    AccessGoals d k e.accesses (goals.flatMap Goal.accessors) := by
  obtain ⟨accesses, value, rfl, accessGoals⟩ := unfolds
  rw [List.flatMap_append, List.flatMap_singleton, plain, List.append_nil, accessGoals.accessors_eq]
  exact accessGoals

theorem accessors_factGoal (e : Expr) (value : Logic.Term) : (factGoal e value).accessors = [] := by
  unfold factGoal
  split <;> rfl

/-! ## Rules and tests -/

/-- The clause of a rule has the goals of its expressions in turn. -/
def UnfoldsRule (d : Document) (k : Nat) (r : Rule) (c : Clause) : Prop :=
  ∃ parts, InTurn Expr.accesses (Unfolds d .holds) k r.body parts ∧
    c = .rule r.name (r.params.map plainTerm) parts.flatten

/-- The clause of a test has the goals of its facts in turn, then those of what it asks for. What is
taken away are the facts that were added. -/
def UnfoldsTest (d : Document) (k : Nat) (t : Test) (c : Clause) : Prop :=
  ∃ facts checks,
    InTurn Expr.accesses (fun k e => Unfolds d (factGoal e) k e) k t.facts facts ∧
    InTurn Expr.accesses (Unfolds d .holds) (k + (t.facts.flatMap Expr.accesses).length) t.body
      checks ∧
    c = .test t.name
      (facts.flatten ++ cleaningUp checks.flatten (facts.flatten.filterMap Goal.added?))

theorem unfoldsRule_of_gives (regular : d.Regular) {r : Rule} {c : Clause}
    (gives : Gives (rule (.of naming d) r) k c k') :
    UnfoldsRule d k r c ∧ k' = k + r.accesses.length := by
  obtain ⟨_, ls, each, rfl⟩ := gives_rule.mp gives
  obtain ⟨body, count⟩ := unfolds_body regular each
  exact ⟨⟨_, body, by rw [List.flatMap_def]⟩, count⟩

theorem unfoldsTest_of_gives (regular : d.Regular) {t : Test} (declared : t ∈ d.tests) {c : Clause}
    (gives : Gives (test (.of naming d) t) k c k') :
    UnfoldsTest d k t c ∧ k' = k + t.accesses.length := by
  obtain ⟨_, fs, k₁, ls, facts, checks, rfl⟩ := gives_test.mp gives
  obtain ⟨given, count⟩ := inTurn_of_each (R := fun k e => Unfolds d (factGoal e) k e) Prod.fst facts
    fun e member _ _ _ => unfolds_fact regular (regular.facts t declared e member)
  subst count
  obtain ⟨asked, count⟩ := unfolds_body regular checks
  have added : fs.flatMap Prod.snd = (fs.map Prod.fst).flatten.filterMap Goal.added? := by
    rw [← List.flatMap_def, List.filterMap_flatMap]
    refine List.flatMap_congr fun r member => ?_
    obtain ⟨e, _, _, _, gives⟩ := facts.exists_of_mem member
    exact added_of_fact regular gives
  refine ⟨⟨_, _, given, asked, ?_⟩, ?_⟩
  · rw [← added, ← List.flatMap_def, ← List.flatMap_def]
  · rw [count, Test.accesses, List.flatMap_append, List.length_append, Nat.add_assoc]

/-- The accessor goals of expressions in turn. -/
theorem InTurn.accessGoals_flatten {final : Expr → Logic.Term → Goal} {es : List Expr}
    {parts : List (List Goal)}
    (inTurn : InTurn Expr.accesses (fun k e => Unfolds d (final e) k e) k es parts)
    (plain : ∀ e value, (final e value).accessors = []) :
    AccessGoals d k (es.flatMap Expr.accesses) (parts.flatten.flatMap Goal.accessors) := by
  rw [← List.flatMap_id, List.flatMap_assoc]
  exact inTurn.accessGoals fun _ e _ part => part.accessGoals (plain e)

theorem accessors_cleaningUp (checks : List Goal) (asserted : List Logic.Term) :
    (cleaningUp checks asserted).flatMap Goal.accessors = checks.flatMap Goal.accessors := by
  cases asserted with
  | nil => rfl
  | cons fact rest => simp [cleaningUp, Goal.accessors, List.flatMap_map]

theorem UnfoldsRule.accessGoals {r : Rule} {c : Clause} (unfolds : UnfoldsRule d k r c) :
    AccessGoals d k r.accesses c.accessorGoals := by
  obtain ⟨parts, body, rfl⟩ := unfolds
  exact body.accessGoals_flatten fun _ _ => rfl

theorem UnfoldsTest.accessGoals {t : Test} {c : Clause} (unfolds : UnfoldsTest d k t c) :
    AccessGoals d k t.accesses c.accessorGoals := by
  obtain ⟨facts, checks, given, asked, rfl⟩ := unfolds
  rw [Clause.accessorGoals, List.flatMap_append, accessors_cleaningUp, Test.accesses,
    List.flatMap_append]
  apply AccessGoals.append
  · exact given.accessGoals_flatten accessors_factGoal
  · exact asked.accessGoals_flatten fun _ _ => rfl

/-! ## Documents -/

/-- The goal is written with the fresh variable of the number first. -/
def Introduces (o : Options) (i : Nat) (goal : Goal) : Prop :=
  ∃ accessor target,
    goal.text o = accessor ++ "(" ++ (o.variablePrefix ++ toString i) ++ ", " ++ target ++ ")"

theorem AccessGoal.introduces {o : Options} {access : List Node × Nat} {goal : Goal}
    (isGoal : AccessGoal d access goal) : Introduces o access.2 goal := by
  cases isGoal
  exact ⟨_, _, rfl⟩

/-- The accessor goals of clauses are the accesses of a document in their order, numbered from the
number of objects on. The goals of each expression stand together, those of its accesses before its
own. -/
structure AccessesInOrder (o : Options) (d : Document) (clauses : List Clause) : Prop where
  numbered : List.Forall₂ (fun access goal => AccessGoal d access goal ∧ Introduces o access.2 goal)
    (d.accesses.zipIdx (d.objects.values.length + 1)) (clauses.flatMap Clause.accessorGoals)
  grouped : ∃ rules tests, clauses.filter Clause.hasBody = rules ++ tests ∧
    InTurn Rule.accesses (UnfoldsRule d) d.objects.values.length d.rules.values rules ∧
    InTurn Test.accesses (UnfoldsTest d)
      (d.objects.values.length + (d.rules.values.flatMap Rule.accesses).length) d.tests tests

theorem accessorGoals_of_not_hasBody (c : Clause) (none : c.hasBody = false) :
    c.accessorGoals = [] := by
  cases c with
  | rule | test => cases none
  | accessor | directive | testCases => rfl

theorem accessesInOrder_of_theory {o : Options} (regular : d.Regular) {th : Theory}
    (lowered : theory o.toNaming d = .ok th) : AccessesInOrder o d th.clauses := by
  obtain ⟨rs, k₁, ts, k₂, rules, tests, clauses⟩ := filter_hasBody_eq lowered
  obtain ⟨first, count⟩ := inTurn_of_each id rules fun _ _ _ _ _ => unfoldsRule_of_gives regular
  subst count
  obtain ⟨second, _⟩ := inTurn_of_each id tests
    fun _ declared _ _ _ => unfoldsTest_of_gives regular declared
  rw [List.map_id] at first second
  constructor
  case numbered =>
    have goals : AccessGoals d d.objects.values.length d.accesses
        (th.clauses.flatMap Clause.accessorGoals) := by
      rw [← flatMap_filter_hasBody accessorGoals_of_not_hasBody, clauses, List.flatMap_append,
        d.accesses_eq]
      apply AccessGoals.append
      · exact first.accessGoals fun _ _ _ => UnfoldsRule.accessGoals
      · exact second.accessGoals fun _ _ _ => UnfoldsTest.accessGoals
    exact goals.imp fun _ _ isGoal => ⟨isGoal, isGoal.introduces⟩
  case grouped => exact ⟨rs, ts, clauses, first, second⟩

end

end Lowering

/-- The field accesses of a program are numbered and written in the order of the document. -/
theorem accesses_in_order {text : String} {o : Options} {d : Document} {p : Program}
    (parsed : Compiler.parse text = .ok d) (generated : Compiler.generate o d = .ok p) :
    ∃ th, Lowering.theory o.toNaming d = .ok th ∧ p.clauses = th.clauses.map (·.written o) ∧
      Lowering.AccessesInOrder o d th.clauses := by
  obtain ⟨th, lowered, written⟩ := exists_theory_of_generate generated
  have inOrder := Lowering.accessesInOrder_of_theory (regular_of_parse parsed) lowered
  exact ⟨th, lowered, written, inOrder⟩

/-- Accesses in a rule, in a fact and in what a test asks for: the numbers go on from one to the
next. -/
theorem accesses_in_order_across :
    ∃ d p th, Compiler.parse ("object A { x: A, n: int } relation q { a: int } " ++
        "rule r { input { a: A } rules { a.x.n > a.n } } " ++
        "test t { facts { c: A { n: 1 }, q(c.n) } rules { r(c.x) } }") = .ok d ∧
      Compiler.generate {} d = .ok p ∧ d.accesses.length = 5 ∧
      (p.clauses.filter fun c => c.kind = .rule "r" ∨ c.kind = .test "t").map (·.text) =
        ["r(A) :- o_1_x(V_2, A), o_1_n(V_3, V_2), o_1_n(V_4, A), @>(V_3,V_4).",
        "test('t') :- C = o_1(_,1), o_1_n(V_5, C), assertz(q(V_5)), " ++
          "(o_1_x(V_6, C), r(V_6) -> retract(q(V_5)) ; retract(q(V_5)), fail)."] ∧
      Lowering.theory ({} : Options).toNaming d = .ok th ∧ p.clauses = th.clauses.map (·.written {}) ∧
      Lowering.AccessesInOrder {} d th.clauses := by
  obtain ⟨d, parsed, answer⟩ : ∃ d, Compiler.parse
      ("object A { x: A, n: int } relation q { a: int } " ++
        "rule r { input { a: A } rules { a.x.n > a.n } } " ++
        "test t { facts { c: A { n: 1 }, q(c.n) } rules { r(c.x) } }") = .ok d ∧
      (d.accesses.length, (Compiler.generate {} d).toOption.map fun p =>
        (p.clauses.filter fun c => c.kind = .rule "r" ∨ c.kind = .test "t").map (·.text)) =
        (5, some
          ["r(A) :- o_1_x(V_2, A), o_1_n(V_3, V_2), o_1_n(V_4, A), @>(V_3,V_4).",
          "test('t') :- C = o_1(_,1), o_1_n(V_5, C), assertz(q(V_5)), " ++
            "(o_1_x(V_6, C), r(V_6) -> retract(q(V_5)) ; retract(q(V_5)), fail)."]) :=
    exists_ok_of_map (by decide +kernel)
  simp only [Prod.mk.injEq] at answer
  obtain ⟨p, generated, texts⟩ := exists_ok_of_map answer.2
  obtain ⟨th, inOrder⟩ := accesses_in_order parsed generated
  exact ⟨d, p, th, parsed, generated, answer.1, texts, inOrder⟩

end Rulebook
