import Mathlib.Data.List.Forall2
import Rulebook.Proofs.Lowering.Name

/-!
# What lowering gives

`Gives x k a k'` says that a lowering `x` succeeds from the number `k`: it gives `a` and leaves the
number `k'`. There is one statement for each function of the lowering. It says when the function
succeeds and what it then gives, so that later proofs open no function a second time.
-/

namespace Rulebook.Lowering

variable {α β γ : Type} {k k' : Nat}

/-- Lowering succeeds: it gives a value and leaves a number. -/
def Gives (x : Lower α) (k : Nat) (a : α) (k' : Nat) : Prop := x k = .ok (a, k')

theorem gives_bind {x : Lower α} {f : α → Lower β} {b : β} :
    Gives (x >>= f) k b k' ↔ ∃ a k₁, Gives x k a k₁ ∧ Gives (f a) k₁ b k' := by
  change (x k >>= fun r => f r.1 r.2) = .ok (b, k') ↔ _
  unfold Gives
  cases x k with
  | error e => simp [bind, Except.bind]
  | ok r =>
    constructor
    · intro h
      exact ⟨r.1, r.2, rfl, h⟩
    · intro ⟨a, k₁, same, h⟩
      cases same
      exact h

@[simp] theorem gives_pure {a b : α} : Gives (pure a) k b k' ↔ b = a ∧ k' = k := by
  change Except.ok (a, k) = .ok (b, k') ↔ _
  simp [eq_comm]

@[simp] theorem not_gives_throw {e : SemanticError} {b : α} : ¬ Gives (throw e) k b k' := by
  change ¬ Except.error e = .ok (b, k')
  simp

/-- A step that goes on only if a condition holds. -/
theorem gives_ite {c : Prop} [Decidable c] {x y : Lower α} {a : α} :
    Gives (if c then x else y) k a k' ↔ (c ∧ Gives x k a k') ∨ (¬ c ∧ Gives y k a k') := by
  by_cases h : c <;> simp [h]

/-- A check and what comes after it. -/
theorem gives_unless {refused : Prop} [Decidable refused] {e : SemanticError}
    {next : Unit → Lower α}
    {a : α} :
    Gives (if refused then throw e >>= next else next ()) k a k' ↔
      ¬ refused ∧ Gives (next ()) k a k' := by
  by_cases h : refused
  · simp [h, gives_bind]
  · simp [h]

@[simp] theorem gives_nextIndex {i : Nat} : Gives nextIndex k i k' ↔ i = k + 1 ∧ k' = k + 1 := by
  change Except.ok (k + 1, k + 1) = .ok (i, k') ↔ _
  simp [eq_comm]

/-! ## One after the other -/

/-- What lowering gives for each of several things. -/
inductive Each (f : α → Lower β) : Nat → List α → List β → Nat → Prop
  | nil {k : Nat} : Each f k [] [] k
  | cons {k k₁ k' : Nat} {a : α} {as : List α} {b : β} {bs : List β} :
      Gives (f a) k b k₁ → Each f k₁ as bs k' → Each f k (a :: as) (b :: bs) k'

/-- A function that lowers the things of a list in turn and joins what it gets. -/
theorem gives_each (all : List α → Lower γ) (f : α → Lower β) (join : β → γ → γ) (start : γ)
    (nil : all [] = pure start)
    (cons : ∀ a rest, all (a :: rest) = (do let b ← f a; let c ← all rest; return join b c))
    {as : List α} {c : γ} :
    Gives (all as) k c k' ↔ ∃ bs, Each f k as bs k' ∧ c = bs.foldr join start := by
  induction as generalizing k c with
  | nil =>
    rw [nil, gives_pure]
    constructor
    · intro ⟨value, same⟩
      rw [same]
      exact ⟨[], .nil, value⟩
    · intro ⟨bs, each, value⟩
      cases each
      exact ⟨value, rfl⟩
  | cons a rest ih =>
    simp only [cons, gives_bind, gives_pure]
    constructor
    · intro ⟨b, k₁, first, d, k₂, later, value, same⟩
      subst same
      obtain ⟨bs, each, rfl⟩ := ih.mp later
      exact ⟨b :: bs, .cons first each, value⟩
    · intro ⟨bs, each, value⟩
      cases each with
      | cons first each =>
        exact ⟨_, _, first, _, _, ih.mpr ⟨_, each, rfl⟩, value, rfl⟩

variable {env : Env} {site : Site}

theorem gives_terms {ts : List Term} {vs : List Logic.Term} :
    Gives (terms env site ts) k vs k' ↔ Each (term env site) k ts vs k' := by
  rw [gives_each (terms env site) (term env site) List.cons [] rfl fun _ _ => rfl]
  simp

theorem gives_clausesOf {lower : α → Lower Logic.Clause} {as : List α} {cs : List Logic.Clause} :
    Gives (clausesOf lower as) k cs k' ↔ Each lower k as cs k' := by
  rw [gives_each (clausesOf lower) lower List.cons [] rfl fun _ _ => rfl]
  simp

theorem gives_bodyGoals {es : List Expr} {goals : List Logic.Goal} :
    Gives (bodyGoals env site es) k goals k' ↔
      ∃ ls, Each (expr env site) k es ls k' ∧ goals = ls.flatMap Lowered.goals := by
  rw [gives_each (bodyGoals env site) (expr env site) (fun l goals => l.goals ++ goals) [] rfl
    fun _ _ => rfl]
  simp [List.flatMap_def]

theorem gives_arguments {args : List Node} {r : List Logic.Term × List Logic.Goal} :
    Gives (arguments env site args) k r k' ↔
      ∃ ls, Each (node env site) k args ls k' ∧
        r = (ls.map Lowered.value, ls.flatMap Lowered.prerequisites) := by
  rw [gives_each (arguments env site) (node env site)
    (fun l r => (l.value :: r.1, l.prerequisites ++ r.2)) ([], []) rfl fun _ _ => rfl]
  have joined (ls : List Lowered) :
      ls.foldr (fun l r => (l.value :: r.1, l.prerequisites ++ r.2)) ([], []) =
        (ls.map Lowered.value, ls.flatMap Lowered.prerequisites) := by
    induction ls with
    | nil => rfl
    | cons l rest ih => simp [ih]
  simp only [joined]

theorem gives_facts {es : List Expr} {r : List Logic.Goal × List Logic.Term} :
    Gives (facts env site es) k r k' ↔
      ∃ rs, Each (fact env site) k es rs k' ∧ r = (rs.flatMap Prod.fst, rs.flatMap Prod.snd) := by
  rw [gives_each (facts env site) (fact env site) (fun f r => (f.1 ++ r.1, f.2 ++ r.2)) ([], []) rfl
    fun _ _ => rfl]
  have joined (rs : List (List Logic.Goal × List Logic.Term)) :
      rs.foldr (fun f r => (f.1 ++ r.1, f.2 ++ r.2)) ([], []) =
        (rs.flatMap Prod.fst, rs.flatMap Prod.snd) := by
    induction rs with
    | nil => rfl
    | cons f rest ih => simp [ih]
  simp only [joined]

/-! ## Names and leaves -/

theorem gives_userVariable {name : String} {v : Logic.Var} :
    Gives (userVariable env site name) k v k' ↔
      ¬ env.naming.Reserved name ∧ v = .user name ∧ k' = k := by
  rw [userVariable, gives_ite, isFreshName_iff, gives_pure]
  simp

theorem gives_objectNamed {name : String} {o : Object} :
    Gives (objectNamed env site name) k o k' ↔
      env.document.objects.find? name = some o ∧ k' = k := by
  unfold objectNamed
  cases env.document.objects.find? name with
  | none => simp
  | some object => simp [eq_comm]

theorem gives_symbolOf {name : String} {i : Nat} :
    Gives (symbolOf env site name) k i k' ↔ env.symbols.find? name = some i ∧ k' = k := by
  unfold symbolOf
  cases env.symbols.find? name with
  | none => simp
  | some symbol => simp [eq_comm]

theorem gives_checkArity {name : String} {expected actual : Nat} {u : Unit} :
    Gives (checkArity site name expected actual) k u k' ↔ actual = expected ∧ k' = k := by
  rw [checkArity, gives_ite, gives_pure]
  simp

end Rulebook.Lowering

namespace Rulebook

/-- The name of the variable that a leaf is written as. -/
def Term.variable? : Term → Option String
  | .ident name | .var name _ => some name
  | .field _ value => value.variable?
  | .int _ | .float _ | .string _ => none

namespace Lowering

variable {k k' : Nat} {env : Env} {site : Site}

theorem gives_term {t : Term} {v : Logic.Term} :
    Gives (term env site t) k v k' ↔
      (∀ name ∈ t.variable?, ¬ env.naming.Reserved name) ∧ v = plainTerm t ∧ k' = k := by
  induction t with
  | int | float | string => simp [term, Term.variable?, plainTerm]
  | ident name | var name _ =>
    simp only [term, gives_bind, gives_userVariable, gives_pure, Term.variable?, plainTerm]
    constructor
    · intro h
      rcases h with ⟨_, _, ⟨free, rfl, rfl⟩, rfl, rfl⟩
      exact ⟨by simpa using free, rfl, rfl⟩
    · intro ⟨free, value, same⟩
      exact ⟨_, _, ⟨free name rfl, rfl, rfl⟩, value, same⟩
  | field _ value ih => simpa only [term, Term.variable?, plainTerm] using ih

/-- The values that a field of a type admits, and how they are written. -/
inductive Admits (naming : Naming) : FieldType → Term → Logic.Term → Prop
  | string {text : String} : Admits naming .string (.string text) (.quoted text)
  | name {name : String} : Admits naming .string (.ident name) (.quoted name)
  | int {n : Int64} : Admits naming .int (.int n) (.int n)
  | whole {n : Int64} : Admits naming .float (.int n) (.int n)
  | float {text : String} : Admits naming .float (.float text) (.float text)
  | open {object name : String} : ¬ naming.Reserved name →
      Admits naming (.object object) (.ident name) (.var (.user name))
  | object {object name : String} : ¬ naming.Reserved name →
      Admits naming (.object object) (.var name (.object object)) (.var (.user name))

theorem gives_fieldValue {object : Object} {field : Field} {value : Term} {v : Logic.Term} :
    Gives (fieldValue env site object field value) k v k' ↔
      Admits env.naming field.type value v ∧ k' = k := by
  constructor
  · intro h
    unfold fieldValue at h
    split at h
    case h_1 | h_2 | h_3 | h_4 | h_5 =>
      rename_i type
      obtain ⟨rfl, rfl⟩ := gives_pure.mp h
      rw [type]
      exact ⟨by constructor, rfl⟩
    case h_6 =>
      rename_i type
      simp only [gives_bind, gives_userVariable, gives_pure] at h
      rcases h with ⟨_, _, ⟨free, rfl, rfl⟩, rfl, rfl⟩
      rw [type]
      exact ⟨.open free, rfl⟩
    case h_7 =>
      rename_i type
      simp only [gives_ite, gives_bind, gives_userVariable, gives_pure, not_gives_throw, and_false,
        or_false] at h
      rcases h with ⟨rfl, _, _, ⟨free, rfl, rfl⟩, rfl, rfl⟩
      rw [type]
      exact ⟨.object free, rfl⟩
    case h_8 => exact absurd h not_gives_throw
  · intro ⟨h, same⟩
    subst same
    unfold fieldValue
    generalize field.type = type at h
    cases h with
    | string | name | int | whole | float => exact gives_pure.mpr ⟨rfl, rfl⟩
    | «open» free =>
      simp only [gives_bind, gives_userVariable, gives_pure]
      exact ⟨_, _, ⟨free, rfl, rfl⟩, rfl, rfl⟩
    | object free =>
      simp only [if_pos, gives_bind, gives_userVariable, gives_pure]
      exact ⟨_, _, ⟨free, rfl, rfl⟩, rfl, rfl⟩

/-! ## Field accesses -/

theorem gives_project {t : Target} {field : String} {a : Access} :
    Gives (project env site t field) k a k' ↔
      ∃ object symbol position declared, env.document.objects.find? t.objectName = some object ∧
        env.symbols.find? t.objectName = some symbol ∧
        object.field? field = some (position, declared) ∧
        a = ⟨k + 1, declared.type, t.goals ++ [.access symbol declared.name (k + 1) t.value]⟩ ∧
        k' = k + 1 := by
  simp only [project, gives_bind, gives_objectNamed, gives_symbolOf]
  constructor
  · intro h
    rcases h with ⟨object, _, ⟨hasObject, rfl⟩, symbol, _, ⟨hasSymbol, rfl⟩, h⟩
    cases found : object.field? field with
    | none => simp [found] at h
    | some pair =>
      rcases pair with ⟨position, declared⟩
      simp only [found, gives_bind, gives_nextIndex, gives_pure] at h
      rcases h with ⟨_, _, ⟨rfl, rfl⟩, value, same⟩
      exact ⟨object, symbol, position, declared, hasObject, hasSymbol, found, value, same⟩
  · intro ⟨object, symbol, position, declared, hasObject, hasSymbol, found, value, same⟩
    refine ⟨object, _, ⟨hasObject, rfl⟩, symbol, _, ⟨hasSymbol, rfl⟩, ?_⟩
    simp only [found, gives_bind, gives_nextIndex, gives_pure]
    exact ⟨_, _, ⟨rfl, rfl⟩, value, same⟩

theorem gives_access {args : List Node} {a : Access} :
    Gives (access env site args) k a k' ↔
      ∃ left right field t k₁, args = [left, right] ∧ fieldName? right = some field ∧
        Gives (target env site left) k t k₁ ∧ Gives (project env site t field) k₁ a k' := by
  constructor
  · intro h
    unfold access at h
    split at h
    · rename_i left right
      cases name : fieldName? right with
      | none => simp [name] at h
      | some field =>
        simp only [name, gives_bind] at h
        rcases h with ⟨t, k₁, ht, ha⟩
        exact ⟨left, right, field, t, k₁, rfl, name, ht, ha⟩
    · exact absurd h not_gives_throw
  · intro ⟨left, right, field, t, k₁, whole, name, ht, ha⟩
    subst whole
    simp only [access, name, gives_bind]
    exact ⟨t, k₁, ht, ha⟩

theorem gives_target {n : Node} {t : Target} :
    Gives (target env site n) k t k' ↔
      (∃ name object, n = .term (.var name (.object object)) ∧ ¬ env.naming.Reserved name ∧
        t = ⟨.user name, object, []⟩ ∧ k' = k) ∨
      ∃ args a object, n = .app Expr.accessFunctor args ∧ Gives (access env site args) k a k' ∧
        a.type = .object object ∧ t = ⟨.fresh a.result, object, a.goals⟩ := by
  constructor
  · intro h
    unfold target at h
    split at h
    · rename_i name object
      simp only [gives_bind, gives_userVariable, gives_pure] at h
      rcases h with ⟨_, _, ⟨free, rfl, rfl⟩, value, same⟩
      exact .inl ⟨name, object, rfl, free, value, same⟩
    · exact absurd h not_gives_throw
    · rename_i functor args
      simp only [gives_ite, gives_bind, not_gives_throw, and_false, or_false] at h
      rcases h with ⟨rfl, a, k₁, ha, h⟩
      split at h
      · rename_i object type
        obtain ⟨value, same⟩ := gives_pure.mp h
        subst same
        exact .inr ⟨args, a, object, rfl, ha, type, value⟩
      · exact absurd h not_gives_throw
    · exact absurd h not_gives_throw
  · intro h
    rcases h with ⟨name, object, whole, free, value, same⟩ | ⟨args, a, object, whole, ha, type, value⟩
    · subst whole
      simp only [target, gives_bind, gives_userVariable, gives_pure]
      exact ⟨_, _, ⟨free, rfl, rfl⟩, value, same⟩
    · subst whole
      simp only [target, if_pos, gives_bind]
      refine ⟨a, k', ha, ?_⟩
      simp only [type]
      exact gives_pure.mpr ⟨value, rfl⟩

/-! ## Expressions -/

/-- What an operator or a predicate is applied as. -/
def functorOf (name : String) : Logic.Functor :=
  match Operator.ofSpelling? name with
  | some op => .operator op
  | none => .predicate name

theorem gives_node_term {t : Term} {l : Lowered} :
    Gives (node env site (.term t)) k l k' ↔
      (∀ name ∈ t.variable?, ¬ env.naming.Reserved name) ∧ l = { value := plainTerm t } ∧
        k' = k := by
  simp only [node, gives_bind, gives_term, gives_pure]
  constructor
  · intro h
    rcases h with ⟨_, _, ⟨free, rfl, rfl⟩, value, same⟩
    exact ⟨free, value, same⟩
  · intro ⟨free, value, same⟩
    exact ⟨_, _, ⟨free, rfl, rfl⟩, value, same⟩

theorem gives_node_new {args : List Node} {l : Lowered} :
    Gives (node env site (.app Expr.newFunctor args)) k l k' ↔
      Gives (instantiate env site args) k l k' := by
  rw [node, application, if_pos rfl]

theorem gives_node_access {args : List Node} {l : Lowered} :
    Gives (node env site (.app Expr.accessFunctor args)) k l k' ↔
      ∃ a, Gives (access env site args) k a k' ∧ l = ⟨.var (.fresh a.result), a.goals⟩ := by
  rw [node, application, if_neg (by decide), if_pos rfl]
  simp only [gives_bind, gives_pure]
  constructor
  · intro ⟨a, k₁, ha, value, same⟩
    subst same
    exact ⟨a, ha, value⟩
  · intro ⟨a, ha, value⟩
    exact ⟨a, k', ha, value, rfl⟩

/-- What a field may be taken from is lowered as a variable, like any other node. -/
theorem gives_node_of_target {n : Node} {t : Target}
    (gives : Gives (target env site n) k t k') :
    Gives (node env site n) k ⟨.var t.value, t.goals⟩ k' := by
  rcases gives_target.mp gives with ⟨name, object, rfl, free, rfl, rfl⟩ |
    ⟨args, a, object, rfl, ha, _, rfl⟩
  · refine gives_node_term.mpr ⟨fun x member => ?_, rfl, rfl⟩
    cases member
    exact free
  · exact gives_node_access.mpr ⟨a, ha, rfl⟩

/-- A functor applied to lowered arguments. -/
theorem gives_applied {args : List Node} {l : Lowered} (f : Logic.Functor) :
    Gives (do let (values, goals) ← arguments env site args; return ⟨.apply f values, goals⟩) k l
      k' ↔ ∃ ls, Each (node env site) k args ls k' ∧
        l = ⟨.apply f (ls.map Lowered.value), ls.flatMap Lowered.prerequisites⟩ := by
  simp only [gives_bind, gives_arguments, gives_pure]
  constructor
  · rintro ⟨_, k₁, ⟨ls, each, joined⟩, value, same⟩
    subst joined same
    exact ⟨ls, each, value⟩
  · rintro ⟨ls, each, value⟩
    exact ⟨_, k', ⟨ls, each, rfl⟩, value, rfl⟩

/-- Operators take what they are given; a predicate must be declared with as many arguments. -/
theorem gives_node_apply {functor : String} {args : List Node} {l : Lowered}
    (notNew : functor ≠ Expr.newFunctor) (notAccess : functor ≠ Expr.accessFunctor) :
    Gives (node env site (.app functor args)) k l k' ↔
      (Operator.ofSpelling? functor = none → arity? env.document functor = some args.length) ∧
      ∃ ls, Each (node env site) k args ls k' ∧
        l = ⟨.apply (functorOf functor) (ls.map Lowered.value),
          ls.flatMap Lowered.prerequisites⟩ := by
  rw [node, application, if_neg notNew, if_neg notAccess]
  cases found : Operator.ofSpelling? functor with
  | some op =>
    simp only [gives_applied, functorOf, found, reduceCtorEq, false_implies, true_and]
  | none =>
    cases declared : arity? env.document functor with
    | none => simp
    | some expected =>
      simp only [functorOf, found, Option.some.injEq, true_implies]
      rw [gives_bind]
      simp only [gives_checkArity]
      constructor
      · rintro ⟨_, _, ⟨arity, same⟩, h⟩
        subst same
        exact ⟨arity.symm, (gives_applied _).mp h⟩
      · rintro ⟨arity, h⟩
        exact ⟨(), k, ⟨arity.symm, rfl⟩, (gives_applied _).mpr h⟩

/-! ## Instantiations -/

theorem gives_assignments {object : Object} {args : List Node} {r : List (String × Term)} :
    Gives (assignments site object args) k r k' ↔
      args = r.map (fun a => .term (.field a.1 a.2)) ∧
        (∀ a ∈ r, (object.field? a.1).isSome = true) ∧ k' = k := by
  induction args generalizing r k' with
  | nil =>
    simp only [assignments, gives_pure]
    constructor
    · intro ⟨value, same⟩
      exact ⟨by rw [value, List.map_nil], by simp [value], same⟩
    · intro ⟨whole, _, same⟩
      exact ⟨List.map_eq_nil_iff.mp whole.symm, same⟩
  | cons first rest ih =>
    constructor
    · intro h
      unfold assignments at h
      split at h
      · rename_i none
        cases none
      · rename_i name value _ whole
        cases whole
        dsimp only at h
        rw [gives_unless] at h
        simp only [gives_bind, ih, gives_pure] at h
        rcases h with ⟨known, later, _, ⟨rfl, fields, rfl⟩, rfl, rfl⟩
        refine ⟨rfl, fun a member => ?_, rfl⟩
        rcases List.mem_cons.mp member with here | member
        · rw [here]
          simpa [Option.isSome_iff_ne_none] using known
        · exact fields a member
      · exact absurd h not_gives_throw
    · intro ⟨whole, fields, same⟩
      cases r with
      | nil => cases whole
      | cons a later =>
        cases whole
        have known : ¬ (object.field? a.1).isNone = true := by
          simpa [Option.isSome_iff_ne_none] using fields a List.mem_cons_self
        unfold assignments
        dsimp only
        rw [gives_unless]
        simp only [gives_bind, ih, gives_pure]
        exact ⟨known, later, _, ⟨rfl, fun b member => fields b (List.mem_cons_of_mem _ member), same⟩,
          rfl, rfl⟩

/-- Assignments can be told from the arguments that they are. -/
theorem assigned_inj {assigned assigned' : List (String × Term)}
    (same : assigned.map (fun a => Node.term (.field a.1 a.2)) =
      assigned'.map fun a => Node.term (.field a.1 a.2)) : assigned = assigned' := by
  refine (List.map_inj_right fun a b h => ?_).mp same
  simp only [Node.term.injEq, Term.field.injEq] at h
  exact Prod.ext h.1 h.2

/-- The value of one field: the value assigned to it, or any. -/
inductive Fills (naming : Naming) (assigned : List (String × Term)) (field : Field) :
    Logic.Term → Prop
  | assigned {name : String} {value : Term} {v : Logic.Term} :
      assigned.find? (·.1 == field.name) = some (name, value) → Admits naming field.type value v →
      Fills naming assigned field v
  | open : assigned.find? (·.1 == field.name) = none → Fills naming assigned field .wildcard

theorem gives_fieldValues {object : Object} {assigned : List (String × Term)} {fields : List Field}
    {values : List Logic.Term} :
    Gives (fieldValues env site object assigned fields) k values k' ↔
      List.Forall₂ (Fills env.naming assigned) fields values ∧ k' = k := by
  induction fields generalizing values k k' with
  | nil => simp only [fieldValues, gives_pure, List.forall₂_nil_left_iff]
  | cons field rest ih =>
    cases found : assigned.find? (·.1 == field.name) with
    | none =>
      simp only [fieldValues, found, gives_bind, ih, gives_pure]
      constructor
      · intro h
        rcases h with ⟨_, _, ⟨rfl, rfl⟩, later, _, ⟨each, rfl⟩, rfl, rfl⟩
        exact ⟨.cons (.open found) each, rfl⟩
      · intro ⟨each, same⟩
        cases each with
        | cons first each =>
          cases first with
          | assigned found' _ => simp [found] at found'
          | «open» _ => exact ⟨_, _, ⟨rfl, rfl⟩, _, _, ⟨each, rfl⟩, rfl, same⟩
    | some pair =>
      simp only [fieldValues, found, gives_bind, ih, gives_pure, gives_fieldValue]
      constructor
      · intro h
        rcases h with ⟨_, _, ⟨admitted, rfl⟩, later, _, ⟨each, rfl⟩, rfl, rfl⟩
        exact ⟨.cons (.assigned found admitted) each, rfl⟩
      · intro ⟨each, same⟩
        cases each with
        | cons first each =>
          cases first with
          | assigned found' admitted =>
            rw [found] at found'
            cases found'
            exact ⟨_, _, ⟨admitted, rfl⟩, _, _, ⟨each, rfl⟩, rfl, same⟩
          | «open» found' => simp [found] at found'

theorem gives_instantiate {args : List Node} {l : Lowered} :
    Gives (instantiate env site args) k l k' ↔
      ∃ (name objectName : String) (object : Object) (symbol : Nat) (assigned : List (String × Term))
        (values : List Logic.Term),
        args = .term (.var name (.object objectName)) ::
          assigned.map (fun a => .term (.field a.1 a.2)) ∧
        env.document.objects.find? objectName = some object ∧
        env.symbols.find? objectName = some symbol ∧
        (∀ a ∈ assigned, (object.field? a.1).isSome = true) ∧
        List.Forall₂ (Fills env.naming assigned) object.fields values ∧
        ¬ env.naming.Reserved name ∧
        l = { value := .unify (.user name) (.construct symbol values) } ∧ k' = k := by
  constructor
  · intro h
    unfold instantiate at h
    split at h
    · rename_i name objectName rest
      simp only [gives_bind, gives_objectNamed, gives_symbolOf, gives_assignments, gives_fieldValues,
        gives_userVariable, gives_pure] at h
      rcases h with ⟨object, _, ⟨hasObject, rfl⟩, symbol, _, ⟨hasSymbol, rfl⟩, assigned, _,
        ⟨rfl, known, rfl⟩, values, _, ⟨each, rfl⟩, _, _, ⟨free, rfl, rfl⟩, value, same⟩
      exact ⟨name, objectName, object, symbol, assigned, values, rfl, hasObject, hasSymbol, known,
        each, free, value, same⟩
    · exact absurd h not_gives_throw
  · intro ⟨name, objectName, object, symbol, assigned, values, whole, hasObject, hasSymbol, known,
      each, free, value, same⟩
    subst whole
    simp only [instantiate, gives_bind, gives_objectNamed, gives_symbolOf, gives_assignments,
      gives_fieldValues, gives_userVariable, gives_pure]
    exact ⟨object, _, ⟨hasObject, rfl⟩, symbol, _, ⟨hasSymbol, rfl⟩, assigned, _, ⟨rfl, known, rfl⟩,
      values, _, ⟨each, rfl⟩, _, _, ⟨free, rfl, rfl⟩, value, same⟩

/-! ## Rules and tests -/

/-- Leaves take no numbers. -/
theorem each_term {ts : List Term} {vs : List Logic.Term} :
    Each (term env site) k ts vs k' ↔
      (∀ t ∈ ts, ∀ name ∈ t.variable?, ¬ env.naming.Reserved name) ∧ vs = ts.map plainTerm ∧
        k' = k := by
  induction ts generalizing vs k with
  | nil =>
    constructor
    · intro h
      cases h
      exact ⟨nofun, rfl, rfl⟩
    · intro h
      rcases h with ⟨_, rfl, rfl⟩
      exact .nil
  | cons t ts ih =>
    constructor
    · intro h
      cases h with
      | cons first each =>
        obtain ⟨free, rfl, rfl⟩ := gives_term.mp first
        obtain ⟨later, rfl, rfl⟩ := ih.mp each
        exact ⟨List.forall_mem_cons.mpr ⟨free, later⟩, rfl, rfl⟩
    · intro h
      rcases h with ⟨free, rfl, rfl⟩
      rw [List.forall_mem_cons] at free
      exact .cons (gives_term.mpr ⟨free.1, rfl, rfl⟩) (ih.mpr ⟨free.2, rfl, rfl⟩)

theorem gives_rule {r : Rule} {c : Logic.Clause} :
    Gives (rule env r) k c k' ↔
      (∀ t ∈ r.params, ∀ name ∈ t.variable?, ¬ env.naming.Reserved name) ∧
        ∃ ls, Each (expr env (.rule r.name)) k r.body ls k' ∧
          c = .rule r.name (r.params.map plainTerm) (ls.flatMap Lowered.goals) := by
  simp only [rule, gives_bind, gives_terms, each_term, gives_bodyGoals, gives_pure]
  constructor
  · intro h
    rcases h with ⟨_, _, ⟨free, rfl, rfl⟩, _, _, ⟨ls, each, rfl⟩, value, rfl⟩
    exact ⟨free, ls, each, value⟩
  · intro ⟨free, ls, each, value⟩
    exact ⟨_, _, ⟨free, rfl, rfl⟩, _, _, ⟨ls, each, rfl⟩, value, rfl⟩

theorem gives_fact_new {e : Expr} {r : List Logic.Goal × List Logic.Term}
    (new : e.functor = Expr.newFunctor) :
    Gives (fact env site e) k r k' ↔ ∃ l, Gives (expr env site e) k l k' ∧ r = (l.goals, []) := by
  simp only [fact, if_pos new, gives_bind, gives_pure]
  constructor
  · intro h
    rcases h with ⟨l, _, hl, value, rfl⟩
    exact ⟨l, hl, value⟩
  · intro ⟨l, hl, value⟩
    exact ⟨l, _, hl, value, rfl⟩

theorem gives_fact {e : Expr} {r : List Logic.Goal × List Logic.Term}
    (notNew : e.functor ≠ Expr.newFunctor) :
    Gives (fact env site e) k r k' ↔
      (∃ relation, env.document.relations.find? e.functor = some relation ∧
        e.args.length = relation.arity) ∧
      ∃ ls, Each (node env site) k e.args ls k' ∧
        r = (ls.flatMap Lowered.prerequisites ++
          [.assert (.apply (.predicate e.functor) (ls.map Lowered.value))],
          [.apply (.predicate e.functor) (ls.map Lowered.value)]) := by
  simp only [fact, if_neg notNew]
  cases declared : env.document.relations.find? e.functor with
  | none => simp
  | some relation =>
    simp only [gives_bind, gives_checkArity, gives_arguments, gives_pure, Option.some.injEq,
      exists_eq_left']
    constructor
    · intro h
      rcases h with ⟨_, _, ⟨arity, rfl⟩, _, _, ⟨ls, each, rfl⟩, value, rfl⟩
      exact ⟨arity, ls, each, value⟩
    · intro ⟨arity, ls, each, value⟩
      exact ⟨(), k, ⟨arity, rfl⟩, _, _, ⟨ls, each, rfl⟩, value, rfl⟩

theorem gives_checks {es : List Expr} {goals : List Logic.Goal} :
    Gives (checks env site es) k goals k' ↔
      (∀ e ∈ es, env.document.rules.contains e.functor = true) ∧
        ∃ ls, Each (expr env site) k es ls k' ∧ goals = ls.flatMap Lowered.goals := by
  induction es generalizing k k' goals with
  | nil =>
    simp only [checks, gives_pure]
    constructor
    · intro h
      rcases h with ⟨rfl, rfl⟩
      exact ⟨nofun, [], .nil, rfl⟩
    · intro ⟨_, ls, each, value⟩
      cases each
      exact ⟨value, rfl⟩
  | cons e rest ih =>
    unfold checks
    rw [gives_unless]
    simp only [gives_bind, ih, gives_pure, List.forall_mem_cons]
    constructor
    · intro h
      rcases h with ⟨declared, l, _, hl, _, _, ⟨known, ls, each, rfl⟩, rfl, rfl⟩
      exact ⟨⟨by simpa using declared, known⟩, l :: ls, .cons hl each, by simp⟩
    · intro ⟨⟨declared, known⟩, ls, each, value⟩
      cases each with
      | cons hl each =>
        exact ⟨by simpa using declared, _, _, hl, _, _, ⟨known, _, each, rfl⟩, by simpa using value,
          rfl⟩

theorem gives_test {t : Test} {c : Logic.Clause} :
    Gives (test env t) k c k' ↔
      (∀ e ∈ t.body, env.document.rules.contains e.functor = true) ∧
      ∃ fs k₁ ls, Each (fact env (.test t.name)) k t.facts fs k₁ ∧
        Each (expr env (.test t.name)) k₁ t.body ls k' ∧
        c = .test t.name (fs.flatMap Prod.fst ++
          cleaningUp (ls.flatMap Lowered.goals) (fs.flatMap Prod.snd)) := by
  simp only [test, gives_bind, gives_facts, gives_checks, gives_pure]
  constructor
  · intro h
    rcases h with ⟨_, k₁, ⟨fs, facts, rfl⟩, _, _, ⟨known, ls, each, rfl⟩, value, rfl⟩
    exact ⟨known, fs, k₁, ls, facts, each, value⟩
  · intro ⟨known, fs, k₁, ls, facts, each, value⟩
    exact ⟨_, k₁, ⟨fs, facts, rfl⟩, _, _, ⟨known, ls, each, rfl⟩, value, rfl⟩

/-! ## Documents -/

/-- What lowering the document looks up. -/
def Env.of (naming : Naming) (d : Document) : Env := ⟨d, naming, symbolTable d⟩

/-- A document without faults becomes the clauses of its rules and tests, after the accessors of its
objects and the directives of its relations. -/
theorem theory_eq_ok_iff {naming : Naming} {d : Document} {th : Theory} :
    theory naming d = .ok th ↔
      fault? naming d = none ∧ ∃ rs k₁ ts k₂,
        Each (rule (.of naming d)) d.objects.values.length d.rules.values rs k₁ ∧
        Each (test (.of naming d)) k₁ d.tests ts k₂ ∧
        th = ⟨(numbered d).flatMap accessors ++
          d.relations.values.map (fun r => .directive r.name r.arity) ++ rs ++ ts ++
          [.testCases d.testNames], symbolTable d⟩ := by
  unfold theory
  cases fault? naming d with
  | some e => simp
  | none =>
    simp only [true_and]
    have step {α β : Type} {x : Except SemanticError α} {f : α → Except SemanticError β} {b : β} :
        (x >>= f) = .ok b ↔ ∃ a, x = .ok a ∧ f a = .ok b := by
      cases x <;> simp [bind, Except.bind]
    have run {x : Lower (List Logic.Clause)} {k : Nat} {r : List Logic.Clause × Nat} :
        x.run k = .ok r ↔ Gives x k r.1 r.2 := Iff.rfl
    simp only [step, run, gives_clausesOf]
    constructor
    · intro ⟨r, rules, t, tests, value⟩
      cases value
      exact ⟨r.1, r.2, t.1, t.2, rules, tests, rfl⟩
    · intro ⟨rs, k₁, ts, k₂, rules, tests, value⟩
      exact ⟨(rs, k₁), rules, (ts, k₂), tests, by rw [value]; rfl⟩

end Lowering

end Rulebook
