import Mathlib.Data.List.Perm.Basic
import Rulebook.Proofs.Lowering.Symbols
import Rulebook.Proofs.Program.Namespace
import Rulebook.Proofs.Program.Tests

/-!
# The order of objects

Objects are numbered in their order, and clauses hold the numbers in constructors and accessors.
Where the numbers come from a table, other numbers in the table make the same change in all that is
lowered (`Renumbered`): everything else stays, the numbers of fresh variables and the errors too. So
a document with its objects in another order becomes the same clauses with other numbers for the
objects.
-/

namespace Rulebook

namespace Logic

variable (σ : Nat → Nat)

mutual

/-- The term with new numbers for the objects. -/
def Term.rename : Term → Term
  | .var v => .var v
  | .int value => .int value
  | .float text => .float text
  | .quoted text => .quoted text
  | .wildcard => .wildcard
  | .apply functor args => .apply functor (Term.renameAll args)
  | .construct object args => .construct (σ object) (Term.renameAll args)
  | .unify v value => .unify v (Term.rename value)

/-- Several terms with new numbers for the objects. -/
def Term.renameAll : List Term → List Term
  | [] => []
  | t :: rest => Term.rename t :: Term.renameAll rest

end

mutual

/-- The goal with new numbers for the objects. -/
def Goal.rename : Goal → Goal
  | .holds t => .holds (t.rename σ)
  | .access object field result target => .access (σ object) field result target
  | .assert fact => .assert (fact.rename σ)
  | .retract fact => .retract (fact.rename σ)
  | .fail => .fail
  | .choice condition success failure =>
    .choice (Goal.renameAll condition) (Goal.renameAll success) (Goal.renameAll failure)

/-- Several goals with new numbers for the objects. -/
def Goal.renameAll : List Goal → List Goal
  | [] => []
  | goal :: rest => Goal.rename goal :: Goal.renameAll rest

end

/-- The clause with new numbers for the objects. -/
def Clause.rename : Clause → Clause
  | .accessor object owner field position arity => .accessor (σ object) owner field position arity
  | .directive relation arity => .directive relation arity
  | .rule name params body => .rule name (Term.renameAll σ params) (Goal.renameAll σ body)
  | .test name body => .test name (Goal.renameAll σ body)
  | .testCases names => .testCases names

theorem Term.renameAll_eq_map (ts : List Term) : Term.renameAll σ ts = ts.map (Term.rename σ) := by
  induction ts with
  | nil => rfl
  | cons t rest ih => rw [Term.renameAll, ih, List.map_cons]

theorem Goal.renameAll_eq_map (goals : List Goal) :
    Goal.renameAll σ goals = goals.map (Goal.rename σ) := by
  induction goals with
  | nil => rfl
  | cons goal rest ih => rw [Goal.renameAll, ih, List.map_cons]

end Logic

namespace Lowering

open Logic (Goal Clause)

variable (σ : Nat → Nat)

def Lowered.rename (l : Lowered) : Lowered :=
  ⟨l.value.rename σ, l.prerequisites.map (Goal.rename σ)⟩

theorem Lowered.goals_rename (l : Lowered) : (l.rename σ).goals = l.goals.map (Goal.rename σ) := by
  simp [goals, rename, Goal.rename]

def Access.rename (a : Access) : Access := { a with goals := a.goals.map (Goal.rename σ) }

def Target.rename (t : Target) : Target := { t with goals := t.goals.map (Goal.rename σ) }

/-- Two environments that differ in the numbers of the objects only. -/
structure Renumbered (env env' : Env) : Prop where
  naming : env'.naming = env.naming
  objects : ∀ name, env'.document.objects.find? name = env.document.objects.find? name
  relations : env'.document.relations = env.document.relations
  rules : env'.document.rules = env.document.rules
  symbols : ∀ name, env'.symbols.find? name = (env.symbols.find? name).map σ

@[simp] theorem map_throw {α β : Type} (f : α → β) (e : SemanticError) :
    f <$> (throw e : Lower α) = throw e := rfl

section

variable {σ} {env env' : Env} {site : Site}

/-- Arguments are lowered one by one. -/
theorem arguments_rename {args : List Node}
    (each : ∀ n ∈ args, node env' site n = Lowered.rename σ <$> node env site n) :
    arguments env' site args =
      Prod.map (Logic.Term.renameAll σ) (List.map (Goal.rename σ)) <$> arguments env site args := by
  induction args with
  | nil => simp [arguments, Logic.Term.renameAll]
  | cons first rest ih =>
    rw [arguments, arguments, each first List.mem_cons_self,
      ih fun n member => each n (List.mem_cons_of_mem _ member)]
    simp [Lowered.rename, Logic.Term.renameAll]

theorem each_rename {α : Type} {lower lower' : α → Lower Clause} {k k' : Nat} {as : List α}
    {clauses : List Clause} (same : ∀ a, lower' a = Clause.rename σ <$> lower a)
    (each : Each lower k as clauses k') : Each lower' k as (clauses.map (Clause.rename σ)) k' := by
  induction each with
  | nil => exact .nil
  | @cons k k₁ k' a _ c _ first _ ih =>
    refine .cons ?_ ih
    have run : (lower a).run k = .ok (c, k₁) := first
    change (lower' a).run k = .ok (c.rename σ, k₁)
    rw [same, StateT.run_map, run]
    rfl

theorem cleaningUp_rename (checks : List Goal) (asserted : List Logic.Term) :
    cleaningUp (checks.map (Goal.rename σ)) (Logic.Term.renameAll σ asserted) =
      (cleaningUp checks asserted).map (Goal.rename σ) := by
  cases asserted with
  | nil => rfl
  | cons first rest =>
    simp [cleaningUp, Logic.Term.renameAll_eq_map, Goal.renameAll_eq_map, Goal.rename]

end

namespace Renumbered

variable {σ} {env env' : Env} (h : Renumbered σ env env') (site : Site)

include h

/-! ## Terms -/

theorem userVariable (name : String) :
    userVariable env' site name = userVariable env site name := by
  unfold Lowering.userVariable
  rw [h.naming]

theorem objectNamed (name : String) : objectNamed env' site name = objectNamed env site name := by
  unfold Lowering.objectNamed
  rw [h.objects]

theorem symbolOf (name : String) : symbolOf env' site name = σ <$> symbolOf env site name := by
  unfold Lowering.symbolOf
  rw [h.symbols]
  cases env.symbols.find? name <;> simp

theorem term (t : Term) : term env' site t = Logic.Term.rename σ <$> term env site t := by
  induction t with
  | int _ | float _ | string _ => simp [Lowering.term, Logic.Term.rename]
  | ident name => simp [Lowering.term, h.userVariable, Logic.Term.rename]
  | var name type => simp [Lowering.term, h.userVariable, Logic.Term.rename]
  | field name value ih => exact ih

theorem fieldValue (object : Object) (field : Field) (value : Term) :
    fieldValue env' site object field value =
      Logic.Term.rename σ <$> fieldValue env site object field value := by
  unfold Lowering.fieldValue
  simp only [h.userVariable]
  split
  case h_7 => split <;> simp [Logic.Term.rename]
  all_goals simp [Logic.Term.rename]

theorem fieldValues (object : Object) (assigned : List (String × Term)) (fields : List Field) :
    fieldValues env' site object assigned fields =
      Logic.Term.renameAll σ <$> fieldValues env site object assigned fields := by
  induction fields with
  | nil => simp [Lowering.fieldValues, Logic.Term.renameAll]
  | cons field rest ih =>
    unfold Lowering.fieldValues
    rw [ih]
    cases assigned.find? (·.1 == field.name) with
    | none => simp [Logic.Term.renameAll, Logic.Term.rename]
    | some entry => simp [h.fieldValue, Logic.Term.renameAll]

theorem instantiate (args : List Node) :
    instantiate env' site args = Lowered.rename σ <$> instantiate env site args := by
  unfold Lowering.instantiate
  simp only [h.objectNamed, h.symbolOf, h.userVariable, h.fieldValues]
  split
  · simp [Lowered.rename, Logic.Term.rename]
  · simp

theorem project (target : Target) (field : String) :
    project env' site (target.rename σ) field =
      Access.rename σ <$> project env site target field := by
  unfold Lowering.project
  simp only [h.objectNamed, h.symbolOf, Target.rename, map_bind, bind_map_left]
  refine bind_congr fun object => bind_congr fun symbol => ?_
  cases object.field? field with
  | none => rfl
  | some found => simp [Access.rename, Goal.rename]

mutual

theorem access : (args : List Node) →
    access env' site args = Access.rename σ <$> access env site args
  | [left, right] => by
    rw [Lowering.access, Lowering.access, target left]
    cases fieldName? right with
    | none => rfl
    | some field => simp [h.project]
  | [] => rfl
  | [_] => rfl
  | _ :: _ :: _ :: _ => rfl

theorem target : (n : Node) → target env' site n = Target.rename σ <$> target env site n
  | .term (.var name (.object objectName)) => by
    simp [Lowering.target, h.userVariable, Target.rename]
  | .term (.var _ .int) | .term (.var _ .float) | .term (.var _ .string) => rfl
  | .term (.ident _) => rfl
  | .term (.int _) | .term (.float _) | .term (.string _) | .term (.field _ _) => rfl
  | .app functor args => by
    rw [Lowering.target, Lowering.target, access args]
    split
    · simp only [map_bind, bind_map_left]
      refine bind_congr fun inner => ?_
      cases type : inner.type <;> simp [Access.rename, Target.rename, type]
    · rfl

end

/-! ## Expressions -/

theorem arity? (name : String) : arity? env'.document name = arity? env.document name := by
  unfold Lowering.arity?
  rw [h.rules, h.relations]

/-- The values and goals of several arguments with new numbers. -/
theorem application (functor : String) (args : List Node)
    {lowered lowered' : Lower (List Logic.Term × List Goal)}
    (inner : lowered' =
      Prod.map (Logic.Term.renameAll σ) (List.map (Goal.rename σ)) <$> lowered) :
    application env' site functor args lowered' =
      Lowered.rename σ <$> application env site functor args lowered := by
  unfold Lowering.application
  rw [inner, h.instantiate, h.access, h.arity?]
  split
  · rfl
  · split
    · simp [Lowered.rename, Access.rename, Logic.Term.rename]
    · split
      · simp [Lowered.rename, Logic.Term.rename]
      · split
        · rfl
        · simp [Lowered.rename, Logic.Term.rename]

theorem node (n : Node) : node env' site n = Lowered.rename σ <$> node env site n := by
  induction n using Node.induction with
  | term t => simp [Lowering.node, h.term, Lowered.rename]
  | app functor args ih =>
    rw [Lowering.node, Lowering.node]
    exact h.application site functor args (arguments_rename ih)

theorem arguments (args : List Node) : arguments env' site args =
    Prod.map (Logic.Term.renameAll σ) (List.map (Goal.rename σ)) <$> arguments env site args :=
  arguments_rename fun n _ => h.node site n

theorem expr (e : Expr) : expr env' site e = Lowered.rename σ <$> expr env site e :=
  h.node site e.node

/-! ## Rules and tests -/

theorem terms (ts : List Term) :
    terms env' site ts = Logic.Term.renameAll σ <$> terms env site ts := by
  induction ts with
  | nil => simp [Lowering.terms, Logic.Term.renameAll]
  | cons t rest ih =>
    rw [Lowering.terms, Lowering.terms, h.term, ih]
    simp [Logic.Term.renameAll]

theorem bodyGoals (body : List Expr) :
    bodyGoals env' site body = List.map (Goal.rename σ) <$> bodyGoals env site body := by
  induction body with
  | nil => simp [Lowering.bodyGoals]
  | cons e rest ih =>
    rw [Lowering.bodyGoals, Lowering.bodyGoals, h.expr, ih]
    simp [Lowered.goals_rename]

theorem rule (r : Rule) : rule env' r = Clause.rename σ <$> rule env r := by
  unfold Lowering.rule
  simp [h.terms, h.bodyGoals, Clause.rename, Goal.renameAll_eq_map]

theorem fact (e : Expr) : fact env' site e =
    Prod.map (List.map (Goal.rename σ)) (Logic.Term.renameAll σ) <$> fact env site e := by
  unfold Lowering.fact
  rw [h.relations, h.expr, h.arguments]
  split
  · simp [Lowered.goals_rename, Logic.Term.renameAll]
  · split
    · rfl
    · simp [Logic.Term.renameAll, Logic.Term.rename, Goal.rename]

theorem facts (es : List Expr) : facts env' site es =
    Prod.map (List.map (Goal.rename σ)) (Logic.Term.renameAll σ) <$> facts env site es := by
  induction es with
  | nil => simp [Lowering.facts, Logic.Term.renameAll]
  | cons e rest ih =>
    rw [Lowering.facts, Lowering.facts, h.fact, ih]
    simp [Logic.Term.renameAll_eq_map]

theorem checks (es : List Expr) :
    checks env' site es = List.map (Goal.rename σ) <$> checks env site es := by
  induction es with
  | nil => simp [Lowering.checks]
  | cons e rest ih =>
    rw [Lowering.checks, Lowering.checks, h.expr, ih, h.rules]
    split
    · rfl
    · simp [Lowered.goals_rename]

theorem test (t : Test) : test env' t = Clause.rename σ <$> test env t := by
  unfold Lowering.test
  simp [h.facts, h.checks, Clause.rename, Goal.renameAll_eq_map, cleaningUp_rename]

end Renumbered

/-! ## Numbers of objects -/

/-- Where the name with this number, from one on, stands in another list. Other numbers stay. -/
def renumber (names names' : List String) : Nat → Nat
  | 0 => 0
  | i + 1 =>
    match names[i]? with
    | some name => names'.idxOf name + 1
    | none => i + 1

theorem renumber_of_getElem? {names : List String} (names' : List String) {i : Nat} {name : String}
    (here : names[i]? = some name) : renumber names names' (i + 1) = names'.idxOf name + 1 := by
  simp [renumber, here]

theorem renumber_renumber {names names' : List String} (perm : names.Perm names')
    (distinct : names.Nodup) (i : Nat) : renumber names' names (renumber names names' i) = i := by
  cases i with
  | zero => rfl
  | succ i =>
    cases here : names[i]? with
    | none =>
      have beyond : names'[i]? = none := by
        rw [List.getElem?_eq_none_iff, ← perm.length_eq]
        exact List.getElem?_eq_none_iff.mp here
      simp [renumber, here, beyond]
    | some name =>
      have member : name ∈ names' := perm.mem_iff.mp (List.mem_of_getElem? here)
      have there : names'[names'.idxOf name]? = some name := List.getElem?_idxOf member
      rw [renumber_of_getElem? names' here, renumber_of_getElem? names there]
      obtain ⟨inside, rfl⟩ := List.getElem?_eq_some_iff.mp here
      rw [List.Nodup.idxOf_getElem distinct]

/-- Numbers in one list of names and in another. -/
def renumbering {names names' : List String} (perm : names.Perm names') (distinct : names.Nodup) :
    Equiv.Perm Nat where
  toFun := renumber names names'
  invFun := renumber names' names
  left_inv := renumber_renumber perm distinct
  right_inv := renumber_renumber perm.symm (perm.nodup_iff.mp distinct)

end Lowering

/-- Objects are numbered in their order, from one on. -/
theorem Document.Regular.symbol_eq_some_iff {d : Document} (regular : d.Regular) {name : String}
    {i : Nat} : (Lowering.symbolTable d).find? name = some i ↔
      ∃ j, i = j + 1 ∧ d.objects.keys[j]? = some name := by
  have entries :
      (Lowering.numbered d).map (fun p => (p.1.name, p.2)) = d.objects.keys.zipIdx 1 := by
    rw [← regular.map_name_objects, List.zipIdx_map, Lowering.numbered]
    rfl
  have distinct : ((d.objects.keys.zipIdx 1).map Prod.fst).Nodup := by
    rw [List.zipIdx_map_fst]
    exact d.objects.distinct
  unfold Lowering.symbolTable
  rw [entries, Table.find?_ofList_eq_some_iff distinct,
    List.mem_zipIdx_iff_le_and_getElem?_sub]
  constructor
  · rintro ⟨positive, here⟩
    exact ⟨i - 1, by omega, here⟩
  · rintro ⟨j, rfl, here⟩
    exact ⟨by omega, here⟩

/-- Values that stand under their own names name the keys. -/
theorem Table.map_values_eq_keys {α : Type} {t : Table α} {name : α → String}
    (named : ∀ entry ∈ t.entries, entry.1 = name entry.2) : t.values.map name = t.keys := by
  unfold Table.values Table.keys
  rw [List.map_map]
  exact List.map_congr_left fun entry member => (named entry member).symm

/-- An object is found under its own name. -/
theorem Document.Regular.find?_of_mem {d : Document} (regular : d.Regular) {o : Object}
    (declared : o ∈ d.objects.values) : d.objects.find? o.name = some o := by
  obtain ⟨entry, here, rfl⟩ := List.mem_map.mp declared
  rw [Table.find?_eq_some_iff, ← regular.objects entry here]
  exact here

/-- The same document with its objects in another order. -/
structure Document.Reordered (d d' : Document) : Prop where
  objects : d.objects.entries.Perm d'.objects.entries
  relations : d'.relations = d.relations
  rules : d'.rules = d.rules
  tests : d'.tests = d.tests

namespace Document.Reordered

variable {d d' : Document} {naming : Naming}

instance : Decidable (d.Reordered d') :=
  decidable_of_iff (d.objects.entries.Perm d'.objects.entries ∧ d'.relations = d.relations ∧
      d'.rules = d.rules ∧ d'.tests = d.tests)
    ⟨fun ⟨objects, relations, rules, tests⟩ => ⟨objects, relations, rules, tests⟩,
      fun h => ⟨h.objects, h.relations, h.rules, h.tests⟩⟩

theorem symm (h : d.Reordered d') : d'.Reordered d :=
  ⟨h.objects.symm, h.relations.symm, h.rules.symm, h.tests.symm⟩

theorem keys (h : d.Reordered d') : d.objects.keys.Perm d'.objects.keys := h.objects.map Prod.fst

theorem values (h : d.Reordered d') : d.objects.values.Perm d'.objects.values :=
  h.objects.map Prod.snd

theorem find?_eq (h : d.Reordered d') (name : String) :
    d'.objects.find? name = d.objects.find? name := by
  ext o
  rw [Table.find?_eq_some_iff, Table.find?_eq_some_iff, h.objects.mem_iff]

theorem contains_eq (h : d.Reordered d') (name : String) :
    d'.objects.contains name = d.objects.contains name := by
  rw [Table.contains, Table.contains, h.find?_eq]

theorem regular (h : d.Reordered d') (regular : d.Regular) : d'.Regular where
  objects entry member := regular.objects entry (h.objects.mem_iff.mpr member)
  fields o member := regular.fields o (h.values.mem_iff.mpr member)
  relations := h.relations ▸ regular.relations
  rules := h.rules ▸ regular.rules
  params := h.rules ▸ regular.params
  bodies := h.rules ▸ regular.bodies
  facts := h.tests ▸ regular.facts
  checks := h.tests ▸ regular.checks

/-- How the numbers of the objects change. -/
def numbers (h : d.Reordered d') : Equiv.Perm Nat := Lowering.renumbering h.keys d.objects.distinct

theorem numbers_eq (h : d.Reordered d') {i : Nat} {name : String}
    (here : d.objects.keys[i]? = some name) :
    h.numbers (i + 1) = d'.objects.keys.idxOf name + 1 :=
  Lowering.renumber_of_getElem? _ here

theorem symbols (h : d.Reordered d') (regular : d.Regular) (name : String) :
    (Lowering.symbolTable d').find? name =
      ((Lowering.symbolTable d).find? name).map h.numbers := by
  ext i
  rw [(h.regular regular).symbol_eq_some_iff, Option.map_eq_some_iff]
  simp only [regular.symbol_eq_some_iff]
  constructor
  · rintro ⟨j, rfl, there⟩
    have member : name ∈ d.objects.keys := h.keys.mem_iff.mpr (List.mem_of_getElem? there)
    have here : d.objects.keys[d.objects.keys.idxOf name]? = some name := List.getElem?_idxOf member
    refine ⟨_, ⟨_, rfl, here⟩, ?_⟩
    have distinct : d'.objects.keys.Nodup := d'.objects.distinct
    obtain ⟨inside, same⟩ := List.getElem?_eq_some_iff.mp there
    rw [h.numbers_eq here, ← same, distinct.idxOf_getElem]
  · rintro ⟨_, ⟨j, rfl, here⟩, rfl⟩
    have member : name ∈ d'.objects.keys := h.keys.mem_iff.mp (List.mem_of_getElem? here)
    exact ⟨_, h.numbers_eq here, List.getElem?_idxOf member⟩

theorem renumbered (h : d.Reordered d') (regular : d.Regular) (naming : Naming) :
    Lowering.Renumbered h.numbers (.of naming d) (.of naming d') where
  naming := rfl
  objects := h.find?_eq
  relations := h.relations
  rules := h.rules
  symbols := h.symbols regular

/-- The order of the objects does not matter for the checks of the whole document. -/
theorem fault? (h : d.Reordered d') (clean : Lowering.fault? naming d = none) :
    Lowering.fault? naming d' = none := by
  -- Another order may show another fault first, but there is one or there is none.
  rw [Lowering.fault?_eq_none_iff] at clean ⊢
  rw [h.rules, h.relations]
  refine ⟨fun use used => ?_, clean.2⟩
  have same : Lowering.typeFault? d' use = Lowering.typeFault? d use := by
    unfold Lowering.typeFault?
    simp only [h.contains_eq]
  have before : use ∈ Lowering.typeUses d := by
    unfold Lowering.typeUses at used ⊢
    rw [h.relations, h.rules] at used
    simp only [List.mem_append, List.mem_flatMap, ← h.values.mem_iff] at used ⊢
    exact used
  rw [same]
  exact clean.1 use before

end Document.Reordered

namespace Lowering

open Logic (Clause)

variable {naming : Naming} {d d' : Document}

/-- The accessors of the object of this name. -/
def accessorsOf (d : Document) (name : String) : List Clause :=
  match d.objects.find? name, (symbolTable d).find? name with
  | some o, some i => accessors (o, i)
  | _, _ => []

/-- Accessors stand in groups, in the order of the objects. -/
theorem flatMap_accessors (regular : d.Regular) :
    (numbered d).flatMap accessors = d.objects.keys.flatMap (accessorsOf d) := by
  rw [← regular.map_name_numbered, List.flatMap_map]
  refine List.flatMap_congr fun p member => ?_
  have found := regular.find?_of_mem (List.fst_mem_of_mem_zipIdx member)
  rw [accessorsOf, found, (regular.symbolTable_find? found).mpr member]

theorem accessorsOf_reordered (h : d.Reordered d') (regular : d.Regular) (name : String) :
    accessorsOf d' name = (accessorsOf d name).map (Clause.rename h.numbers) := by
  unfold accessorsOf
  rw [h.find?_eq, h.symbols regular]
  cases d.objects.find? name with
  | none => rfl
  | some o =>
    cases (symbolTable d).find? name with
    | none => rfl
    | some i => simp [accessors, Clause.rename]

/-- An object has an accessor for each field. -/
theorem map_kind_accessors (o : Object) (i : Nat) :
    (accessors (o, i)).map Clause.kind = o.fields.map fun f => .accessor o.name f.name := by
  calc (accessors (o, i)).map Clause.kind
      = (o.fields.zipIdx.map Prod.fst).map fun f => .accessor o.name f.name := by
        rw [accessors, List.map_map, List.map_map]
        rfl
    _ = o.fields.map fun f => .accessor o.name f.name := by rw [List.zipIdx_map_fst]

theorem kinds_accessorsOf (regular : d.Regular) {o : Object} (declared : o ∈ d.objects.values) :
    (accessorsOf d o.name).map Clause.kind = o.fields.map fun f => .accessor o.name f.name := by
  have found := regular.find?_of_mem declared
  obtain ⟨i, number⟩ := regular.exists_symbol found
  rw [accessorsOf, found, number]
  exact map_kind_accessors o i

theorem Each.map_kind {α : Type} {lower : α → Lower Clause} {kind : α → ClauseKind} {k k' : Nat}
    {as : List α} {clauses : List Clause} (each : Each lower k as clauses k')
    (known : ∀ a k c k', Gives (lower a) k c k' → c.kind = kind a) :
    clauses.map Clause.kind = as.map kind := by
  induction each with
  | nil => rfl
  | cons first _ ih => rw [List.map_cons, List.map_cons, known _ _ _ _ first, ih]

theorem map_kind_rules (regular : d.Regular) {env : Env} {k k' : Nat} {clauses : List Clause}
    (rules : Each (rule env) k d.rules.values clauses k') :
    clauses.map Clause.kind = d.rules.keys.map .rule := by
  rw [← Table.map_values_eq_keys regular.rules, List.map_map]
  refine rules.map_kind fun r k c k' gives => ?_
  obtain ⟨_, _, _, rfl⟩ := gives_rule.mp gives
  rfl

theorem map_kind_tests {env : Env} {k k' : Nat} {clauses : List Clause}
    (tests : Each (test env) k d.tests clauses k') :
    clauses.map Clause.kind = d.testNames.map .test := by
  rw [Document.testNames, List.map_map]
  refine tests.map_kind fun t k c k' gives => ?_
  obtain ⟨_, _, _, _, _, _, rfl⟩ := gives_test.mp gives
  rfl

/-- The second clauses are the first with new numbers for the objects. Accessors come first, object
by object, in the order that the objects have in each document; then come directives, rules, tests
and the list of tests. -/
def Regroups (σ : Nat → Nat) (d d' : Document) (clauses clauses' : List Clause) : Prop :=
  ∃ (accessors : String → List Clause) (others : List Clause),
    (∀ o ∈ d.objects.values,
      (accessors o.name).map Clause.kind = o.fields.map fun f => .accessor o.name f.name) ∧
    others.map Clause.kind = d.relations.keys.map .directive ++ d.rules.keys.map .rule ++
      d.testNames.map .test ++ [.testCases] ∧
    clauses = d.objects.keys.flatMap accessors ++ others ∧
    clauses' = (d'.objects.keys.flatMap accessors ++ others).map (Clause.rename σ)

theorem theory_reordered (h : d.Reordered d') (regular : d.Regular) {th : Theory}
    (lowered : theory naming d = .ok th) :
    ∃ th', theory naming d' = .ok th' ∧ Regroups h.numbers d d' th.clauses th'.clauses := by
  obtain ⟨clean, rs, k₁, ts, k₂, rules, tests, rfl⟩ := theory_eq_ok_iff.mp lowered
  have renumbered := h.renumbered regular naming
  have rules' := each_rename renumbered.rule rules
  have tests' := each_rename renumbered.test tests
  -- As many objects are counted before the first fresh variable, so its number stays.
  rw [h.values.length_eq, ← h.rules] at rules'
  rw [← h.tests] at tests'
  refine ⟨_, theory_eq_ok_iff.mpr ⟨h.fault? clean, _, _, _, _, rules', tests', rfl⟩,
    accessorsOf d, d.relations.values.map (fun r => .directive r.name r.arity) ++ rs ++ ts ++
      [.testCases d.testNames], fun o declared => kinds_accessorsOf regular declared, ?_, ?_, ?_⟩
  · simp [map_kind_rules regular rules, map_kind_tests tests,
      ← Table.map_values_eq_keys regular.relations, Clause.kind]
  · simp [flatMap_accessors regular]
  · have groups : d'.objects.keys.flatMap (accessorsOf d') =
        (d'.objects.keys.flatMap (accessorsOf d)).map (Clause.rename h.numbers) := by
      rw [List.map_flatMap]
      exact List.flatMap_congr fun name _ => accessorsOf_reordered h regular name
    rw [flatMap_accessors (h.regular regular), groups, h.relations, Document.testNames, h.tests]
    simp [Clause.rename, Document.testNames]

end Lowering

/-- A document has a program exactly if it can be lowered. -/
theorem exists_generate_iff {o : Options} {d : Document} :
    (∃ p, Compiler.generate o d = .ok p) ↔ ∃ th, Lowering.theory o.toNaming d = .ok th := by
  unfold Compiler.generate Program.ofDocument
  cases Lowering.theory o.toNaming d with
  | error e => simp [bind, Except.bind, Except.mapError]
  | ok th => simp [bind, Except.bind, Except.mapError, pure, Except.pure]

/-- The number of an object, before and after, shows in its name. -/
theorem Document.Reordered.symbol? {o : Options} {d d' : Document} {p p' : Program}
    (h : d.Reordered d') (regular : d.Regular) (generated : Compiler.generate o d = .ok p)
    (generated' : Compiler.generate o d' = .ok p') {name : String}
    (declared : name ∈ d.objects.keys) :
    ∃ i, p.symbol? name = some (o.toNaming.object i) ∧
      p'.symbol? name = some (o.toNaming.object (h.numbers i)) := by
  have regular' := h.regular regular
  obtain ⟨object, found⟩ := Option.isSome_iff_exists.mp (Table.contains_iff.mpr declared)
  have found' := (h.find?_eq name).trans found
  obtain ⟨i, number⟩ := regular.exists_symbol found
  have number' : (Lowering.symbolTable d').find? name = some (h.numbers i) := by
    rw [h.symbols regular, number]
    rfl
  refine ⟨i, (symbol?_eq_some_iff regular generated).mpr ?_,
    (symbol?_eq_some_iff regular' generated').mpr ?_⟩
  · exact ⟨object, i, (regular.symbolTable_find? found).mp number, regular.object_name found, rfl⟩
  · exact ⟨object, _, (regular'.symbolTable_find? found').mp number', regular'.object_name found',
      rfl⟩

/-- The order of the objects matters for their numbers only. If the objects of a parsed document are
put in another order, there is a program for the one document exactly if there is one for the other.
Then the second program is the first with new numbers for the objects, wherever a constructor or an
accessor is written, and with the accessors in the new order of the objects. -/
theorem object_order_renames {text : String} {o : Options} {d d' : Document}
    (parsed : Compiler.parse text = .ok d) (reordered : d.Reordered d') :
    ((∃ p, Compiler.generate o d = .ok p) ↔ ∃ p', Compiler.generate o d' = .ok p') ∧
    ∀ p p', Compiler.generate o d = .ok p → Compiler.generate o d' = .ok p' →
      ∃ (σ : Equiv.Perm Nat) (th th' : Lowering.Theory),
        Lowering.theory o.toNaming d = .ok th ∧ Lowering.theory o.toNaming d' = .ok th' ∧
        p.clauses = th.clauses.map (·.written o) ∧ p'.clauses = th'.clauses.map (·.written o) ∧
        Lowering.Regroups σ d d' th.clauses th'.clauses ∧
        (∀ name ∈ d.objects.keys, ∃ i, p.symbol? name = some (o.toNaming.object i) ∧
          p'.symbol? name = some (o.toNaming.object (σ i))) ∧
        p'.testNames = p.testNames := by
  have regular := regular_of_parse parsed
  have regular' := reordered.regular regular
  constructor
  · rw [exists_generate_iff, exists_generate_iff]
    constructor
    · intro ⟨th, lowered⟩
      obtain ⟨th', lowered', _⟩ := Lowering.theory_reordered reordered regular lowered
      exact ⟨th', lowered'⟩
    · intro ⟨th', lowered'⟩
      obtain ⟨th, lowered, _⟩ := Lowering.theory_reordered reordered.symm regular' lowered'
      exact ⟨th, lowered⟩
  · intro p p' generated generated'
    obtain ⟨th, lowered, clauses⟩ := exists_theory_of_generate generated
    obtain ⟨th', lowered', clauses'⟩ := exists_theory_of_generate generated'
    obtain ⟨_, same, regroups⟩ := Lowering.theory_reordered reordered regular lowered
    cases same.symm.trans lowered'
    refine ⟨reordered.numbers, th, th', lowered, lowered', clauses, clauses', regroups,
      fun name declared => reordered.symbol? regular generated generated' declared, ?_⟩
    rw [testNames_of_generate generated, testNames_of_generate generated', Document.testNames,
      reordered.tests]
    rfl

/-- Two objects in one order and in the other. -/
theorem object_order_renames_swapped :
    ∃ d d' p p', Compiler.parse
        "object A { b: B } object B { n: int } rule r { input { a: A } rules { a.b.n > 1 } }" =
        .ok d ∧
      d.Reordered d' ∧ Compiler.generate {} d = .ok p ∧ Compiler.generate {} d' = .ok p' ∧
      p.ruleClause? "r" = some "r(A) :- o_1_b(V_3, A), o_2_n(V_4, V_3), @>(V_4,1)." ∧
      p'.ruleClause? "r" = some "r(A) :- o_2_b(V_3, A), o_1_n(V_4, V_3), @>(V_4,1)." ∧
      ∃ (σ : Equiv.Perm Nat) (th th' : Lowering.Theory),
        Lowering.theory {} d = .ok th ∧ Lowering.theory {} d' = .ok th' ∧
        Lowering.Regroups σ d d' th.clauses th'.clauses ∧ p'.testNames = p.testNames := by
  let text := "object A { b: B } object B { n: int } rule r { input { a: A } rules { a.b.n > 1 } }"
  let swapped (d : Document) : Document := { d with objects := .ofList d.objects.entries.reverse }
  let clause? (d : Document) := (Compiler.generate {} d).toOption.map (·.ruleClause? "r")
  have answer : (Compiler.parse text).toOption.map
      (fun d => (decide (d.Reordered (swapped d)), clause? d, clause? (swapped d))) = some (true,
      some (some "r(A) :- o_1_b(V_3, A), o_2_n(V_4, V_3), @>(V_4,1)."),
      some (some "r(A) :- o_2_b(V_3, A), o_1_n(V_4, V_3), @>(V_4,1).")) := by decide +kernel
  obtain ⟨d, parsed, facts⟩ := exists_ok_of_map answer
  simp only [Prod.mk.injEq, decide_eq_true_eq] at facts
  obtain ⟨reordered, first, second⟩ := facts
  obtain ⟨p, generated, written⟩ := exists_ok_of_map first
  obtain ⟨p', generated', written'⟩ := exists_ok_of_map second
  obtain ⟨σ, th, th', lowered, lowered', _, _, regroups, _, tests⟩ :=
    (object_order_renames parsed reordered).2 p p' generated generated'
  exact ⟨d, swapped d, p, p', parsed, reordered, generated, generated', written, written',
    σ, th, th', lowered, lowered', regroups, tests⟩

end Rulebook
