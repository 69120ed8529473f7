import Mathlib
import Rulebook.Proofs.Logic.Sentence

/-!
# Running accessor goals

What the goals do that take fields. A goal is resolved with the sentences of a program that define its
predicate. This must be one sentence, an accessor, and its arguments say which component of a value it
takes. A goal binds its own variable, which must be unbound, and reads its target, which must be bound.
-/

namespace Rulebook.Logic

/-- The name of the predicate that a clause defines or lets facts be added to. -/
def Clause.predicate (naming : Naming) : Clause → String
  | accessor object _ field _ _ => naming.accessor object field
  | directive relation _ => atom relation
  | rule name _ _ => atom name
  | test _ _ => "test"
  | testCases _ => "test_cases"

/-- Values of fresh variables, in the order in which they were bound. -/
abbrev Bindings := List (Nat × Term)

/-- The value of a variable; `values` gives those of the document. -/
def Var.value? (values : String → Term) (bindings : Bindings) : Var → Option Term
  | user name => some (values name)
  | fresh index => bindings.lookup index

/-- The component that arguments pick out: the one where they hold `Value`, if they hold `_` for every
other component. -/
def picked? (args : List String) (components : List Term) : Option Term :=
  match (args.zip components).filter (·.1 != "_") with
  | [("Value", component)] => some component
  | _ => none

/-- The component that an accessor, `Object = o_n(_,…,Value,…,_)`, takes from a value of this object
with as many components as the accessor has arguments. -/
def Sentence.component? (naming : Naming) : Sentence → Term → Option Term
  | accessor _ object args, .construct symbol components =>
    if object = naming.object symbol ∧ args.length = components.length then picked? args components
    else none
  | _, _ => none

/-- The number of the variable that an accessor goal binds. -/
def Goal.result? : Goal → Option Nat
  | access _ _ result _ => some result
  | _ => none

/-- Run an accessor goal. It fails if its predicate is not defined by exactly one sentence, if its
variable is bound already, if its target is not bound, or if the sentence takes nothing from it. -/
def Goal.step (naming : Naming) (program : List Sentence) (values : String → Term)
    (bindings : Bindings) : Goal → Option Bindings
  | access object field result target =>
    match program.filter (·.predicate == naming.accessor object field) with
    | [sentence] => do
      let value ← target.value? values bindings
      let component ← sentence.component? naming value
      if bindings.lookup result = none then return bindings ++ [(result, component)] else none
    | _ => none
  | _ => none

/-- Run accessor goals in order. -/
def Goal.run (naming : Naming) (program : List Sentence) (values : String → Term) :
    Bindings → List Goal → Option Bindings
  | bindings, [] => some bindings
  | bindings, goal :: rest => do
    run naming program values (← goal.step naming program values bindings) rest

namespace Term

mutual

/-- Replace fresh variables by their values. -/
def subst (bindings : Bindings) : Term → Term
  | var (.fresh index) => (bindings.lookup index).getD (var (.fresh index))
  | var (.user name) => var (.user name)
  | int value => int value
  | float text => float text
  | quoted text => quoted text
  | wildcard => wildcard
  | apply functor args => apply functor (substAll bindings args)
  | construct object args => construct object (substAll bindings args)
  | unify v value => unify v (subst bindings value)

/-- Replace fresh variables in several terms. -/
def substAll (bindings : Bindings) : List Term → List Term
  | [] => []
  | t :: rest => subst bindings t :: substAll bindings rest

end

theorem substAll_eq_map (bindings : Bindings) (ts : List Term) :
    substAll bindings ts = ts.map (subst bindings) := by
  induction ts with
  | nil => rfl
  | cons t rest ih => rw [substAll, ih, List.map_cons]

end Term

/-! ## Accessors -/

theorem Clause.predicate_sentence {o : Options} (c : Clause) :
    (c.sentence o).predicate = c.predicate o.toNaming := by
  cases c <;> rfl

/-- Of the arguments of an accessor, one is no wildcard. -/
theorem filter_zip_pick (components : List Term) (position : Nat) :
    ((pick position components.length).zip components).filter (·.1 != "_") =
      (components[position]?.map fun c => ("Value", c)).toList := by
  induction components generalizing position with
  | nil => rfl
  | cons c rest ih =>
    unfold pick at ih ⊢
    rw [List.length_cons, List.range_succ_eq_map, List.map_cons, List.map_map, List.zip_cons_cons]
    cases position with
    | zero =>
      have none : (((List.range rest.length).map
          ((fun i => if i = 0 then "Value" else "_") ∘ Nat.succ)).zip rest).filter (·.1 != "_") =
          [] := by
        rw [List.filter_eq_nil_iff]
        intro x here
        obtain ⟨i, _, same⟩ := List.mem_map.mp (List.of_mem_zip here).1
        simp [← same]
      rw [if_pos rfl, List.filter_cons_of_pos (by simp), none]
      rfl
    | succ position =>
      rw [if_neg (Nat.succ_ne_zero position).symm, List.filter_cons_of_neg (by simp)]
      simpa [Function.comp_def] using ih position

theorem picked?_pick {components : List Term} {position : Nat} {component : Term}
    (here : components[position]? = some component) :
    picked? (pick position components.length) components = some component := by
  rw [picked?, filter_zip_pick, here]
  rfl

/-! ## Bindings -/

namespace Bindings

/-- Every binding stays. -/
def Extends (σ τ : Bindings) : Prop := ∀ i v, σ.lookup i = some v → τ.lookup i = some v

/-- Only variables up to a number are bound. -/
def Below (σ : Bindings) (k : Nat) : Prop := ∀ i v, σ.lookup i = some v → i ≤ k

theorem Extends.refl (σ : Bindings) : Extends σ σ := fun _ _ h => h

theorem Extends.trans {σ τ υ : Bindings} (h : Extends σ τ) (h' : Extends τ υ) : Extends σ υ :=
  fun i v bound => h' i v (h i v bound)

theorem Below.lookup_eq_none {σ : Bindings} {k i : Nat} (h : Below σ k) (above : k < i) :
    σ.lookup i = none := by
  cases bound : σ.lookup i with
  | none => rfl
  | some v =>
    have := h i v bound
    omega

theorem lookup_append_self {σ : Bindings} {i : Nat} {v : Term} (free : σ.lookup i = none) :
    (σ ++ [(i, v)]).lookup i = some v := by
  rw [List.lookup_append, free]
  simp

theorem not_mem_of_lookup_eq_none {σ : Bindings} {i : Nat} (free : σ.lookup i = none) :
    i ∉ σ.map Prod.fst := by
  intro member
  obtain ⟨p, here, same⟩ := List.mem_map.mp member
  rw [List.lookup_eq_none_iff] at free
  have := free p here
  simp [same] at this

theorem Extends.append (σ τ : Bindings) : Extends σ (σ ++ τ) := by
  intro i v bound
  rw [List.lookup_append, bound]
  rfl

/-- Binding the next number. -/
theorem Below.append {σ : Bindings} {k : Nat} {v : Term} (h : Below σ k) :
    Below (σ ++ [(k + 1, v)]) (k + 1) := by
  intro i w bound
  rw [List.lookup_append] at bound
  cases old : σ.lookup i with
  | some u =>
    have := h i u old
    omega
  | none =>
    by_cases same : i = k + 1
    · omega
    · have other : (i == k + 1) = false := by simpa using same
      simp [old, List.lookup, other] at bound

end Bindings

/-! ## Runs -/

section

variable {naming : Naming} {program : List Sentence} {values : String → Term}

/-- A goal that succeeds binds its variable, which was free. -/
theorem Goal.step_eq_some {σ τ : Bindings} {g : Goal}
    (h : g.step naming program values σ = some τ) :
    ∃ i v, g.result? = some i ∧ σ.lookup i = none ∧ τ = σ ++ [(i, v)] := by
  unfold step at h
  split at h
  · split at h
    · obtain ⟨_, _, h⟩ := Option.bind_eq_some_iff.mp h
      obtain ⟨component, _, h⟩ := Option.bind_eq_some_iff.mp h
      split at h
      · rename_i free
        cases h
        exact ⟨_, component, rfl, free, rfl⟩
      · cases h
    · cases h
  · cases h

theorem Goal.run_append {σ : Bindings} {gs hs : List Goal} :
    run naming program values σ (gs ++ hs) =
      (run naming program values σ gs).bind fun τ => run naming program values τ hs := by
  induction gs generalizing σ with
  | nil => rfl
  | cons g rest ih =>
    rw [List.cons_append, run, run]
    cases g.step naming program values σ with
    | none => rfl
    | some τ => exact ih

/-- A run binds the variables of its goals, each of them once and in their order. -/
theorem Goal.run_binds {σ τ : Bindings} {gs : List Goal}
    (h : run naming program values σ gs = some τ) (distinct : (σ.map Prod.fst).Nodup) :
    τ.map Prod.fst = σ.map Prod.fst ++ gs.filterMap result? ∧ (τ.map Prod.fst).Nodup := by
  induction gs generalizing σ with
  | nil =>
    cases h
    exact ⟨by simp, distinct⟩
  | cons g rest ih =>
    rw [run] at h
    obtain ⟨σ', step, h⟩ := Option.bind_eq_some_iff.mp h
    obtain ⟨i, v, bound, free, rfl⟩ := step_eq_some step
    have distinct' : ((σ ++ [(i, v)]).map Prod.fst).Nodup := by
      rw [List.map_append, List.nodup_append]
      refine ⟨distinct, by simp, fun j here l there same => ?_⟩
      simp only [List.map_cons, List.map_nil, List.mem_singleton] at there
      rw [same, there] at here
      exact Bindings.not_mem_of_lookup_eq_none free here
    obtain ⟨binds, nodup⟩ := ih h distinct'
    refine ⟨?_, nodup⟩
    rw [binds, List.filterMap_cons_some bound]
    simp

/-- One accessor goal, resolved with the only sentence of its predicate. -/
theorem Goal.run_access {σ : Bindings} {object result : Nat} {field : String} {target : Var}
    {sentence : Sentence} {value component : Term}
    (only : program.filter (·.predicate == naming.accessor object field) = [sentence])
    (bound : target.value? values σ = some value)
    (taken : sentence.component? naming value = some component)
    (free : σ.lookup result = none) :
    run naming program values σ [.access object field result target] =
      some (σ ++ [(result, component)]) := by
  simp [run, step, only, bound, taken, free]

end

end Rulebook.Logic
