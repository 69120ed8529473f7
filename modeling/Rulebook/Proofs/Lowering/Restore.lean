import Rulebook.Proofs.Logic.Store
import Rulebook.Proofs.Lowering.Accepts
import Rulebook.Proofs.Lowering.Clauses

/-!
# Tests leave no facts behind

A test adds its facts, asks for its checks, and takes the facts away, whether the checks hold or not.
So the facts of one test are not there for the next one, and whatever tests were run before, each test
starts from the same store.
-/

namespace Rulebook.Lowering

open Logic (Goal Store)

variable {env : Env} {site : Site} {o : Options} {k k' : Nat}

/-! ## Goals that leave the store alone -/

/-- The goals before a term only take fields. -/
theorem isOpen_of_mem_prerequisites {n : Node} {l : Lowered} (gives : Gives (node env site n) k l k') :
    ∀ g ∈ l.prerequisites, g.isOpen = true := by
  induction n using Node.induction generalizing k l k' with
  | term t =>
    obtain ⟨_, rfl, _⟩ := gives_node_term.mp gives
    exact nofun
  | app functor args ih =>
    by_cases new : functor = Expr.newFunctor
    · subst new
      obtain ⟨_, _, _, _, _, _, _, _, _, _, _, _, rfl, _⟩ :=
        gives_instantiate.mp (gives_node_new.mp gives)
      exact nofun
    by_cases access : functor = Expr.accessFunctor
    · subst access
      obtain ⟨a, given, rfl⟩ := gives_node_access.mp gives
      obtain ⟨left, right, field, t, k₁, rfl, _, target, project⟩ := gives_access.mp given
      obtain ⟨_, symbol, _, declared, _, _, _, rfl, _⟩ := gives_project.mp project
      intro g member
      rcases List.mem_append.mp member with inner | last
      · exact ih left List.mem_cons_self (gives_node_of_target target) g inner
      · rw [List.mem_singleton.mp last, Goal.isOpen]
    · obtain ⟨_, ls, each, rfl⟩ := (gives_node_apply new access).mp gives
      intro g member
      obtain ⟨l, here, inner⟩ := List.mem_flatMap.mp member
      obtain ⟨n, argument, _, _, given⟩ := each.exists_of_mem here
      exact ih n argument given g inner

theorem isOpen_of_mem_goals {e : Expr} {l : Lowered} (gives : Gives (expr env site e) k l k') :
    ∀ g ∈ l.goals, g.isOpen = true := by
  intro g member
  rcases List.mem_append.mp member with before | last
  · exact isOpen_of_mem_prerequisites gives g before
  · rw [List.mem_singleton.mp last, Goal.isOpen]

theorem isOpen_of_mem_checks {es : List Expr} {goals : List Goal}
    (gives : Gives (checks env site es) k goals k') : ∀ g ∈ goals, g.isOpen = true := by
  obtain ⟨_, ls, each, rfl⟩ := gives_checks.mp gives
  intro g member
  obtain ⟨l, here, inside⟩ := List.mem_flatMap.mp member
  obtain ⟨e, _, _, _, given⟩ := each.exists_of_mem here
  exact isOpen_of_mem_goals given g inside

/-! ## Goals that add facts -/

/-- The goals of a fact add what has to be taken away again. -/
theorem setsUp_fact {e : Expr} {r : List Goal × List Logic.Term}
    (gives : Gives (fact env site e) k r k') : Goal.SetsUp o r.1 r.2 := by
  by_cases new : e.functor = Expr.newFunctor
  · obtain ⟨l, given, rfl⟩ := (gives_fact_new new).mp gives
    exact Goal.setsUp_of_open (isOpen_of_mem_goals given)
  · obtain ⟨_, ls, each, rfl⟩ := (gives_fact new).mp gives
    have arguments : ∀ g ∈ ls.flatMap Lowered.prerequisites, g.isOpen = true := by
      intro g member
      obtain ⟨l, here, inside⟩ := List.mem_flatMap.mp member
      obtain ⟨n, _, _, _, given⟩ := each.exists_of_mem here
      exact isOpen_of_mem_prerequisites given g inside
    exact (Goal.setsUp_of_open arguments).append (Goal.setsUp_assert _)

theorem setsUp_facts {es : List Expr} {r : List Goal × List Logic.Term}
    (gives : Gives (facts env site es) k r k') : Goal.SetsUp o r.1 r.2 := by
  obtain ⟨rs, each, rfl⟩ := gives_facts.mp gives
  apply Goal.setsUp_flatMap
  intro r member
  obtain ⟨e, _, _, _, given⟩ := each.exists_of_mem member
  exact setsUp_fact given

/-! ## The parts of a test -/

/-- What a test becomes, in parts: the goals that set it up, the facts these goals add, and the goals
of its checks. -/
structure Parts where
  setup : List Goal
  added : List Logic.Term
  checks : List Goal

namespace Parts

/-- The goals of the clause. -/
def body (p : Parts) : List Goal := p.setup ++ cleaningUp p.checks p.added

/-- The parts of this test, lowered from some number on. -/
def Of (p : Parts) (env : Env) (t : Test) : Prop :=
  ∃ k k₁ k', Gives (facts env (.test t.name) t.facts) k (p.setup, p.added) k₁ ∧
    Gives (Lowering.checks env (.test t.name) t.body) k₁ p.checks k'

/-- How many goals are asked before the checks. -/
def before (p : Parts) : Nat := p.setup.countP Goal.isOpen

/-- Instantiations and field accesses of the facts succeed. -/
def SetUp (p : Parts) (answers : Nat → Bool) : Prop := ∀ i < p.before, answers i = true

/-- All checks succeed. -/
def Hold (p : Parts) (answers : Nat → Bool) : Prop :=
  ∀ i < p.checks.length, answers (p.before + i) = true

instance (p : Parts) (answers : Nat → Bool) : Decidable (p.SetUp answers) :=
  inferInstanceAs (Decidable (∀ i < p.before, answers i = true))

instance (p : Parts) (answers : Nat → Bool) : Decidable (p.Hold answers) :=
  inferInstanceAs (Decidable (∀ i < p.checks.length, answers (p.before + i) = true))

end Parts

theorem gives_test_iff_parts {t : Test} {c : Logic.Clause} :
    (∃ k k', Gives (test env t) k c k') ↔
      ∃ p : Parts, p.Of env t ∧ c = .test t.name p.body := by
  simp only [test, gives_bind, gives_pure]
  constructor
  · intro ⟨k, _, r, k₁, facts, body, k₂, checks, value, _⟩
    exact ⟨⟨r.1, r.2, body⟩, ⟨k, k₁, k₂, facts, checks⟩, value⟩
  · intro ⟨p, ⟨k, k₁, k', facts, checks⟩, value⟩
    exact ⟨k, k', _, k₁, facts, _, k', checks, value, rfl⟩

/-- After the checks the facts are taken away, and what the checks said is kept. -/
theorem execAll_cleaningUp {checks : List Goal} (all : ∀ g ∈ checks, g.isOpen = true)
    (added : List Logic.Term) (answers : Nat → Bool) (store : Store) (asked : Nat) :
    ∃ later, Goal.execAll o answers (cleaningUp checks added)
        ⟨↑(added.map (Logic.Term.text o)) + store, asked⟩ =
      (decide (∀ i < checks.length, answers (asked + i) = true), ⟨store, later⟩) := by
  by_cases none : added.isEmpty
  · rw [cleaningUp, if_pos none, List.isEmpty_iff.mp none]
    simpa using Goal.execAll_open all store asked
  · obtain ⟨later, run⟩ := @Goal.execAll_open o answers checks all
      (↑(added.map (Logic.Term.text o)) + store) asked
    refine ⟨later, ?_⟩
    rw [cleaningUp, if_neg none, Goal.execAll, Goal.exec, run]
    by_cases hold : ∀ i < checks.length, answers (asked + i) = true
    · rw [decide_eq_true hold]
      simp only [Goal.execAll_retract, Goal.execAll]
    · rw [decide_eq_false hold]
      simp only [Goal.execAll_append_of_true (Goal.execAll_retract added store later), Goal.execAll,
        Goal.exec]

/-- A test leaves the store as it was, and succeeds exactly if its checks do. -/
theorem Parts.Of.restores {p : Parts} {t : Test} (parts : p.Of env t) {answers : Nat → Bool}
    (setUp : p.SetUp answers) (store : Store) :
    ∃ later, Goal.execAll o answers p.body ⟨store, 0⟩ =
      (decide (p.Hold answers), ⟨store, later⟩) := by
  obtain ⟨_, _, _, facts, checks⟩ := parts
  have added : Goal.SetsUp o p.setup p.added := setsUp_facts facts
  have start := added answers store 0 fun i below => by
    rw [Nat.zero_add]
    exact setUp i below
  obtain ⟨later, run⟩ := @execAll_cleaningUp o _ (isOpen_of_mem_checks checks) p.added answers store
    p.before
  refine ⟨later, ?_⟩
  rw [Parts.body, Goal.execAll_append_of_true start, Nat.zero_add]
  exact run

/-! ## One test after the other -/

/-- A test and the answers to its goals. -/
structure Trial where
  parts : Parts
  answers : Nat → Bool

/-- Run tests one after the other: what each of them starts from and whether it succeeds, and the
store after the last. -/
def runTrials (o : Options) : List Trial → Store → List (Store × Bool) × Store
  | [], store => ([], store)
  | trial :: rest, store =>
    let (success, w) := Goal.execAll o trial.answers trial.parts.body ⟨store, 0⟩
    let (later, last) := runTrials o rest w.store
    ((store, success) :: later, last)

theorem runTrials_eq {trials : List Trial}
    (each : ∀ trial ∈ trials, (∃ t, trial.parts.Of env t) ∧ trial.parts.SetUp trial.answers)
    (store : Store) :
    runTrials o trials store =
      (trials.map fun trial => (store, decide (trial.parts.Hold trial.answers)), store) := by
  induction trials with
  | nil => rfl
  | cons trial rest ih =>
    rw [List.forall_mem_cons] at each
    obtain ⟨⟨t, parts⟩, setUp⟩ := each.1
    obtain ⟨later, run⟩ := @Parts.Of.restores env o _ t parts _ setUp store
    simp only [runTrials, run, ih each.2, List.map_cons]

/-- The test clauses are those of the tests. Each adds its facts, gives back the store it was given,
and succeeds exactly if its checks do; so in any sequence of tests, each starts from the same store. -/
structure Restoring (o : Options) (env : Env) (tests : List Test) (clauses : List Logic.Clause) :
    Prop where
  present : ∀ t ∈ tests, ∃ p : Parts, p.Of env t ∧ .test t.name p.body ∈ clauses
  only : ∀ name body, .test name body ∈ clauses →
    ∃ t ∈ tests, ∃ p : Parts, p.Of env t ∧ name = t.name ∧ body = p.body
  setsUp : ∀ t ∈ tests, ∀ p : Parts, p.Of env t → Goal.SetsUp o p.setup p.added
  restores : ∀ t ∈ tests, ∀ p : Parts, p.Of env t → ∀ answers, p.SetUp answers → ∀ store,
    ∃ later, Goal.execAll o answers p.body ⟨store, 0⟩ = (decide (p.Hold answers), ⟨store, later⟩)
  sequences : ∀ trials : List Trial,
    (∀ trial ∈ trials, (∃ t ∈ tests, trial.parts.Of env t) ∧ trial.parts.SetUp trial.answers) →
    ∀ store, runTrials o trials store =
      (trials.map fun trial => (store, decide (trial.parts.Hold trial.answers)), store)

theorem restoring_of_theory {naming : Naming} {d : Document} {th : Theory}
    (lowered : theory naming d = .ok th) :
    Restoring o (.of naming d) d.tests th.clauses where
  present := by
    intro t declared
    obtain ⟨k, c, k', gives, member⟩ := exists_test_clause lowered declared
    obtain ⟨p, parts, rfl⟩ := gives_test_iff_parts.mp ⟨k, k', gives⟩
    exact ⟨p, parts, member⟩
  only := by
    intro name body member
    rcases clause_cases lowered member with ⟨_, _, _, _, _, _, other⟩ | ⟨_, _, other⟩ |
      ⟨_, _, _, _, gives⟩ | ⟨t, declared, k, k', gives⟩ | other
    · cases other
    · cases other
    · obtain ⟨_, _, _, other⟩ := gives_rule.mp gives
      cases other
    · obtain ⟨p, parts, same⟩ := gives_test_iff_parts.mp ⟨k, k', gives⟩
      cases same
      exact ⟨t, declared, p, parts, rfl, rfl⟩
    · cases other
  setsUp := by
    intro _ _ _ ⟨_, _, _, facts, _⟩
    exact setsUp_facts facts
  restores := fun _ _ _ parts _ setUp store => parts.restores setUp store
  sequences := by
    intro trials each store
    refine @runTrials_eq (.of naming d) o trials (fun trial member => ?_) store
    obtain ⟨⟨t, _, parts⟩, setUp⟩ := each trial member
    exact ⟨⟨t, parts⟩, setUp⟩

end Rulebook.Lowering

namespace Rulebook

theorem compile_eq_ok_iff {o : Options} {text : String} {p : Program} :
    Compiler.compile o text = .ok p ↔
      ∃ d, Compiler.parse text = .ok d ∧ Compiler.generate o d = .ok p := by
  unfold Compiler.compile
  cases Compiler.parse text <;> simp [bind, Except.bind]

/-- No test of a program leaves facts behind, whatever its checks do. -/
theorem tests_restore_store {o : Options} {text : String} {p : Program}
    (compiled : Compiler.compile o text = .ok p) :
    ∃ d th, Compiler.parse text = .ok d ∧ Lowering.theory o.toNaming d = .ok th ∧
      p.clauses = th.clauses.map (·.written o) ∧
      Lowering.Restoring o (.of o.toNaming d) d.tests th.clauses := by
  obtain ⟨d, parsed, generated⟩ := compile_eq_ok_iff.mp compiled
  obtain ⟨th, lowered, written⟩ := exists_theory_of_generate generated
  exact ⟨d, th, parsed, lowered, written, Lowering.restoring_of_theory lowered⟩

/-- A test that adds one fact twice and asks for one check. -/
theorem tests_restore_store_twice :
    ∃ (p : Program) (d : Document) (th : Lowering.Theory),
      Compiler.compile {} ("relation q { p: int } rule r { input { } rules { } } " ++
        "test t { facts { q(1), q(1) } rules { r() } }") = .ok p ∧
      p.testClause? "t" = some ("test('t') :- assertz(q(1)), assertz(q(1)), " ++
        "(r -> retract(q(1)), retract(q(1)) ; retract(q(1)), retract(q(1)), fail).") ∧
      p.clauses = th.clauses.map (·.written {}) ∧
      Lowering.Restoring {} (.of {} d) d.tests th.clauses := by
  obtain ⟨p, compiled, clause⟩ : ∃ p, Compiler.compile {}
      ("relation q { p: int } rule r { input { } rules { } } " ++
        "test t { facts { q(1), q(1) } rules { r() } }") = .ok p ∧
      p.testClause? "t" = some ("test('t') :- assertz(q(1)), assertz(q(1)), " ++
        "(r -> retract(q(1)), retract(q(1)) ; retract(q(1)), retract(q(1)), fail).") :=
    exists_ok_of_map (by decide +kernel)
  obtain ⟨d, th, _, _, written, restoring⟩ := tests_restore_store compiled
  exact ⟨p, d, th, compiled, clause, written, restoring⟩

end Rulebook
