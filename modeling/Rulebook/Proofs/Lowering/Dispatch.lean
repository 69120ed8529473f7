import Rulebook.Proofs.Lowering.Accepts
import Rulebook.Proofs.Lowering.Clauses

/-!
# What invocations become

An invocation names a predicate and should become a call of it. Lowering tells invocations and
instantiations apart by their functor alone, and `new` may also be the name of a rule or a relation.
So an invocation becomes a call of its predicate exactly if that predicate has another name.
-/

namespace Rulebook.Lowering

variable {naming : Naming} {d : Document} {site : Site} {k k' : Nat}

/-- The goals call the predicate of an expression: first come the goals of the arguments from left to
right, then a single goal about the predicate applied to their values. -/
def Calls (naming : Naming) (d : Document) (site : Site) (final : Logic.Term → Logic.Goal) (e : Expr)
    (goals : List Logic.Goal) : Prop :=
  ∃ ls k k', Each (node (.of naming d) site) k e.args ls k' ∧
    goals = ls.flatMap Lowered.prerequisites ++
      [final (.apply (.predicate e.functor) (ls.map Lowered.value))]

/-- A new value is no call. -/
theorem not_calls_new {final : Logic.Term → Logic.Goal}
    (other : ∀ functor args v value, final (.apply functor args) ≠ .holds (.unify v value))
    {e : Expr} (new : e.functor = Expr.newFunctor) {l : Lowered}
    (gives : Gives (expr (.of naming d) site e) k l k') : ¬ Calls naming d site final e l.goals := by
  intro ⟨ls, _, _, _, same⟩
  unfold expr Expr.node at gives
  rw [new] at gives
  obtain ⟨name, _, _, symbol, _, values, _, _, _, _, _, _, rfl, _⟩ :=
    gives_instantiate.mp (gives_node_new.mp gives)
  have last := congrArg List.getLast? same
  simp only [Lowered.goals, List.nil_append, List.getLast?_singleton, List.getLast?_concat,
    Option.some.injEq] at last
  exact other _ _ _ _ last.symm

/-- An expression whose functor is no operator is an invocation, or a new value. -/
theorem calls_expr_iff {e : Expr} (word : Operator.ofSpelling? e.functor = none) {l : Lowered}
    (gives : Gives (expr (.of naming d) site e) k l k') :
    Calls naming d site .holds e l.goals ↔ e.functor ≠ Expr.newFunctor := by
  constructor
  · intro calls new
    exact not_calls_new (by simp) new gives calls
  · intro notNew
    obtain ⟨_, ls, each, rfl⟩ := (gives_node_apply notNew (ne_access_of_word word)).mp gives
    refine ⟨ls, k, k', each, ?_⟩
    simp only [Lowered.goals, functorOf, word]

/-- A fact is added, unless it is a new value. -/
theorem calls_fact_iff {e : Expr} {r : List Logic.Goal × List Logic.Term}
    (gives : Gives (fact (.of naming d) site e) k r k') :
    Calls naming d site .assert e r.1 ↔ e.functor ≠ Expr.newFunctor := by
  constructor
  · intro calls new
    obtain ⟨l, hl, rfl⟩ := (gives_fact_new new).mp gives
    exact not_calls_new (by simp) new hl calls
  · intro notNew
    obtain ⟨_, ls, each, rfl⟩ := (gives_fact notNew).mp gives
    exact ⟨ls, k, k', each, rfl⟩

/-- Every rule and every test has a clause with the goals of its expressions, one after the other. The
goals of an invocation call its predicate exactly if the predicate is not called `new`. In a rule, the
invocations are the expressions whose functor is no operator; what a test asks for is always one; a
fact that is one is added. -/
structure Dispatched (naming : Naming) (d : Document) (clauses : List Logic.Clause) : Prop where
  rules : ∀ r ∈ d.rules.values, ∃ segments : List (List Logic.Goal),
    .rule r.name (r.params.map plainTerm) segments.flatten ∈ clauses ∧
    List.Forall₂ (fun e goals => Operator.ofSpelling? e.functor = none →
      (Calls naming d (.rule r.name) .holds e goals ↔ e.functor ≠ Expr.newFunctor)) r.body segments
  tests : ∀ t ∈ d.tests, ∃ (facts checks : List (List Logic.Goal)) (asserted : List Logic.Term),
    .test t.name (facts.flatten ++ cleaningUp checks.flatten asserted) ∈ clauses ∧
    List.Forall₂ (fun e goals =>
      Calls naming d (.test t.name) .assert e goals ↔ e.functor ≠ Expr.newFunctor) t.facts facts ∧
    List.Forall₂ (fun e goals =>
      Calls naming d (.test t.name) .holds e goals ↔ e.functor ≠ Expr.newFunctor) t.body checks

theorem dispatched_of_theory (regular : d.Regular) {th : Theory} (lowered : theory naming d = .ok th) :
    Dispatched naming d th.clauses := by
  constructor
  · intro r declared
    obtain ⟨k, c, k', gives, member⟩ := exists_rule_clause lowered declared
    obtain ⟨_, ls, body, rfl⟩ := gives_rule.mp gives
    refine ⟨ls.map Lowered.goals, by rwa [← List.flatMap_def], ?_⟩
    rw [List.forall₂_map_right_iff]
    exact body.forall₂ fun e _ l k k' given word => calls_expr_iff word given
  · intro t declared
    obtain ⟨k, c, k', gives, member⟩ := exists_test_clause lowered declared
    obtain ⟨_, fs, k₁, ls, facts, body, rfl⟩ := gives_test.mp gives
    refine ⟨fs.map Prod.fst, ls.map Lowered.goals, fs.flatMap Prod.snd, ?_, ?_, ?_⟩
    · rwa [← List.flatMap_def, ← List.flatMap_def]
    · rw [List.forall₂_map_right_iff]
      exact facts.forall₂ fun e _ r k k' given => calls_fact_iff given
    · rw [List.forall₂_map_right_iff]
      exact body.forall₂ fun e here l k k' given =>
        calls_expr_iff (regular.checks t declared e here).word given

end Rulebook.Lowering

namespace Rulebook

/-- In every program of a text, invocations become calls of their predicates exactly if these are not
called `new`. -/
theorem invocations_dispatched {text : String} {o : Options} {d : Document} {p : Program}
    (parsed : Compiler.parse text = .ok d) (generated : Compiler.generate o d = .ok p) :
    ∃ th, Lowering.theory o.toNaming d = .ok th ∧ p.clauses = th.clauses.map (·.written o) ∧
      Lowering.Dispatched o.toNaming d th.clauses := by
  obtain ⟨th, lowered, written⟩ := exists_theory_of_generate generated
  exact ⟨th, lowered, written, Lowering.dispatched_of_theory (regular_of_parse parsed) lowered⟩

/-- A fact of a relation, after an instantiation, and a check of a rule, which asks for the relation. -/
theorem invocations_dispatched_fact :
    ∃ d p th, Compiler.parse ("object T { a: int } relation q { p: T } " ++
        "rule r { input { p: T } rules { q(p) } } " ++
        "test t { facts { x: T { a: 1 }, q(x) } rules { r(x) } }") = .ok d ∧
      Compiler.generate {} d = .ok p ∧ p.ruleClause? "r" = some "r(P) :- q(P)." ∧
      p.testClause? "t" = some ("test('t') :- X = o_1(1), assertz(q(X)), " ++
        "(r(X) -> retract(q(X)) ; retract(q(X)), fail).") ∧
      Lowering.theory {} d = .ok th ∧ p.clauses = th.clauses.map (·.written {}) ∧
      Lowering.Dispatched {} d th.clauses := by
  obtain ⟨d, parsed, answer⟩ : ∃ d, Compiler.parse ("object T { a: int } relation q { p: T } " ++
      "rule r { input { p: T } rules { q(p) } } " ++
      "test t { facts { x: T { a: 1 }, q(x) } rules { r(x) } }") = .ok d ∧
      (Compiler.generate {} d).toOption.map (fun p => (p.ruleClause? "r", p.testClause? "t")) =
        some (some "r(P) :- q(P).", some ("test('t') :- X = o_1(1), assertz(q(X)), " ++
          "(r(X) -> retract(q(X)) ; retract(q(X)), fail).")) := exists_ok_of_map (by decide +kernel)
  obtain ⟨p, generated, clauses⟩ := exists_ok_of_map answer
  obtain ⟨rule, test⟩ := Prod.mk.inj clauses
  obtain ⟨th, lowered, written, dispatched⟩ := invocations_dispatched parsed generated
  exact ⟨d, p, th, parsed, generated, rule, test, lowered, written, dispatched⟩

/-- A relation may be called `new`. Its fact is not added; it becomes one more value of the object. -/
theorem fact_of_new_not_added :
    ∃ d p, Compiler.parse
        "object T { a: int } relation new { p: T } test t { facts { x: T { a: 1 }, new(x) } rules { } }" =
        .ok d ∧
      Compiler.generate {} d = .ok p ∧ d.relations.keys = ["new"] ∧
      (d.tests.flatMap Test.facts)[1]? = some ⟨"new", [.term (.var "x" (.object "T"))]⟩ ∧
      p.testClause? "t" = some "test('t') :- X = o_1(1), X = o_1(_)." := by
  have answer : ((Compiler.parse
      "object T { a: int } relation new { p: T } test t { facts { x: T { a: 1 }, new(x) } rules { } }"
      ).toOption.bind fun d => (Compiler.generate {} d).toOption.map fun p =>
        (d.relations.keys, (d.tests.flatMap Test.facts)[1]?, p.testClause? "t")) =
      some (["new"], some ⟨"new", [.term (.var "x" (.object "T"))]⟩,
        some "test('t') :- X = o_1(1), X = o_1(_).") := by
    decide +kernel
  cases parsed : Compiler.parse
      "object T { a: int } relation new { p: T } test t { facts { x: T { a: 1 }, new(x) } rules { } }"
      with
  | error e =>
    rw [parsed] at answer
    cases answer
  | ok d =>
    cases generated : Compiler.generate {} d with
    | error e => simp [parsed, generated, Except.toOption] at answer
    | ok p =>
      simp only [parsed, generated, Except.toOption, Option.bind_some, Option.map_some,
        Option.some.injEq, Prod.mk.injEq] at answer
      exact ⟨d, p, rfl, generated, answer⟩

end Rulebook
