import Rulebook.Proofs.Document.Scope
import Rulebook.Proofs.Lowering.Clauses
import Rulebook.Proofs.Lowering.Positions

/-!
# Types of assigned values

What an instantiation assigns to a field fits the type of the field. A name fits an object type if the
facts before it give it that type, or give it none: names are resolved where they stand, so what a
later fact says about a name is not asked.
-/

namespace Rulebook

namespace Lowering

/-- A value fits the type of the field that it is assigned to, and is written as the type asks. A name
that the scope binds must be of the type. -/
inductive Fits (binds : String → FieldType → Prop) : FieldType → Term → Logic.Term → Prop
  | text {text : String} : Fits binds .string (.string text) (.quoted text)
  | word {name : String} : Fits binds .string (.ident name) (.quoted name)
  | int {n : Int64} : Fits binds .int (.int n) (.int n)
  | whole {n : Int64} : Fits binds .float (.int n) (.int n)
  | float {text : String} : Fits binds .float (.float text) (.float text)
  | reference {object name : String} {value : Term} : value.IsName name →
      (∀ type, binds name type → type = .object object) →
      Fits binds (.object object) value (.var (.user name))

/-- A value that a field admits fits the type of the field, if names are resolved. -/
theorem fits_of_admits {naming : Naming} {binds : String → FieldType → Prop} {type : FieldType}
    {value : Term} {v : Logic.Term} (admits : Admits naming type value v)
    (resolved : value.ResolvedBy binds) : Fits binds type value v := by
  cases admits with
  | string => exact .text
  | name => exact .word
  | int => exact .int
  | whole => exact .whole
  | float => exact .float
  | @«open» object name _ =>
    have named : (Term.ident name).IsName name := .inl rfl
    have unbound := (resolved name named).2.mp rfl
    exact .reference named fun type bound => absurd bound (unbound type)
  | @object object name _ =>
    have named : (Term.var name (.object object)).IsName name := .inr ⟨_, rfl⟩
    refine .reference named fun type bound => ?_
    have same := ((resolved name named).1 type).mpr bound
    cases same
    rfl

/-! ## Facts -/

/-- What is seen of an instantiation in its tree. -/
theorem args_of_instantiation? {e : Expr} {x object : String}
    (found : e.instantiation? = some (x, object)) :
    e.functor = Expr.newFunctor ∧
      ∃ rest, e.args = .term (.var x (.object object)) :: rest := by
  unfold Expr.instantiation? at found
  split at found
  · rename_i first object' field value rest whole
    split at found
    · rename_i new
      cases found
      exact ⟨new, _, whole⟩
    · cases found
  · cases found

/-- The value of an assignment is one of the leaves that the facts before resolve. -/
theorem held_mem_givenLeaves {e : Expr} {x object field : String} {value : Term}
    (found : e.instantiation? = some (x, object)) (member : .term (.field field value) ∈ e.args) :
    value.held ∈ e.givenLeaves := by
  obtain ⟨_, rest, whole⟩ := args_of_instantiation? found
  rw [Expr.givenLeaves, found, Option.isSome_some, if_pos rfl, whole, List.tail_cons,
    Node.leavesAll_eq, List.mem_flatMap]
  rw [whole] at member
  rcases List.mem_cons.mp member with same | member
  · cases same
  · exact ⟨_, member, by simp [Node.leaves, Term.held]⟩

variable {naming : Naming} {d : Document} {site : Site} {k k' : Nat}

/-- A fact that instantiates a name becomes one goal, which constructs the object from what is assigned
to its fields. -/
theorem exists_values_of_fact (regular : d.Regular) {e : Expr} (form : e.Invokes ∨ e.Creates)
    {x objectName : String} (found : e.instantiation? = some (x, objectName))
    {r : List Logic.Goal × List Logic.Term} (gives : Gives (fact (.of naming d) site e) k r k') :
    ∃ object symbol values assigned, d.Numbers objectName object symbol ∧
      r = ([.holds (.unify (.user x) (.construct symbol values))], []) ∧
      (∀ field value, .term (.field field value) ∈ e.args ↔ (field, value) ∈ assigned) ∧
      Arguments (.of naming d) site object assigned values := by
  obtain ⟨new, rest, whole⟩ := args_of_instantiation? found
  obtain ⟨l, hl, rfl⟩ := (gives_fact_new new).mp gives
  unfold expr Expr.node at hl
  rw [new] at hl
  obtain ⟨name, objectName', object, symbol, assigned, values, args, declared, known, _, fills, _, rfl,
    _⟩ := gives_instantiate.mp (gives_node_new.mp hl)
  have once := distinct_assigned form args
  rw [args] at whole
  obtain ⟨same, _⟩ := List.cons.inj whole
  cases same
  have numbers : d.Numbers objectName object symbol :=
    ⟨declared, known, (regular.symbolTable_find? declared).mp known⟩
  refine ⟨object, symbol, values, assigned, numbers, rfl, fun field value => ?_,
    arguments_of_fills once fills⟩
  rw [args]
  simp

/-! ## Tests -/

/-- What an instantiation puts at the positions of the fields of its object: a value that fits, or
anything where nothing is assigned. -/
structure FieldsFit (binds : String → FieldType → Prop) (object : Object) (e : Expr)
    (values : List Logic.Term) : Prop where
  given : ∀ (j : Nat) (f : Field) (value : Term), object.fields[j]? = some f →
    .term (.field f.name value) ∈ e.args → ∃ v, values[j]? = some v ∧ Fits binds f.type value v
  missing : ∀ (j : Nat) (f : Field), object.fields[j]? = some f →
    (∀ value, .term (.field f.name value) ∉ e.args) → values[j]? = some .wildcard

/-- In the clause of each test, an instantiation is a goal whose values fit the fields of the object,
as far as names are bound by the facts before. -/
def TypesFit (d : Document) (clauses : List Logic.Clause) : Prop :=
  ∀ t ∈ d.tests, ∃ (facts : List (List Logic.Goal)) (checks : List Logic.Goal)
      (asserted : List Logic.Term),
    .test t.name (facts.flatten ++ cleaningUp checks asserted) ∈ clauses ∧
    ∀ (i : Nat) (e : Expr) (x objectName : String), t.facts[i]? = some e →
      e.instantiation? = some (x, objectName) →
      ∃ object symbol values, d.Numbers objectName object symbol ∧
        facts[i]? = some [.holds (.unify (.user x) (.construct symbol values))] ∧
        FieldsFit (Expr.Introduce (t.facts.take i)) object e values

/-- The values of an instantiation whose names are resolved fit the fields. -/
theorem fieldsFit_of_arguments {binds : String → FieldType → Prop} {object : Object} {e : Expr}
    {assigned : List (String × Term)} {values : List Logic.Term}
    (arguments : Arguments (.of naming d) site object assigned values)
    (assigns : ∀ field value, .term (.field field value) ∈ e.args ↔ (field, value) ∈ assigned)
    (resolved : ∀ field value, .term (.field field value) ∈ e.args → value.held.ResolvedBy binds) :
    FieldsFit binds object e values := by
  constructor
  case given =>
    intro j f value here member
    obtain ⟨v, there, gives⟩ := arguments.given j f value here ((assigns _ _).mp member)
    have admits := (gives_fieldValue.mp (gives 0)).1
    -- No field admits an assignment as its value.
    have leaf : value.held = value := by
      rcases f with ⟨name, type⟩
      cases admits <;> rfl
    have resolved := resolved _ _ member
    rw [leaf] at resolved
    exact ⟨v, there, fits_of_admits admits resolved⟩
  case missing =>
    intro j f here unassigned
    refine arguments.missing j f here fun member => ?_
    obtain ⟨⟨field, value⟩, member, rfl⟩ := List.mem_map.mp member
    exact unassigned value ((assigns _ _).mpr member)

theorem typesFit_of_theory (regular : d.Regular) (inScope : d.Scoped) {th : Theory}
    (lowered : theory naming d = .ok th) : TypesFit d th.clauses := by
  intro t declared
  obtain ⟨k, c, k', gives, member⟩ := exists_test_clause lowered declared
  obtain ⟨_, fs, k₁, ls, facts, _, rfl⟩ := gives_test.mp gives
  refine ⟨fs.map Prod.fst, ls.flatMap Lowered.goals, fs.flatMap Prod.snd, ?_, ?_⟩
  · rwa [← List.flatMap_def]
  · intro i e x objectName here found
    obtain ⟨r, k, k', there, given⟩ := facts.exists_at here
    have form := regular.facts t declared e (List.mem_of_getElem? here)
    obtain ⟨object, symbol, values, assigned, numbers, rfl, assigns, arguments⟩ :=
      exists_values_of_fact regular form found given
    refine ⟨object, symbol, values, numbers, by simp [there], ?_⟩
    apply fieldsFit_of_arguments arguments assigns
    intro field value member
    exact inScope.facts t declared i e here _ (held_mem_givenLeaves found member)

end Lowering

/-- In a program, what an instantiation assigns fits the types of the fields. -/
theorem assignments_fit {text : String} {o : Options} {d : Document} {p : Program}
    (parsed : Compiler.parse text = .ok d) (generated : Compiler.generate o d = .ok p) :
    ∃ th, Lowering.theory o.toNaming d = .ok th ∧ p.clauses = th.clauses.map (·.written o) ∧
      Lowering.TypesFit d th.clauses := by
  obtain ⟨th, lowered, written⟩ := exists_theory_of_generate generated
  have fit := Lowering.typesFit_of_theory (regular_of_parse parsed) (scoped_of_parse parsed) lowered
  exact ⟨th, lowered, written, fit⟩

/-- A field of each type is assigned, one of them a name that a fact before instantiates and one of
them a name that no fact instantiates; the last field is left open. -/
theorem assignments_fit_declared_before :
    ∃ d p th, Compiler.parse
        ("object U { n: int } object T { s: string, r: float, u: U, v: U, w: int } " ++
          "test t { facts { x: U { n: 1 }, a: T { v: y, u: x, r: 2, s: word } } rules { } }") =
        .ok d ∧
      Compiler.generate {} d = .ok p ∧
      d.tests.map (·.facts.map Expr.instantiation?) = [[some ("x", "U"), some ("a", "T")]] ∧
      p.testClause? "t" = some "test('t') :- X = o_1(1), A = o_2('word',2,X,Y,_)." ∧
      Lowering.theory ({} : Options).toNaming d = .ok th ∧ p.clauses = th.clauses.map (·.written {}) ∧
      Lowering.TypesFit d th.clauses := by
  obtain ⟨d, parsed, answer⟩ : ∃ d, Compiler.parse
      ("object U { n: int } object T { s: string, r: float, u: U, v: U, w: int } " ++
        "test t { facts { x: U { n: 1 }, a: T { v: y, u: x, r: 2, s: word } } rules { } }") = .ok d ∧
      (d.tests.map (·.facts.map Expr.instantiation?),
        (Compiler.generate {} d).toOption.map (·.testClause? "t")) =
        ([[some ("x", "U"), some ("a", "T")]],
          some (some "test('t') :- X = o_1(1), A = o_2('word',2,X,Y,_).")) :=
    exists_ok_of_map (by decide +kernel)
  simp only [Prod.mk.injEq] at answer
  obtain ⟨p, generated, clause⟩ := exists_ok_of_map answer.2
  obtain ⟨th, fit⟩ := assignments_fit parsed generated
  exact ⟨d, p, th, parsed, generated, answer.1, clause, fit⟩

/-- A name may be assigned before it is instantiated, and then be instantiated with another object. -/
theorem later_fact_unchecked :
    ∃ d p, Compiler.parse ("object U { n: int } object W { n: int } object T { f: U } " ++
        "test t { facts { a: T { f: x }, x: W { n: 1 } } rules { } }") = .ok d ∧
      Compiler.generate {} d = .ok p ∧
      (d.objects.find? "T").map Object.fields = some [⟨"f", .object "U"⟩] ∧
      d.tests = [⟨"t", [.creation "a" "T" [("f", .ident "x")],
        .creation "x" "W" [("n", .int 1)]], []⟩] ∧
      ⟨.test "t", "test('t') :- A = o_3(X), X = o_2(1)."⟩ ∈ p.clauses := by
  obtain ⟨d, parsed, answer⟩ : ∃ d, Compiler.parse
      ("object U { n: int } object W { n: int } object T { f: U } " ++
        "test t { facts { a: T { f: x }, x: W { n: 1 } } rules { } }") = .ok d ∧
      ((d.objects.find? "T").map Object.fields, d.tests,
        (Compiler.generate {} d).toOption.map fun p =>
          decide (⟨.test "t", "test('t') :- A = o_3(X), X = o_2(1)."⟩ ∈ p.clauses)) =
        (some [⟨"f", .object "U"⟩], [⟨"t", [.creation "a" "T" [("f", .ident "x")],
          .creation "x" "W" [("n", .int 1)]], []⟩], some true) := exists_ok_of_map (by decide +kernel)
  simp only [Prod.mk.injEq] at answer
  obtain ⟨fields, tests, written⟩ := answer
  obtain ⟨p, generated, member⟩ := exists_ok_of_map written
  exact ⟨d, p, parsed, generated, fields, tests, of_decide_eq_true member⟩

end Rulebook
