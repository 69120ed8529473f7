import Rulebook.Proofs.Program.Reorder

/-!
# Declarations are found again in their program

Every declaration has its own clauses: an accessor for each field of an object, and one clause for
each relation, rule and test. Their kinds differ (`nodup_clauseKinds`), because declarations of one
kind have distinct names, so looking for the first clause of a kind finds the only one.
-/

namespace Rulebook

/-! ## Looking up clauses -/

namespace Program

variable {p : Program} {kind : ClauseKind}

/-- If no two clauses have one kind, the clause of a kind is found. -/
theorem clause?_of_mem (distinct : (p.clauses.map WrittenClause.kind).Nodup) {c : WrittenClause}
    (member : c ∈ p.clauses) : p.clause? c.kind = some c.text := by
  have known : (p.clauses.find? (·.kind == c.kind)).isSome = true :=
    List.find?_isSome.mpr ⟨c, member, beq_self_eq_true _⟩
  obtain ⟨c', found⟩ := Option.isSome_iff_exists.mp known
  have same : c'.kind = c.kind := by simpa using List.find?_some found
  have only := List.inj_on_of_nodup_map distinct (List.mem_of_find?_eq_some found) member same
  rw [clause?, found, only, Option.map_some]

theorem clause?_eq_none (absent : kind ∉ p.clauses.map WrittenClause.kind) :
    p.clause? kind = none := by
  rw [clause?, Option.map_eq_none_iff, List.find?_eq_none]
  intro c member same
  exact absent (List.mem_map.mpr ⟨c, member, by simpa using same⟩)

/-- Clauses of the kinds of some things are found as the clauses of these things. -/
theorem forall₂_clause? {α : Type} {o : Options} (distinct : (p.clauses.map WrittenClause.kind).Nodup)
    {kindOf : α → ClauseKind} {as : List α} {clauses : List Logic.Clause}
    (kinds : clauses.map Logic.Clause.kind = as.map kindOf)
    (members : ∀ c ∈ clauses, c.written o ∈ p.clauses) :
    List.Forall₂ (fun a c => p.clause? (kindOf a) = some (c.text o)) as clauses := by
  induction as generalizing clauses with
  | nil =>
    rw [List.map_nil, List.map_eq_nil_iff] at kinds
    rw [kinds]
    exact .nil
  | cons a as ih =>
    obtain ⟨c, rest, rfl, kind, later⟩ := List.map_eq_cons_iff.mp kinds
    rw [List.forall_mem_cons] at members
    refine .cons ?_ (ih later members.2)
    rw [← kind]
    exact clause?_of_mem distinct members.1

end Program

/-! ## Kinds of clauses -/

namespace Document

/-- The kinds of the clauses that a document should have, in order. -/
def clauseKinds (d : Document) : List ClauseKind :=
  d.objects.values.flatMap (fun o => o.fields.map fun f => .accessor o.name f.name) ++
  d.relations.keys.map .directive ++ d.rules.keys.map .rule ++ d.testNames.map .test ++
  [.testCases]

variable {d : Document}

theorem rule_mem_clauseKinds {name : String} : .rule name ∈ d.clauseKinds ↔ name ∈ d.rules.keys := by
  simp [clauseKinds]

theorem test_mem_clauseKinds {name : String} : .test name ∈ d.clauseKinds ↔ name ∈ d.testNames := by
  simp [clauseKinds]

/-- No two declarations of a regular document have clauses of one kind. -/
theorem Regular.nodup_clauseKinds (regular : d.Regular) (tests : d.testNames.Nodup) :
    d.clauseKinds.Nodup := by
  have accessors : (d.objects.values.flatMap fun o =>
      o.fields.map fun f => ClauseKind.accessor o.name f.name).Nodup := by
    rw [List.nodup_flatMap]
    constructor
    · intro o declared
      have fields := (regular.fields o declared).map fun f g same =>
        (@ClauseKind.accessor.inj o.name f o.name g same).2
      rwa [List.map_map] at fields
    · have names : (d.objects.values.map Object.name).Nodup := by
        rw [regular.map_name_objects]
        exact d.objects.distinct
      refine (List.pairwise_map.mp names).imp fun {o o'} other kind here there => ?_
      obtain ⟨f, _, rfl⟩ := List.mem_map.mp here
      obtain ⟨g, _, same⟩ := List.mem_map.mp there
      exact other (ClauseKind.accessor.inj same).1.symm
  have directives : (d.relations.keys.map ClauseKind.directive).Nodup :=
    d.relations.distinct.map fun _ _ => ClauseKind.directive.inj
  have rules : (d.rules.keys.map ClauseKind.rule).Nodup :=
    d.rules.distinct.map fun _ _ => ClauseKind.rule.inj
  have testKinds : (d.testNames.map ClauseKind.test).Nodup := tests.map fun _ _ => ClauseKind.test.inj
  refine (((accessors.append directives ?_).append rules ?_).append testKinds ?_).append
    (List.nodup_singleton _) ?_
  -- Clauses that stand for things of different kinds have different kinds.
  all_goals
    intro kind here there
    cases kind <;> simp at here there

end Document

namespace Lowering

open Logic (Clause)

variable {naming : Naming} {d : Document}

/-- The object with the number after a place stands there. -/
theorem mem_numbered_iff {o : Object} {i : Nat} :
    (o, i + 1) ∈ numbered d ↔ d.objects.values[i]? = some o := by
  rw [numbered, List.mem_zipIdx_iff_le_and_getElem?_sub]
  simp

theorem map_kind_theory (regular : d.Regular) {th : Theory} (lowered : theory naming d = .ok th) :
    th.clauses.map Clause.kind = d.clauseKinds := by
  obtain ⟨_, rs, k₁, ts, k₂, rules, tests, rfl⟩ := theory_eq_ok_iff.mp lowered
  have objects : ((numbered d).flatMap accessors).map Clause.kind =
      d.objects.values.flatMap fun o => o.fields.map fun f => .accessor o.name f.name := by
    rw [List.map_flatMap, ← map_fst_numbered, List.flatMap_map]
    exact List.flatMap_congr fun q _ => map_kind_accessors q.1 q.2
  have directives : (d.relations.values.map fun r => Clause.directive r.name r.arity).map Clause.kind =
      d.relations.keys.map .directive := by
    rw [← Table.map_values_eq_keys regular.relations, List.map_map, List.map_map]
    rfl
  simp only [List.map_append, objects, directives, map_kind_rules regular rules,
    map_kind_tests tests]
  rfl

end Lowering

/-! ## Accessors -/

/-- The text of a clause that is an accessor of the object of this name. -/
def WrittenClause.accessor? (object : String) (c : WrittenClause) : Option String :=
  match c.kind with
  | .accessor owner _ => if owner = object then some c.text else none
  | _ => none

section

variable {o : Options} {d : Document} {p : Program}

theorem filterMap_accessor? (q : Object × Nat) (name : String) :
    (Lowering.accessors q).filterMap (fun c => (c.written o).accessor? name) =
      if q.1.name == name then (Lowering.accessors q).map (Logic.Clause.text o) else [] := by
  rw [Lowering.accessors, List.filterMap_map, List.map_map]
  by_cases own : q.1.name = name
  · rw [if_pos (by simpa using own), ← List.filterMap_eq_map]
    refine List.filterMap_congr fun f _ => ?_
    exact if_pos own
  · rw [if_neg (by simpa using own), List.filterMap_eq_nil_iff]
    intro f _
    exact if_neg own

/-- Among the accessors of all objects, those under a name are those of the objects of this name. -/
theorem filterMap_accessor?_flatMap (objects : List (Object × Nat)) (name : String) :
    (objects.flatMap Lowering.accessors).filterMap (fun c => (c.written o).accessor? name) =
      (objects.filter (·.1.name == name)).flatMap fun q =>
        (Lowering.accessors q).map (Logic.Clause.text o) := by
  simp only [List.filterMap_flatMap, filterMap_accessor?]
  induction objects with
  | nil => rfl
  | cons q rest ih =>
    rw [List.flatMap_cons, ih, List.filter_cons]
    split <;> simp

/-- Clauses of another kind are no accessors. -/
theorem filterMap_accessor?_eq_nil {clauses : List Logic.Clause} {make : String → ClauseKind}
    {names : List String} (kinds : clauses.map Logic.Clause.kind = names.map make)
    (other : ∀ x owner field, make x ≠ .accessor owner field) (name : String) :
    clauses.filterMap (fun c => (c.written o).accessor? name) = [] := by
  rw [List.filterMap_eq_nil_iff]
  intro c member
  have kind := List.mem_map_of_mem (f := Logic.Clause.kind) member
  rw [kinds] at kind
  obtain ⟨x, _, same⟩ := List.mem_map.mp kind
  cases c with
  | accessor _ owner field _ _ => exact absurd same (other x owner field)
  | directive | rule | test | testCases => rfl

/-- The accessors under a name are those of the objects of this name. -/
theorem accessors_eq (regular : d.Regular) {th : Lowering.Theory}
    (lowered : Lowering.theory o.toNaming d = .ok th)
    (written : p.clauses = th.clauses.map (·.written o)) (name : String) :
    p.accessors name = ((Lowering.numbered d).filter (·.1.name == name)).flatMap fun q =>
      (Lowering.accessors q).map (Logic.Clause.text o) := by
  obtain ⟨_, rs, k₁, ts, k₂, rules, tests, rfl⟩ := Lowering.theory_eq_ok_iff.mp lowered
  have directives : (d.relations.values.map fun r =>
      Logic.Clause.directive r.name r.arity).map Logic.Clause.kind =
      (d.relations.values.map Relation.name).map .directive := by
    rw [List.map_map, List.map_map]
    rfl
  show p.clauses.filterMap (WrittenClause.accessor? name) = _
  simp only [written, List.filterMap_map, Function.comp_def, List.filterMap_append,
    filterMap_accessor?_flatMap, filterMap_accessor?_eq_nil directives (by simp),
    filterMap_accessor?_eq_nil (Lowering.map_kind_rules regular rules) (by simp),
    filterMap_accessor?_eq_nil (Lowering.map_kind_tests tests) (by simp)]
  simp [WrittenClause.accessor?, Logic.Clause.written, Logic.Clause.kind]

end

/-! ## Looking up declarations -/

/-- The document has the declarations of each kind in their order. -/
structure Document.Lists (d : Document) (ws : List Written.Declaration) : Prop where
  objects : d.objects.entries = ws.filterMap Written.Declaration.object?
  relations : d.relations.entries = ws.filterMap Written.Declaration.relation?
  rules : d.rules.entries = ws.filterMap Written.Declaration.rule?
  tests : d.tests = ws.filterMap Written.Declaration.test?

theorem Written.lists_document {ws : List Declaration} (distinct : Distinct ws) :
    (document ws).Lists ws where
  objects := Table.entries_ofList <| @nodup_keys_filterMap ws _ Declaration.object? .object distinct
    fun w => by cases w <;> rfl
  relations := Table.entries_ofList <| @nodup_keys_filterMap ws _ Declaration.relation? .relation
    distinct fun w => by cases w <;> rfl
  rules := Table.entries_ofList <| @nodup_keys_filterMap ws _ Declaration.rule? .rule distinct
    fun w => by cases w <;> rfl
  tests := rfl

/-- What is found in the program of a document whose rules and tests have become these clauses. -/
structure Program.Finds (o : Options) (d : Document) (rs ts : List Logic.Clause) (p : Program) :
    Prop where
  kinds : p.clauses.map WrittenClause.kind = d.clauseKinds
  /-- An object is called by its place among the objects. -/
  symbol : ∀ i object, d.objects.values[i]? = some object →
    p.symbol? object.name = some (o.objectPrefix ++ toString (i + 1))
  accessors : ∀ i object, d.objects.values[i]? = some object →
    p.accessors object.name = (Lowering.accessors (object, i + 1)).map (Logic.Clause.text o)
  rules : List.Forall₂ (fun r c => p.ruleClause? r.name = some (c.text o)) d.rules.values rs
  tests : List.Forall₂ (fun t c => p.testClause? t.name = some (c.text o)) d.tests ts
  noObject : ∀ name ∉ d.objects.keys, p.symbol? name = none ∧ p.accessors name = []
  noRule : ∀ name ∉ d.rules.keys, p.ruleClause? name = none
  noTest : ∀ name ∉ d.testNames, p.testClause? name = none

theorem finds_of_generate {o : Options} {d : Document} {p : Program} (regular : d.Regular)
    (distinct : d.testNames.Nodup) (generated : Compiler.generate o d = .ok p) :
    ∃ rs ts k k',
      Lowering.Each (Lowering.rule (.of o.toNaming d)) d.objects.values.length d.rules.values rs k ∧
      Lowering.Each (Lowering.test (.of o.toNaming d)) k d.tests ts k' ∧ p.Finds o d rs ts := by
  obtain ⟨th, lowered, written⟩ := exists_theory_of_generate generated
  have accessors := accessors_eq regular lowered written
  have kinds : p.clauses.map WrittenClause.kind = d.clauseKinds := by
    rw [written, List.map_map, ← Lowering.map_kind_theory regular lowered]
    rfl
  have nodup : (p.clauses.map WrittenClause.kind).Nodup := by
    rw [kinds]
    exact regular.nodup_clauseKinds distinct
  have names : ((Lowering.numbered d).map fun q => q.1.name).Nodup := by
    rw [regular.map_name_numbered]
    exact d.objects.distinct
  obtain ⟨_, rs, k, ts, k', rules, tests, rfl⟩ := Lowering.theory_eq_ok_iff.mp lowered
  refine ⟨rs, ts, k, k', rules, tests, kinds, ?_, ?_, ?_, ?_, ?_, ?_, ?_⟩
  · intro i object declared
    exact (symbol?_eq_some_iff regular generated).mpr
      ⟨object, i + 1, Lowering.mem_numbered_iff.mpr declared, rfl, rfl⟩
  · intro i object declared
    have only := filter_key_eq names (Lowering.mem_numbered_iff.mpr declared)
    rw [accessors, only, List.flatMap_singleton]
  · refine Program.forall₂_clause? nodup ?_ fun c member => ?_
    · rw [Lowering.map_kind_rules regular rules, ← Table.map_values_eq_keys regular.rules,
        List.map_map]
      rfl
    · rw [written]
      exact List.mem_map_of_mem (by simp [member])
  · refine Program.forall₂_clause? nodup ?_ fun c member => ?_
    · rw [Lowering.map_kind_tests tests, Document.testNames, List.map_map]
      rfl
    · rw [written]
      exact List.mem_map_of_mem (by simp [member])
  · intro name absent
    have none : ∀ q ∈ Lowering.numbered d, q.1.name ≠ name := by
      intro q member same
      apply absent
      rw [← regular.map_name_objects, ← same]
      exact List.mem_map_of_mem (List.fst_mem_of_mem_zipIdx member)
    constructor
    · refine Option.eq_none_iff_forall_ne_some.mpr fun symbol found => ?_
      obtain ⟨object, i, member, named, _⟩ := (symbol?_eq_some_iff regular generated).mp found
      exact none _ member named
    · rw [accessors, List.filter_eq_nil_iff.mpr fun q member => by simpa using none q member]
      rfl
  · intro name absent
    refine Program.clause?_eq_none ?_
    rwa [kinds, Document.rule_mem_clauseKinds]
  · intro name absent
    refine Program.clause?_eq_none ?_
    rwa [kinds, Document.test_mem_clauseKinds]

/-- The program of a text has the clauses of its declarations in their order, and each is found under
the name of its declaration. Nothing is found under any other name. -/
theorem declarations_found {o : Options} {text : String} {p : Program}
    (compiled : Compiler.compile o text = .ok p) :
    ∃ tokens ws d rs ts k k',
      Scans text tokens ∧ Grammar.Declarations (significant tokens) ws ∧
      Compiler.parse text = .ok d ∧ d.Lists ws ∧
      Lowering.Each (Lowering.rule (.of o.toNaming d)) d.objects.values.length d.rules.values rs k ∧
      Lowering.Each (Lowering.test (.of o.toNaming d)) k d.tests ts k' ∧ p.Finds o d rs ts := by
  obtain ⟨d, parsed, generated⟩ := compile_eq_ok_iff.mp compiled
  obtain ⟨rs, ts, k, k', found⟩ := finds_of_generate (regular_of_parse parsed)
    (nodup_testNames_of_parse parsed) generated
  obtain ⟨tokens, ws, scans, grammar, distinct, rfl⟩ := parse_ok_iff.mp parsed
  exact ⟨tokens, ws, _, rs, ts, k, k', scans, grammar, parsed, Written.lists_document distinct, found⟩

/-- Of two objects the second has two fields, and the rule and the test have one name. -/
theorem declarations_found_mixed :
    ∃ p, Compiler.compile {} ("test s { facts { b: B { m: 1, n: 2 }, r(b) } rules { s(b) } } " ++
        "object A { x: int } relation r { b: B } object B { m: int, n: int } " ++
        "rule s { input { b: B } rules { b.m < b.n } }") = .ok p ∧
      p.symbol? "B" = some "o_2" ∧
      p.accessors "B" = ["o_2_m(Value, Object) :- Object = o_2(Value,_).",
        "o_2_n(Value, Object) :- Object = o_2(_,Value)."] ∧
      p.ruleClause? "s" = some "s(B) :- o_2_m(V_3, B), o_2_n(V_4, B), @<(V_3,V_4)." ∧
      ∃ d rs ts, d.objects.values.map Object.name = ["A", "B"] ∧ p.Finds {} d rs ts := by
  let text := "test s { facts { b: B { m: 1, n: 2 }, r(b) } rules { s(b) } } " ++
    "object A { x: int } relation r { b: B } object B { m: int, n: int } " ++
    "rule s { input { b: B } rules { b.m < b.n } }"
  let found? (d : Document) := (Compiler.generate {} d).toOption.map fun p =>
    (p.symbol? "B", p.accessors "B", p.ruleClause? "s")
  have answer : (Compiler.parse text).toOption.map
      (fun d => (d.objects.values.map Object.name, found? d)) =
      some (["A", "B"], some (some "o_2",
        ["o_2_m(Value, Object) :- Object = o_2(Value,_).",
          "o_2_n(Value, Object) :- Object = o_2(_,Value)."],
        some "s(B) :- o_2_m(V_3, B), o_2_n(V_4, B), @<(V_3,V_4).")) := by decide +kernel
  obtain ⟨d, parsed, facts⟩ := exists_ok_of_map answer
  obtain ⟨objects, found⟩ := Prod.mk.inj facts
  obtain ⟨p, generated, lookups⟩ := exists_ok_of_map found
  simp only [Prod.mk.injEq] at lookups
  have compiled : Compiler.compile {} text = .ok p := compile_eq_ok_iff.mpr ⟨d, parsed, generated⟩
  obtain ⟨_, _, _, rs, ts, _, _, _, _, parsed', _, _, _, finds⟩ := declarations_found compiled
  cases parsed.symm.trans parsed'
  exact ⟨p, compiled, lookups.1, lookups.2.1, lookups.2.2, d, rs, ts, objects, finds⟩

end Rulebook
