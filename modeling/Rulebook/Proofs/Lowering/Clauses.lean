import Rulebook.Proofs.Lowering.Symbols

/-!
# The clauses of a document

Which clauses a lowered document has: each of them comes from a declaration (`clause_cases`), and each
declaration has the clauses that it should have.
-/

namespace Rulebook.Lowering

variable {naming : Naming} {d : Document} {th : Theory}

/-- What lowering gives for a thing stands where the thing stands. -/
theorem Each.exists_at {α β : Type} {f : α → Lower β} {k k' : Nat} {as : List α} {bs : List β}
    (each : Each f k as bs k') {i : Nat} {a : α} (here : as[i]? = some a) :
    ∃ b k k', bs[i]? = some b ∧ Gives (f a) k b k' := by
  induction each generalizing i with
  | nil => simp at here
  | cons first _ ih =>
    cases i with
    | zero =>
      cases here
      exact ⟨_, _, _, rfl, first⟩
    | succ i => exact ih here

/-- What holds of each thing and what lowering gives for it holds place by place. -/
theorem Each.forall₂ {α β : Type} {f : α → Lower β} {k k' : Nat} {as : List α} {bs : List β}
    {R : α → β → Prop} (each : Each f k as bs k')
    (holds : ∀ a ∈ as, ∀ b k k', Gives (f a) k b k' → R a b) : List.Forall₂ R as bs := by
  induction each with
  | nil => exact .nil
  | cons first _ ih =>
    rw [List.forall_mem_cons] at holds
    exact .cons (holds.1 _ _ _ first) (ih holds.2)

theorem Each.length_eq {α β : Type} {f : α → Lower β} {k k' : Nat} {as : List α} {bs : List β}
    (each : Each f k as bs k') : bs.length = as.length := by
  induction each with
  | nil => rfl
  | cons _ _ ih => rw [List.length_cons, List.length_cons, ih]

/-- A clause is an accessor, a directive, a rule, a test or the list of tests. -/
theorem clause_cases (lowered : theory naming d = .ok th) {c : Logic.Clause}
    (member : c ∈ th.clauses) :
    (∃ o i f position, (o, i) ∈ numbered d ∧ o.fields[position]? = some f ∧
      c = .accessor i o.name f.name position o.fields.length) ∨
    (∃ r ∈ d.relations.values, c = .directive r.name r.arity) ∨
    (∃ r ∈ d.rules.values, ∃ k k', Gives (rule (.of naming d) r) k c k') ∨
    (∃ t ∈ d.tests, ∃ k k', Gives (test (.of naming d) t) k c k') ∨
    c = .testCases d.testNames := by
  obtain ⟨_, rs, k₁, ts, k₂, rules, tests, rfl⟩ := theory_eq_ok_iff.mp lowered
  simp only [List.mem_append, List.mem_flatMap, List.mem_map, List.mem_singleton] at member
  rcases member with (((⟨p, numbered, here⟩ | ⟨r, declared, rfl⟩) | rule) | test) | rfl
  · obtain ⟨q, place, rfl⟩ := List.mem_map.mp here
    exact .inl ⟨p.1, p.2, q.1, q.2, numbered, List.mem_zipIdx_iff_getElem?.mp place, rfl⟩
  · exact .inr (.inl ⟨r, declared, rfl⟩)
  · exact .inr (.inr (.inl (rules.exists_of_mem rule)))
  · exact .inr (.inr (.inr (.inl (tests.exists_of_mem test))))
  · exact .inr (.inr (.inr (.inr rfl)))

theorem accessor_mem_clauses (lowered : theory naming d = .ok th) {o : Object} {i position : Nat}
    {f : Field} (member : (o, i) ∈ numbered d) (here : o.fields[position]? = some f) :
    .accessor i o.name f.name position o.fields.length ∈ th.clauses := by
  obtain ⟨_, rs, k₁, ts, k₂, rules, tests, rfl⟩ := theory_eq_ok_iff.mp lowered
  simp only [List.mem_append, List.mem_flatMap]
  refine .inl (.inl (.inl (.inl ⟨(o, i), member, ?_⟩)))
  exact List.mem_map.mpr ⟨(f, position), List.mem_zipIdx_iff_getElem?.mpr here, rfl⟩

theorem directive_mem_clauses (lowered : theory naming d = .ok th) {r : Relation}
    (declared : r ∈ d.relations.values) : .directive r.name r.arity ∈ th.clauses := by
  obtain ⟨_, rs, k₁, ts, k₂, rules, tests, rfl⟩ := theory_eq_ok_iff.mp lowered
  simp only [List.mem_append]
  exact .inl (.inl (.inl (.inr (List.mem_map.mpr ⟨r, declared, rfl⟩))))

theorem exists_rule_clause (lowered : theory naming d = .ok th) {r : Rule}
    (declared : r ∈ d.rules.values) :
    ∃ k c k', Gives (rule (.of naming d) r) k c k' ∧ c ∈ th.clauses := by
  obtain ⟨_, rs, k₁, ts, k₂, rules, tests, rfl⟩ := theory_eq_ok_iff.mp lowered
  obtain ⟨i, here⟩ := List.getElem?_of_mem declared
  obtain ⟨c, k, k', there, gives⟩ := rules.exists_at here
  refine ⟨k, c, k', gives, ?_⟩
  simp only [List.mem_append]
  exact .inl (.inl (.inr (List.mem_of_getElem? there)))

theorem exists_test_clause (lowered : theory naming d = .ok th) {t : Test}
    (declared : t ∈ d.tests) :
    ∃ k c k', Gives (test (.of naming d) t) k c k' ∧ c ∈ th.clauses := by
  obtain ⟨_, rs, k₁, ts, k₂, rules, tests, rfl⟩ := theory_eq_ok_iff.mp lowered
  obtain ⟨i, here⟩ := List.getElem?_of_mem declared
  obtain ⟨c, k, k', there, gives⟩ := tests.exists_at here
  refine ⟨k, c, k', gives, ?_⟩
  simp only [List.mem_append]
  exact .inl (.inr (List.mem_of_getElem? there))

end Rulebook.Lowering
