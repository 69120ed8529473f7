import Rulebook.Proofs.Lowering.Accepts
import Rulebook.Proofs.Lowering.Origin
import Rulebook.Proofs.Logic.Name
import Rulebook.Proofs.Logic.Occurrence

/-!
# Variables of clauses

Lowering gives field accesses consecutive numbers, in the order of their goals. With any numbering
of places that agrees with this order, the variables of what lowering gives are those that the
origins of the document say. All places are different, so there is such a numbering, and two
variables are written alike only if they come from the same name or the same access.
-/

namespace Rulebook

/-- The variable of an origin, for a numbering of places. -/
def Origin.var (number : Place → Nat) : Origin → Logic.Var
  | user name => .user name
  | access place => .fresh (number place)

/-! ## Numbers of places -/

/-- The places have consecutive numbers after the number `k`. -/
def Numbered (number : Place → Nat) (k : Nat) (places : List Place) : Prop :=
  places.map number = List.range' (k + 1) places.length

theorem numbered_append {number : Place → Nat} {k : Nat} {ps qs : List Place} :
    Numbered number k (ps ++ qs) ↔ Numbered number k ps ∧ Numbered number (k + ps.length) qs := by
  have after : k + ps.length + 1 = k + 1 + ps.length := by omega
  unfold Numbered
  rw [List.map_append, List.length_append, ← List.range'_append_1, after]
  constructor
  · intro h
    exact List.append_inj h (by simp)
  · intro ⟨first, second⟩
    rw [first, second]

/-- Different places can be numbered. -/
theorem exists_numbered {places : List Place} (distinct : places.Nodup) (k : Nat) :
    ∃ number, Numbered number k places := by
  refine ⟨fun p => k + 1 + places.idxOf p, List.ext_getElem (by simp) fun i h _ => ?_⟩
  rw [List.length_map] at h
  simp [distinct.idxOf_getElem i h]

namespace Lowering

/-- The occurrences of a lowered expression. -/
def Lowered.occurrences (l : Lowered) : Occurrences Nat Logic.Var :=
  ⟨l.prerequisites.flatMap Logic.Goal.results, l.prerequisites.flatMap Logic.Goal.vars,
    l.value.vars⟩

/-- What is lowered from the number `k` on follows its origins: it takes a number for each access,
and its variables are those of the origins, none of them reserved. -/
structure Follows (naming : Naming) (number : Place → Nat) (k : Nat)
    (origins : Occurrences Place Origin) (lowered : Occurrences Nat Logic.Var) (k' : Nat) :
    Prop where
  count : k' = k + origins.accesses.length
  same : lowered = origins.map number (Origin.var number)
  free : ∀ name, .user name ∈ origins.goals ++ origins.value → ¬ naming.Reserved name

section

variable {naming : Naming} {number : Place → Nat} {d : Document} {site : Site} {k k' : Nat}

/-- What follows its origins one by one. -/
theorem follows_each {α β : Type} {f : α → Lower β} {origins : Place → α → Occurrences Place Origin}
    {view : β → Occurrences Nat Logic.Var} {as : List α} {bs : List β} {place : Place} {i : Nat}
    (each : Each f k as bs k')
    (step : ∀ a ∈ as, ∀ p k b k', Gives (f a) k b k' → Numbered number k (origins p a).accesses →
      Follows naming number k (origins p a) (view b) k')
    (numbered : Numbered number k (Occurrences.join (placed origins place i as)).accesses) :
    k' = k + (Occurrences.join (placed origins place i as)).accesses.length ∧
    bs.map view = (placed origins place i as).map (Occurrences.map number (Origin.var number)) ∧
    ∀ o ∈ placed origins place i as, ∀ name, .user name ∈ o.goals ++ o.value →
      ¬ naming.Reserved name := by
  induction each generalizing i with
  | nil => exact ⟨rfl, rfl, nofun⟩
  | @cons k k₁ k' a as b bs first later ih =>
    simp only [placed, Occurrences.join, List.flatMap_cons] at numbered
    obtain ⟨here, there⟩ := numbered_append.mp numbered
    obtain ⟨count, same, free⟩ := step a List.mem_cons_self _ _ _ _ first here
    rw [← count] at there
    obtain ⟨counts, sames, frees⟩ :=
      ih (fun c member => step c (List.mem_cons_of_mem a member)) there
    refine ⟨?_, ?_, ?_⟩
    · simp only [placed, Occurrences.join, List.flatMap_cons, List.length_append] at counts ⊢
      omega
    · rw [placed, List.map_cons, List.map_cons, same, sames]
    · rw [placed]
      exact List.forall_mem_cons.mpr ⟨free, frees⟩

/-- What follows its origins one by one does so as a whole. -/
theorem follows_join {α β : Type} {f : α → Lower β} {origins : Place → α → Occurrences Place Origin}
    {view : β → Occurrences Nat Logic.Var} {as : List α} {bs : List β} {place : Place} {i : Nat}
    (each : Each f k as bs k')
    (step : ∀ a ∈ as, ∀ p k b k', Gives (f a) k b k' → Numbered number k (origins p a).accesses →
      Follows naming number k (origins p a) (view b) k')
    (numbered : Numbered number k (Occurrences.join (placed origins place i as)).accesses) :
    Follows naming number k (.join (placed origins place i as)) (.join (bs.map view)) k' := by
  obtain ⟨count, same, free⟩ := follows_each each step numbered
  refine ⟨count, by rw [same, Occurrences.map_join], fun name member => ?_⟩
  simp only [Occurrences.join, List.mem_append, List.mem_flatMap] at member
  rcases member with ⟨o, here, occurs⟩ | ⟨o, here, occurs⟩
  · exact free o here name (List.mem_append_left _ occurs)
  · exact free o here name (List.mem_append_right _ occurs)

/-! ## Expressions -/

theorem vars_plainTerm (number : Place → Nat) (t : Term) :
    (plainTerm t).vars = t.origins.map (Origin.var number) := by
  induction t with
  | int | float | string | ident | var => rfl
  | field name value ih => exact ih

theorem user_mem_origins {t : Term} {name : String} :
    .user name ∈ t.origins ↔ t.variable? = some name := by
  simp [Term.origins, eq_comm]

theorem assigned?_map (assigned : List (String × Term)) (field : String) :
    assigned? (assigned.map fun a => .term (.field a.1 a.2)) field =
      (assigned.find? (·.1 == field)).map Prod.snd := by
  induction assigned with
  | nil => rfl
  | cons a rest ih =>
    by_cases here : a.1 = field
    · simp [assigned?, here]
    · have skipped : (a.1 == field) = false := by simpa using here
      rw [List.map_cons, List.find?_cons, skipped, ← ih]
      simp [assigned?, here]

/-- A field of an object type holds the variable that it is assigned; other fields hold none. -/
theorem vars_of_fills {assigned : List (String × Term)} {f : Field} {v : Logic.Term}
    (fills : Fills naming assigned f v) (number : Place → Nat) :
    v.vars =
      (f.origins (assigned.map fun a => .term (.field a.1 a.2))).map (Origin.var number) ∧
    ∀ name, .user name ∈ f.origins (assigned.map fun a => .term (.field a.1 a.2)) →
      ¬ naming.Reserved name := by
  unfold Field.origins
  rw [assigned?_map]
  cases fills with
  | «open» none =>
    rw [none]
    cases f.type <;> exact ⟨rfl, nofun⟩
  | assigned found admitted =>
    rw [found]
    generalize f.type = type at admitted
    cases admitted with
    | string | name | int | whole | float => exact ⟨rfl, nofun⟩
    | «open» free | object free =>
      refine ⟨rfl, fun name member => ?_⟩
      have same := user_mem_origins.mp member
      cases same
      exact free

theorem vars_of_fills_all {assigned : List (String × Term)} {fields : List Field}
    {values : List Logic.Term} (fills : List.Forall₂ (Fills naming assigned) fields values)
    (number : Place → Nat) :
    values.flatMap Logic.Term.vars =
      (fields.flatMap (·.origins (assigned.map fun a => .term (.field a.1 a.2)))).map
        (Origin.var number) ∧
    ∀ f ∈ fields, ∀ name, .user name ∈ f.origins (assigned.map fun a => .term (.field a.1 a.2)) →
      ¬ naming.Reserved name := by
  induction fills with
  | nil => exact ⟨rfl, nofun⟩
  | cons first _ ih =>
    obtain ⟨same, free⟩ := vars_of_fills first number
    rw [List.flatMap_cons, List.flatMap_cons, List.map_append, same, ih.1]
    exact ⟨rfl, List.forall_mem_cons.mpr ⟨free, ih.2⟩⟩

theorem follows_instantiate {args : List Node} {l : Lowered}
    (gives : Gives (instantiate (.of naming d) site args) k l k') :
    Follows naming number k { value := d.instanceOrigins args } l.occurrences k' := by
  obtain ⟨name, objectName, o, symbol, assigned, values, rfl, found, _, _, fills, free, rfl, rfl⟩ :=
    gives_instantiate.mp gives
  replace found : d.objects.find? objectName = some o := found
  obtain ⟨same, frees⟩ := vars_of_fills_all fills number
  refine ⟨rfl, ?_, ?_⟩
  · simp [Lowered.occurrences, Logic.Term.vars, same, Document.instanceOrigins, found,
      Occurrences.map, Origin.var]
  · intro x member
    simp only [Document.instanceOrigins, found, Option.toList_some, List.flatMap_singleton,
      List.nil_append, List.mem_cons, Origin.user.injEq, List.mem_flatMap] at member
    rcases member with rfl | ⟨f, here, occurs⟩
    · exact free
    · exact frees f here x occurs

/-- The goal of a field access comes last and introduces the next number. -/
theorem follows_project {t : Target} {a : Access} {field : String} {place : Place} {k₁ : Nat}
    {origins : Occurrences Place Origin}
    (target : Follows naming number k origins
      (Lowered.occurrences ⟨.var t.value, t.goals⟩) k₁)
    (gives : Gives (project (.of naming d) site t field) k₁ a k')
    (numbered : Numbered number k (origins.access place).accesses) :
    Follows naming number k (origins.access place)
      (Lowered.occurrences ⟨.var (.fresh a.result), a.goals⟩) k' := by
  obtain ⟨o, symbol, position, f, _, _, _, rfl, rfl⟩ := gives_project.mp gives
  rcases target with ⟨count, same, free⟩
  obtain ⟨_, last⟩ := numbered_append.mp numbered
  have fresh : number place = k₁ + 1 := by
    rw [← count] at last
    simpa [Numbered] using last
  simp only [Lowered.occurrences, Logic.Term.vars, Occurrences.map,
    Occurrences.mk.injEq] at same
  rcases same with ⟨results, vars, value⟩
  refine ⟨?_, ?_, ?_⟩
  · simp only [Occurrences.access, List.length_append, List.length_singleton]
    omega
  · simp [Lowered.occurrences, Occurrences.access, Occurrences.map, results, vars, ← value,
      Origin.var, fresh, Logic.Goal.results, Logic.Goal.vars, Logic.Term.vars]
  · intro name member
    simp only [Occurrences.access, List.mem_append, List.mem_cons, reduceCtorEq, false_or,
      List.not_mem_nil, or_false] at member
    exact free name (List.mem_append.mpr member)

/-- The occurrences of applied arguments are those of the arguments. -/
theorem occurrences_apply (f : Logic.Functor) (ls : List Lowered) :
    Lowered.occurrences ⟨.apply f (ls.map Lowered.value), ls.flatMap Lowered.prerequisites⟩ =
      .join (ls.map Lowered.occurrences) := by
  simp [Lowered.occurrences, Occurrences.join, Logic.Term.vars, List.flatMap_assoc,
    List.flatMap_map]

theorem follows_node {n : Node} {place : Place} {l : Lowered}
    (gives : Gives (node (.of naming d) site n) k l k')
    (numbered : Numbered number k (n.origins d place).accesses) :
    Follows naming number k (n.origins d place) l.occurrences k' := by
  induction n using Node.induction generalizing place k l k' with
  | term t =>
    obtain ⟨free, rfl, rfl⟩ := gives_node_term.mp gives
    refine ⟨rfl, ?_, fun name member => free name (user_mem_origins.mp member)⟩
    simp [Lowered.occurrences, Node.origins, Occurrences.map, vars_plainTerm number]
  | app functor args ih =>
    unfold Node.origins at numbered ⊢
    by_cases new : functor = Expr.newFunctor
    · subst new
      rw [if_pos rfl]
      exact follows_instantiate (gives_node_new.mp gives)
    · rw [if_neg new] at numbered ⊢
      by_cases accesses : functor = Expr.accessFunctor
      · subst accesses
        rw [if_pos rfl] at numbered ⊢
        obtain ⟨a, ha, rfl⟩ := gives_node_access.mp gives
        obtain ⟨left, right, field, t, k₁, rfl, _, ht, hp⟩ := gives_access.mp ha
        have target := ih left (by simp) (gives_node_of_target ht) (numbered_append.mp numbered).1
        exact follows_project target hp numbered
      · rw [if_neg accesses, Node.originsFrom_eq_placed] at numbered ⊢
        obtain ⟨_, ls, each, rfl⟩ := (gives_node_apply new accesses).mp gives
        rw [occurrences_apply]
        exact follows_join each (fun n member _ _ _ _ => ih n member) numbered

/-! ## Rules and tests -/

theorem Follows.closed {o : Occurrences Place Origin} {l : Occurrences Nat Logic.Var}
    (h : Follows naming number k o l k') : Follows naming number k o.closed l.closed k' := by
  refine ⟨h.count, by rw [h.same, Occurrences.map_closed], fun name member => h.free name ?_⟩
  simpa [Occurrences.closed] using member

theorem Follows.asserted {o : Occurrences Place Origin} {l : Occurrences Nat Logic.Var}
    (h : Follows naming number k o l k') : Follows naming number k o.asserted l.asserted k' := by
  refine ⟨h.count, by rw [h.same, Occurrences.map_asserted], fun name member => h.free name ?_⟩
  simp only [Occurrences.asserted, List.mem_append] at member ⊢
  tauto

/-- The occurrences of goals and of the facts that they add. -/
def goalOccurrences (goals : List Logic.Goal) (facts : List Logic.Term) :
    Occurrences Nat Logic.Var :=
  ⟨goals.flatMap Logic.Goal.results, goals.flatMap Logic.Goal.vars, facts.flatMap Logic.Term.vars⟩

theorem occurrences_goals (l : Lowered) : goalOccurrences l.goals [] = l.occurrences.closed := by
  simp [goalOccurrences, Lowered.goals, Lowered.occurrences, Occurrences.closed, Logic.Goal.results,
    Logic.Goal.vars]

theorem goalOccurrences_join {β : Type} (goals : β → List Logic.Goal) (facts : β → List Logic.Term)
    (bs : List β) :
    Occurrences.join (bs.map fun b => goalOccurrences (goals b) (facts b)) =
      goalOccurrences (bs.flatMap goals) (bs.flatMap facts) := by
  simp [goalOccurrences, Occurrences.join, List.flatMap_assoc, List.flatMap_map]

theorem follows_expr {e : Expr} {place : Place} {l : Lowered}
    (gives : Gives (expr (.of naming d) site e) k l k')
    (numbered : Numbered number k (e.goalOrigins d place).accesses) :
    Follows naming number k (e.goalOrigins d place) (goalOccurrences l.goals []) k' := by
  rw [occurrences_goals]
  exact (follows_node gives numbered).closed

theorem follows_body {es : List Expr} {place : Place} {ls : List Lowered}
    (each : Each (expr (.of naming d) site) k es ls k')
    (numbered : Numbered number k
      (Occurrences.join (placed (Expr.goalOrigins d) place 0 es)).accesses) :
    Follows naming number k (.join (placed (Expr.goalOrigins d) place 0 es))
      (goalOccurrences (ls.flatMap Lowered.goals) []) k' := by
  have joined := goalOccurrences_join Lowered.goals (fun _ => []) ls
  rw [List.flatMap_eq_nil_iff.mpr fun _ _ => rfl] at joined
  rw [← joined]
  exact follows_join each (fun _ _ _ _ _ _ => follows_expr) numbered

theorem follows_fact {e : Expr} {place : Place} {r : List Logic.Goal × List Logic.Term}
    (gives : Gives (fact (.of naming d) site e) k r k')
    (numbered : Numbered number k (e.factOrigins d place).accesses) :
    Follows naming number k (e.factOrigins d place) (goalOccurrences r.1 r.2) k' := by
  unfold Expr.factOrigins at numbered ⊢
  by_cases new : e.functor = Expr.newFunctor
  · rw [if_pos new] at numbered ⊢
    obtain ⟨l, hl, rfl⟩ := (gives_fact_new new).mp gives
    exact follows_expr hl numbered
  · rw [if_neg new, Node.originsFrom_eq_placed] at numbered ⊢
    obtain ⟨_, ls, each, rfl⟩ := (gives_fact new).mp gives
    have args := follows_join each
      (fun _ _ _ _ _ _ => follows_node) numbered
    rw [← occurrences_apply (.predicate e.functor)] at args
    have same : goalOccurrences
        (ls.flatMap Lowered.prerequisites ++
          [.assert (.apply (.predicate e.functor) (ls.map Lowered.value))])
        [.apply (.predicate e.functor) (ls.map Lowered.value)] =
        (Lowered.occurrences ⟨.apply (.predicate e.functor) (ls.map Lowered.value),
          ls.flatMap Lowered.prerequisites⟩).asserted := by
      simp [goalOccurrences, Lowered.occurrences, Occurrences.asserted, Logic.Goal.results,
        Logic.Goal.vars]
    rw [same]
    exact args.asserted

/-- Facts are taken away in both branches; without facts there is nothing to write. -/
theorem occurrences_cleaningUp (checks : List Logic.Goal) (facts : List Logic.Term) :
    goalOccurrences (cleaningUp checks facts) [] =
      ⟨checks.flatMap Logic.Goal.results,
        checks.flatMap Logic.Goal.vars ++
          (facts.flatMap Logic.Term.vars ++ facts.flatMap Logic.Term.vars), []⟩ := by
  cases facts with
  | nil => simp [cleaningUp, goalOccurrences]
  | cons fact rest =>
    simp [cleaningUp, goalOccurrences, Logic.Goal.results, Logic.Goal.vars, List.flatMap_map]

end

end Lowering

/-- The occurrences of a clause. -/
def Logic.Clause.occurrences (c : Logic.Clause) : Occurrences Nat Logic.Var :=
  { accesses := c.results, goals := c.vars }

namespace Lowering

variable {naming : Naming} {number : Place → Nat} {d : Document} {k k' : Nat}

theorem follows_rule {r : Rule} {place : Place} {c : Logic.Clause}
    (gives : Gives (rule (.of naming d) r) k c k')
    (numbered : Numbered number k (r.origins d place).accesses) :
    Follows naming number k (r.origins d place) c.occurrences k' := by
  obtain ⟨params, ls, each, rfl⟩ := gives_rule.mp gives
  obtain ⟨count, same, free⟩ := follows_body each numbered
  simp only [goalOccurrences, Occurrences.map, Occurrences.mk.injEq] at same
  rcases same with ⟨results, vars, _⟩
  refine ⟨count, ?_, ?_⟩
  · simp [Logic.Clause.occurrences, Logic.Clause.results, Logic.Clause.vars, Rule.origins,
      Occurrences.map, results, vars, List.flatMap_map, List.map_flatMap, vars_plainTerm number]
  · intro name member
    simp only [Rule.origins, List.append_nil, List.mem_append, List.mem_flatMap] at member
    rcases member with ⟨t, here, occurs⟩ | occurs
    · exact params t here name (user_mem_origins.mp occurs)
    · exact free name (List.mem_append_left _ occurs)

theorem follows_test {t : Test} {place : Place} {c : Logic.Clause}
    (gives : Gives (test (.of naming d) t) k c k')
    (numbered : Numbered number k (t.origins d place).accesses) :
    Follows naming number k (t.origins d place) c.occurrences k' := by
  obtain ⟨_, fs, k₁, ls, facts, checks, rfl⟩ := gives_test.mp gives
  obtain ⟨first, second⟩ := numbered_append.mp numbered
  have given : Follows naming number k
      (.join (placed (Expr.factOrigins d) (place ++ [0]) 0 t.facts))
      (.join (fs.map fun f => goalOccurrences f.1 f.2)) k₁ :=
    follows_join facts (fun _ _ _ _ _ _ => follows_fact) first
  rw [← given.count] at second
  have asked := follows_body checks second
  have sameFacts := given.same
  have sameChecks := asked.same
  rw [goalOccurrences_join Prod.fst Prod.snd] at sameFacts
  have cleaned := occurrences_cleaningUp (ls.flatMap Lowered.goals) (fs.flatMap Prod.snd)
  simp only [goalOccurrences, Occurrences.map, Occurrences.mk.injEq] at sameFacts sameChecks cleaned
  refine ⟨?_, ?_, ?_⟩
  · rw [asked.count, given.count, Test.origins, List.length_append]
    omega
  · simp [Logic.Clause.occurrences, Logic.Clause.results, Logic.Clause.vars, Test.origins,
      Occurrences.map, cleaned, sameFacts, sameChecks]
  · intro name member
    simp only [Test.origins, List.append_nil, List.mem_append] at member
    rcases member with occurs | occurs | occurs | occurs
    · exact given.free name (List.mem_append_left _ occurs)
    · exact asked.free name (List.mem_append_left _ occurs)
    · exact given.free name (List.mem_append_right _ occurs)
    · exact given.free name (List.mem_append_right _ occurs)

/-! ## Documents -/

/-- The clauses with a body are those of the rules and of the tests. -/
theorem filter_hasBody_eq {th : Theory} (lowered : theory naming d = .ok th) :
    ∃ rs k₁ ts k₂, Each (rule (.of naming d)) d.objects.values.length d.rules.values rs k₁ ∧
      Each (test (.of naming d)) k₁ d.tests ts k₂ ∧
      th.clauses.filter Logic.Clause.hasBody = rs ++ ts := by
  obtain ⟨_, rs, k₁, ts, k₂, rules, tests, rfl⟩ := theory_eq_ok_iff.mp lowered
  refine ⟨rs, k₁, ts, k₂, rules, tests, ?_⟩
  have objects : ((numbered d).flatMap accessors).filter Logic.Clause.hasBody = [] := by
    rw [List.filter_eq_nil_iff]
    intro c member
    obtain ⟨_, _, here⟩ := List.mem_flatMap.mp member
    obtain ⟨_, _, rfl⟩ := List.mem_map.mp here
    exact Bool.false_ne_true
  have relations : (d.relations.values.map fun r =>
      Logic.Clause.directive r.name r.arity).filter Logic.Clause.hasBody = [] := by
    rw [List.filter_eq_nil_iff]
    intro c member
    obtain ⟨_, _, rfl⟩ := List.mem_map.mp member
    exact Bool.false_ne_true
  have ruleClauses : rs.filter Logic.Clause.hasBody = rs := by
    rw [List.filter_eq_self]
    intro c member
    obtain ⟨r, _, _, _, gives⟩ := rules.exists_of_mem member
    obtain ⟨_, _, _, rfl⟩ := gives_rule.mp gives
    rfl
  have testClauses : ts.filter Logic.Clause.hasBody = ts := by
    rw [List.filter_eq_self]
    intro c member
    obtain ⟨t, _, _, _, gives⟩ := tests.exists_of_mem member
    obtain ⟨_, _, _, _, _, _, rfl⟩ := gives_test.mp gives
    rfl
  simp only [List.filter_append, objects, relations, ruleClauses, testClauses, List.nil_append]
  simp [Logic.Clause.hasBody]

/-- The clauses of a document have the variables that its origins say. -/
theorem occurrences_theory {th : Theory} (lowered : theory naming d = .ok th)
    (numbers : Numbered number d.objects.values.length
      (d.origins.flatMap Occurrences.accesses)) :
    (th.clauses.filter Logic.Clause.hasBody).map Logic.Clause.occurrences =
      d.origins.map (Occurrences.map number (Origin.var number)) ∧
    ∀ o ∈ d.origins, ∀ name, .user name ∈ o.goals ++ o.value → ¬ naming.Reserved name := by
  obtain ⟨rs, k₁, ts, k₂, rules, tests, clauses⟩ := filter_hasBody_eq lowered
  rw [Document.origins, List.flatMap_append] at numbers
  obtain ⟨first, second⟩ := numbered_append.mp numbers
  obtain ⟨count, sameRules, freeRules⟩ :=
    follows_each rules (fun _ _ _ _ _ _ => follows_rule) first
  have later : Numbered number k₁
      (Occurrences.join (placed (Test.origins d) [1] 0 d.tests)).accesses := by
    rw [count]
    exact second
  obtain ⟨_, sameTests, freeTests⟩ :=
    follows_each tests (fun _ _ _ _ _ _ => follows_test) later
  refine ⟨?_, ?_⟩
  · rw [clauses, List.map_append, sameRules, sameTests, Document.origins, List.map_append]
  · intro o member
    rcases List.mem_append.mp member with member | member
    · exact freeRules o member
    · exact freeTests o member

end Lowering

/-- A name that is written like a fresh variable is reserved. -/
theorem Naming.reserved_of_fresh {naming : Naming} {name : String} {n : Nat}
    (h : Logic.variableName name = naming.fresh n) : naming.Reserved name := by
  have chars := congrArg String.toList h
  rw [Logic.variableName, String.toList_ofList, Naming.toList_fresh] at chars
  exact ⟨(toString n).toList, digits_toString n, chars⟩

/-- No fresh variable is the anonymous one. -/
theorem Naming.fresh_ne_anonymous (naming : Naming) (n : Nat) : naming.fresh n ≠ "_" := by
  intro h
  have chars : naming.variablePrefix.toList ++ (toString n).toList = ['_'] := by
    rw [← Naming.toList_fresh, h]
    rfl
  obtain ⟨some, all⟩ := digits_toString n
  obtain ⟨c, member⟩ := List.exists_mem_of_ne_nil _ some
  have here : c ∈ ['_'] := by
    rw [← chars]
    exact List.mem_append_right _ member
  have digit := all c member
  rw [List.mem_singleton.mp here] at digit
  exact absurd digit (by decide)

namespace Document

/-- The origins of all variables of rules and tests. -/
def occurring (d : Document) : List Origin := d.origins.flatMap Occurrences.goals

theorem mem_accesses_of_occurring {d : Document} {p : Place} (member : .access p ∈ d.occurring) :
    p ∈ d.origins.flatMap Occurrences.accesses := by
  obtain ⟨o, here, occurs⟩ := List.mem_flatMap.mp member
  exact List.mem_flatMap.mpr ⟨o, here, d.bound_origins o here p (List.mem_append_left _ occurs)⟩

end Document

/-- The variables of clauses keep apart what is different. -/
structure Hygienic (o : Options) (d : Document) (clauses : List Logic.Clause)
    (number : Place → Nat) : Prop where
  /-- The variables in the writing of rules and tests come from the origins of the document. -/
  origins : (clauses.filter Logic.Clause.hasBody).map (fun c => Logic.Piece.vars (c.pieces o)) =
    d.origins.map fun r => r.goals.map (Origin.var number)
  /-- Where an access should be, a node takes a field. -/
  accesses : ∀ place, .access place ∈ d.occurring →
    ∃ args, d.node? place = some (.app Expr.accessFunctor args)
  /-- Two of them are written alike exactly if they come from the same name or the same access. -/
  alike : ∀ a ∈ d.occurring, ∀ b ∈ d.occurring,
    (a.var number).text o.toNaming = (b.var number).text o.toNaming ↔ a = b
  /-- A variable of the document is not written like any fresh one. -/
  apart : ∀ name, .user name ∈ d.occurring → ∀ n, Logic.variableName name ≠ o.toNaming.fresh n
  /-- A fresh variable is introduced in the clause where it occurs, and nowhere else. -/
  introduced : ∀ c ∈ clauses, ∀ n, .fresh n ∈ Logic.Piece.vars (c.pieces o) →
    n ∈ c.results ∧ (clauses.flatMap Logic.Clause.results).count n = 1
  /-- None of them is the anonymous variable. -/
  named : ∀ a ∈ d.occurring, (a.var number).text o.toNaming ≠ "_"

namespace Lowering

variable {o : Options} {d : Document} {th : Theory} {number : Place → Nat}

theorem text_var_inj (lowered : theory o.toNaming d = .ok th)
    (numbers : Numbered number d.objects.values.length (d.origins.flatMap Occurrences.accesses))
    {a b : Origin} (ha : a ∈ d.occurring) (hb : b ∈ d.occurring)
    (h : (a.var number).text o.toNaming = (b.var number).text o.toNaming) : a = b := by
  obtain ⟨_, free⟩ := occurrences_theory lowered numbers
  have user {name : String} (member : .user name ∈ d.occurring) : ¬ o.toNaming.Reserved name := by
    obtain ⟨r, here, occurs⟩ := List.mem_flatMap.mp member
    exact free r here name (List.mem_append_left _ occurs)
  cases a with
  | user name =>
    cases b with
    | user name' => rw [Logic.variableName_inj h]
    | access q => exact absurd (Naming.reserved_of_fresh h) (user ha)
  | access p =>
    cases b with
    | user name => exact absurd (Naming.reserved_of_fresh h.symm) (user hb)
    | access q =>
      have same : number p = number q := Naming.fresh_inj h
      have distinct : ((d.origins.flatMap Occurrences.accesses).map number).Nodup := by
        rw [numbers]
        exact List.nodup_range'
      rw [List.inj_on_of_nodup_map distinct (Document.mem_accesses_of_occurring ha)
        (Document.mem_accesses_of_occurring hb) same]

theorem hasBody_of_mem_vars {c : Logic.Clause} {v : Logic.Var} (member : v ∈ c.vars) :
    c.hasBody = true := by
  cases c with
  | rule | test => rfl
  | accessor | directive | testCases => cases member

/-- What only rules and tests have. -/
theorem flatMap_filter_hasBody {β : Type} {f : Logic.Clause → List β}
    (none : ∀ c, c.hasBody = false → f c = []) (clauses : List Logic.Clause) :
    (clauses.filter Logic.Clause.hasBody).flatMap f = clauses.flatMap f := by
  induction clauses with
  | nil => rfl
  | cons c rest ih =>
    by_cases has : c.hasBody = true
    · rw [List.filter_cons_of_pos has, List.flatMap_cons, List.flatMap_cons, ih]
    · rw [List.filter_cons_of_neg has, List.flatMap_cons, none c (by simpa using has),
        List.nil_append, ih]

theorem flatMap_results_filter (clauses : List Logic.Clause) :
    (clauses.filter Logic.Clause.hasBody).flatMap Logic.Clause.results =
      clauses.flatMap Logic.Clause.results := by
  refine flatMap_filter_hasBody (fun c none => ?_) clauses
  cases c with
  | rule | test => cases none
  | accessor | directive | testCases => rfl

/-- The accessor goals of all clauses introduce the numbers of the accesses, one each. -/
theorem flatMap_results_theory (lowered : theory o.toNaming d = .ok th)
    (numbers : Numbered number d.objects.values.length (d.origins.flatMap Occurrences.accesses)) :
    th.clauses.flatMap Logic.Clause.results =
      (d.origins.flatMap Occurrences.accesses).map number := by
  obtain ⟨same, _⟩ := occurrences_theory lowered numbers
  have results := congrArg (List.flatMap Occurrences.accesses) same
  rw [List.flatMap_map, List.flatMap_map] at results
  rw [← flatMap_results_filter, List.map_flatMap]
  exact results

theorem introduced_of_mem_vars (lowered : theory o.toNaming d = .ok th)
    (numbers : Numbered number d.objects.values.length (d.origins.flatMap Occurrences.accesses))
    {c : Logic.Clause} (here : c ∈ th.clauses) {n : Nat} (occurs : .fresh n ∈ c.vars) :
    n ∈ c.results ∧ (th.clauses.flatMap Logic.Clause.results).count n = 1 := by
  obtain ⟨same, _⟩ := occurrences_theory lowered numbers
  have lists : c.occurrences ∈ d.origins.map (Occurrences.map number (Origin.var number)) := by
    rw [← same]
    exact List.mem_map_of_mem (List.mem_filter.mpr ⟨here, hasBody_of_mem_vars occurs⟩)
  obtain ⟨r, declared, whole⟩ := List.mem_map.mp lists
  have results : c.results = r.accesses.map number := (congrArg Occurrences.accesses whole).symm
  have vars : c.vars = r.goals.map (Origin.var number) := (congrArg Occurrences.goals whole).symm
  have member : n ∈ c.results := by
    rw [vars] at occurs
    obtain ⟨a, inside, denotes⟩ := List.mem_map.mp occurs
    cases a with
    | user name => cases denotes
    | access p =>
      cases denotes
      rw [results]
      exact List.mem_map_of_mem
        (d.bound_origins r declared p (List.mem_append_left _ inside))
  refine ⟨member, List.count_eq_one_of_mem ?_ (List.mem_flatMap.mpr ⟨c, here, member⟩)⟩
  rw [flatMap_results_theory lowered numbers, numbers]
  exact List.nodup_range'

end Lowering

/-- The variables of a program are hygienic. The clauses of the program are written piece by piece,
and the variables among the pieces come from names and field accesses of the document: they are
written alike only if they come from the same one, a name is never written like a fresh variable,
each fresh variable is introduced by one accessor goal, and none is anonymous. -/
theorem variables_hygienic {o : Options} {d : Document} {p : Program}
    (generated : Compiler.generate o d = .ok p) :
    ∃ (th : Lowering.Theory) (number : Place → Nat), Lowering.theory o.toNaming d = .ok th ∧
      p.clauses = th.clauses.map (fun c => ⟨c.kind, Logic.Piece.join o.toNaming (c.pieces o)⟩) ∧
      Hygienic o d th.clauses number := by
  obtain ⟨th, lowered, written⟩ := exists_theory_of_generate generated
  obtain ⟨number, numbers⟩ := exists_numbered d.nodup_accesses d.objects.values.length
  obtain ⟨same, free⟩ := Lowering.occurrences_theory lowered numbers
  refine ⟨th, number, lowered, ?_, ?_⟩
  · rw [written]
    simp only [Logic.Clause.written, Logic.Clause.join_pieces]
  · constructor
    case origins =>
      have vars := congrArg (List.map Occurrences.goals) same
      rw [List.map_map, List.map_map] at vars
      simp only [Logic.Clause.vars_pieces]
      exact vars
    case accesses =>
      intro place member
      exact Document.node?_of_mem_accesses (Document.mem_accesses_of_occurring member)
    case alike =>
      intro a ha b hb
      constructor
      · intro h
        exact Lowering.text_var_inj lowered numbers ha hb h
      · intro h
        rw [h]
    case apart =>
      intro name member n equal
      obtain ⟨r, here, occurs⟩ := List.mem_flatMap.mp member
      exact free r here name (List.mem_append_left _ occurs) (Naming.reserved_of_fresh equal)
    case introduced =>
      intro c here n occurs
      rw [Logic.Clause.vars_pieces] at occurs
      exact Lowering.introduced_of_mem_vars lowered numbers here occurs
    case named =>
      intro a _
      cases a with
      | user name => exact Logic.variableName_ne_anonymous name
      | access place => exact Naming.fresh_ne_anonymous o.toNaming _

/-- A rule with a field of a field: six variables, from one name and two accesses. -/
theorem variables_hygienic_nested :
    ∃ (d : Document) (p : Program) (th : Lowering.Theory) (number : Place → Nat),
      Compiler.parse "object A { x: A, n: int } rule r { input { a: A } rules { a.x.n > 1 } }" =
        .ok d ∧
      Compiler.generate {} d = .ok p ∧
      d.occurring = [.user "a", .access [0, 0, 0, 0, 0], .user "a", .access [0, 0, 0, 0],
        .access [0, 0, 0, 0, 0], .access [0, 0, 0, 0]] ∧
      p.clauses = th.clauses.map (fun c => ⟨c.kind, Logic.Piece.join {} (c.pieces {})⟩) ∧
      Hygienic {} d th.clauses number := by
  have occurring : (Compiler.parse
      "object A { x: A, n: int } rule r { input { a: A } rules { a.x.n > 1 } }").toOption.map
        Document.occurring =
      some [.user "a", .access [0, 0, 0, 0, 0], .user "a", .access [0, 0, 0, 0],
        .access [0, 0, 0, 0, 0], .access [0, 0, 0, 0]] := by
    decide +kernel
  rcases exists_program_nested with ⟨d, p, parsed, generated⟩
  obtain ⟨th, number, _, written, hygienic⟩ := variables_hygienic generated
  rw [parsed] at occurring
  exact ⟨d, p, th, number, parsed, generated, Option.some.inj occurring, written, hygienic⟩

end Rulebook
