import Rulebook.Proofs.Logic.Name
import Rulebook.Proofs.Lowering.Clauses
import Rulebook.Proofs.Lowering.Meaning

/-!
# Names of a program keep apart

A program names objects, accessors, rules and relations, and the clauses that run its tests name a few
predicates of their own. An `Entity` is one of these things. Two entities of a document never share a
name, neither the name itself nor the way in which it is written, so every predicate of a program
belongs to one declaration.
-/

namespace Rulebook

/-- What a name of a program stands for. -/
inductive Entity where
  /-- The functor of the values of an object. -/
  | object (name : String)
  /-- The predicate that takes a field of an object. -/
  | accessor (object field : String)
  | rule (name : String)
  | relation (name : String)
  /-- A predicate that runs tests. -/
  | driver (name : String)
  deriving Repr, DecidableEq

namespace Entity

/-- Objects and accessors have generated names. -/
def isGenerated : Entity → Bool
  | object _ | accessor _ _ => true
  | rule _ | relation _ | driver _ => false

/-- The name of an entity in a program, which knows the names of the objects. -/
def name? (p : Program) : Entity → Option String
  | object x => p.symbol? x
  | accessor x field => (p.symbol? x).map fun symbol => symbol ++ "_" ++ field
  | rule x | relation x | driver x => some x

/-- How the name is written: a generated name as it is, every other one as an atom. -/
def text? (p : Program) (e : Entity) : Option String :=
  if e.isGenerated then e.name? p else (e.name? p).map Logic.atom

end Entity

/-- The entities that a document declares, and the predicates that run its tests. -/
def Document.entities (d : Document) : List Entity :=
  d.objects.values.map (fun o => .object o.name) ++
  d.objects.values.flatMap (fun o => o.fields.map fun f => .accessor o.name f.name) ++
  d.rules.keys.map .rule ++ d.relations.keys.map .relation ++
  Lowering.reservedPredicates.map .driver

/-- The entity whose predicate a clause of this kind is about. All tests define one predicate. -/
def ClauseKind.entity : ClauseKind → Entity
  | accessor object field => .accessor object field
  | directive relation => .relation relation
  | rule name => .rule name
  | test _ => .driver "test"
  | testCases => .driver "test_cases"

namespace Document

variable {d : Document}

theorem object_mem_entities {x : String} :
    .object x ∈ d.entities ↔ ∃ object ∈ d.objects.values, object.name = x := by
  simp [entities]

theorem accessor_mem_entities {x f : String} :
    .accessor x f ∈ d.entities ↔
      ∃ object ∈ d.objects.values, object.name = x ∧ ∃ field ∈ object.fields, field.name = f := by
  simp only [entities, List.mem_append, List.mem_map, List.mem_flatMap, reduceCtorEq, and_false,
    exists_false, false_or, or_false, Entity.accessor.injEq]
  constructor
  · intro ⟨object, here, field, there, named, fieldNamed⟩
    exact ⟨object, here, named, field, there, fieldNamed⟩
  · intro ⟨object, here, named, field, there, fieldNamed⟩
    exact ⟨object, here, field, there, named, fieldNamed⟩

theorem rule_mem_entities {x : String} : .rule x ∈ d.entities ↔ x ∈ d.rules.keys := by
  simp [entities]

theorem relation_mem_entities {x : String} : .relation x ∈ d.entities ↔ x ∈ d.relations.keys := by
  simp [entities]

theorem driver_mem_entities {x : String} :
    .driver x ∈ d.entities ↔ x ∈ Lowering.reservedPredicates := by
  simp [entities]

end Document

/-! ## Predicates in the text of clauses -/

namespace Logic

/-- A clause is about a predicate: it starts with the name, before arguments, a body or the end, or it
lets facts of the predicate come and go. -/
def Heads (name text : String) : Prop :=
  (∃ rest, text = name ++ "(" ++ rest) ∨ (∃ rest, text = name ++ " :- " ++ rest) ∨
  text = name ++ "." ∨ ∃ rest, text = ":- dynamic(" ++ name ++ "/" ++ rest

theorem heads_clauseText (functor : String) (args body : List String) :
    Heads functor (clauseText (applied functor args) body) := by
  cases args with
  | nil =>
    cases body with
    | nil => exact .inr (.inr (.inl rfl))
    | cons goal goals =>
      refine .inr (.inl ⟨", ".intercalate (goal :: goals) ++ ".", ?_⟩)
      simp [clauseText, applied, String.append_assoc]
  | cons arg args =>
    left
    cases body with
    | nil =>
      refine ⟨",".intercalate (arg :: args) ++ ").", ?_⟩
      simp [clauseText, applied, String.append_assoc]
    | cons goal goals =>
      refine ⟨",".intercalate (arg :: args) ++ ") :- " ++ ", ".intercalate (goal :: goals) ++ ".", ?_⟩
      simp [clauseText, applied, String.append_assoc]

theorem Clause.heads (o : Options) (c : Clause) : Heads (c.predicate o.toNaming) (c.text o) := by
  cases c with
  | accessor object owner field position arity =>
    refine .inl ⟨"Value, Object) :- Object = " ++ o.toNaming.object object ++ "(" ++
      ",".intercalate (pick position arity) ++ ").", ?_⟩
    have start : "(Value, Object) :- Object = " = "(" ++ "Value, Object) :- Object = " := by decide
    show o.toNaming.accessor object field ++ "(Value, Object) :- Object = " ++
      o.toNaming.object object ++ "(" ++ ",".intercalate (pick position arity) ++ ")." = _
    rw [start]
    simp only [predicate, String.append_assoc]
  | directive relation arity =>
    refine .inr (.inr (.inr ⟨toString arity ++ ").", ?_⟩))
    show ":- dynamic(" ++ atom relation ++ "/" ++ toString arity ++ ")." = _
    simp only [predicate, String.append_assoc]
  | rule name params body => exact heads_clauseText ..
  | test name body => exact heads_clauseText "test" [quoted name] (Goal.texts o body)
  | testCases names =>
    refine .inl ⟨"[" ++ ",".intercalate (names.map quoted) ++ "]).", ?_⟩
    have start : "test_cases([" = "test_cases" ++ "(" ++ "[" := by decide
    show "test_cases([" ++ ",".intercalate (names.map quoted) ++ "])." = _
    rw [start]
    simp only [predicate, String.append_assoc]

end Logic

/-! ## Names of objects -/

section

variable {o : Options} {d : Document} {p : Program}

theorem symbols_of_generate (generated : Compiler.generate o d = .ok p) :
    p.symbols = .ofList (d.objects.keys.filterMap fun key =>
      ((Lowering.symbolTable d).find? key).map fun i => (key, o.toNaming.object i)) := by
  unfold Compiler.generate Program.ofDocument at generated
  cases lowered : Lowering.theory o.toNaming d with
  | error e => simp [lowered, bind, Except.bind, Except.mapError] at generated
  | ok th =>
    obtain ⟨_, _, _, _, _, _, _, rfl⟩ := Lowering.theory_eq_ok_iff.mp lowered
    simp only [lowered, bind, Except.bind, Except.mapError, pure, Except.pure,
      Except.ok.injEq] at generated
    rw [← generated]

/-- A program knows the name of every declared object, by its number, and of nothing else. -/
theorem symbol?_eq_some_iff (regular : d.Regular) (generated : Compiler.generate o d = .ok p)
    {x symbol : String} :
    p.symbol? x = some symbol ↔
      ∃ object i, (object, i) ∈ Lowering.numbered d ∧ object.name = x ∧
        symbol = o.toNaming.object i := by
  have keys : ((d.objects.keys.filterMap fun key => ((Lowering.symbolTable d).find? key).map
      fun i => (key, o.toNaming.object i)).map Prod.fst).Nodup := by
    rw [List.map_filterMap]
    refine d.objects.distinct.filterMap ?_
    intro x y z hx hy
    simp only [Option.map_map, Option.mem_def, Option.map_eq_some_iff, Function.comp_apply] at hx hy
    rcases hx with ⟨_, _, rfl⟩
    rcases hy with ⟨_, _, same⟩
    exact same.symm
  unfold Program.symbol?
  rw [symbols_of_generate generated, Table.find?_eq_some_iff, Table.entries_ofList keys,
    List.mem_filterMap]
  constructor
  · intro ⟨key, declared, h⟩
    obtain ⟨i, found, same⟩ := Option.map_eq_some_iff.mp h
    cases same
    obtain ⟨object, here⟩ := Option.isSome_iff_exists.mp (Table.contains_iff.mpr declared)
    exact ⟨object, i, (regular.symbolTable_find? here).mp found, regular.object_name here, rfl⟩
  · intro ⟨object, i, member, named, same⟩
    obtain ⟨entry, here, owner⟩ := List.mem_map.mp (List.fst_mem_of_mem_zipIdx member)
    replace owner : entry.2 = object := owner
    have key : entry.1 = x := by rw [regular.objects entry here, owner, named]
    have found : d.objects.find? x = some object := by
      rw [Table.find?_eq_some_iff, ← key, ← owner]
      exact here
    refine ⟨x, key ▸ List.mem_map_of_mem here, ?_⟩
    rw [(regular.symbolTable_find? found).mpr member, Option.map_some, same]

/-- Every object of a document has a number and so a name. -/
theorem exists_symbol_of_mem (regular : d.Regular) (generated : Compiler.generate o d = .ok p)
    {object : Object} (declared : object ∈ d.objects.values) :
    ∃ i, p.symbol? object.name = some (o.toNaming.object i) := by
  rw [← Lowering.map_fst_numbered] at declared
  obtain ⟨q, member, rfl⟩ := List.mem_map.mp declared
  exact ⟨q.2, (symbol?_eq_some_iff regular generated).mpr ⟨q.1, q.2, member, rfl, rfl⟩⟩

/-- Objects with one name in the program are one object. -/
theorem symbol?_inj (regular : d.Regular) (generated : Compiler.generate o d = .ok p)
    {x y symbol : String} (hx : p.symbol? x = some symbol) (hy : p.symbol? y = some symbol) :
    x = y := by
  obtain ⟨object, i, member, rfl, rfl⟩ := (symbol?_eq_some_iff regular generated).mp hx
  obtain ⟨object', j, member', rfl, same⟩ := (symbol?_eq_some_iff regular generated).mp hy
  obtain rfl := Naming.object_inj same
  rw [Lowering.numbered_inj member member']

/-! ## Names of entities -/

/-- No predicate that runs tests has a digit in its name. -/
theorem not_isDigit_of_reserved {name : String} (reserved : name ∈ Lowering.reservedPredicates) :
    ∀ c ∈ name.toList, c.isDigit = false := by
  have none : (Lowering.reservedPredicates.all fun name => name.toList.all fun c => !c.isDigit) =
      true := by decide
  intro c here
  simpa using List.all_eq_true.mp (List.all_eq_true.mp none name reserved) c here

/-- No predicate that runs tests has a generated name. -/
theorem not_taken_of_reserved {naming : Naming} {name : String}
    (reserved : name ∈ Lowering.reservedPredicates) : ¬ naming.Taken name := by
  intro taken
  obtain ⟨c, here, digit⟩ := taken.exists_digit
  rw [not_isDigit_of_reserved reserved c here] at digit
  cases digit

/-- Every entity of a document has a name, and it is taken exactly if it is generated. -/
theorem exists_name (regular : d.Regular) (generated : Compiler.generate o d = .ok p) {e : Entity}
    (declared : e ∈ d.entities) :
    ∃ name, e.name? p = some name ∧ (o.toNaming.Taken name ↔ e.isGenerated = true) := by
  obtain ⟨th, lowered, _⟩ := exists_theory_of_generate generated
  have correct := (Lowering.exists_theory_iff regular).mp ⟨th, lowered⟩
  cases e with
  | object x =>
    obtain ⟨object, here, rfl⟩ := Document.object_mem_entities.mp declared
    obtain ⟨i, symbol⟩ := exists_symbol_of_mem regular generated here
    exact ⟨_, symbol, iff_of_true (Naming.taken_object i) rfl⟩
  | accessor x f =>
    obtain ⟨object, here, rfl, _⟩ := Document.accessor_mem_entities.mp declared
    obtain ⟨i, symbol⟩ := exists_symbol_of_mem regular generated here
    refine ⟨o.toNaming.accessor i f, ?_, iff_of_true (Naming.taken_accessor i f) rfl⟩
    rw [Entity.name?, symbol]
    rfl
  | rule x =>
    have free := (correct.predicates x (.inl (Document.rule_mem_entities.mp declared))).2
    exact ⟨x, rfl, iff_of_false free Bool.false_ne_true⟩
  | relation x =>
    have free := (correct.predicates x (.inr (Document.relation_mem_entities.mp declared))).2
    exact ⟨x, rfl, iff_of_false free Bool.false_ne_true⟩
  | driver x =>
    have free : ¬ o.toNaming.Taken x :=
      not_taken_of_reserved (Document.driver_mem_entities.mp declared)
    exact ⟨x, rfl, iff_of_false free Bool.false_ne_true⟩

/-- A generated name tells the object, and the field if there is one. -/
theorem generated_name?_inj (regular : d.Regular) (generated : Compiler.generate o d = .ok p)
    {e e' : Entity} (he : e.isGenerated = true) (he' : e'.isGenerated = true) {name : String}
    (named : e.name? p = some name) (named' : e'.name? p = some name) : e = e' := by
  have symbols {x symbol : String} (h : p.symbol? x = some symbol) :
      ∃ i, symbol = o.toNaming.object i := by
    obtain ⟨_, i, _, _, same⟩ := (symbol?_eq_some_iff regular generated).mp h
    exact ⟨i, same⟩
  cases e with
  | object x =>
    obtain ⟨i, rfl⟩ := symbols named
    cases e' with
    | object y => rw [symbol?_inj regular generated named named']
    | accessor y g =>
      obtain ⟨symbol, hy, same⟩ := Option.map_eq_some_iff.mp named'
      obtain ⟨j, rfl⟩ := symbols hy
      exact absurd same.symm (Naming.object_ne_accessor i j g)
    | rule _ | relation _ | driver _ => cases he'
  | accessor x f =>
    obtain ⟨symbol, hx, rfl⟩ := Option.map_eq_some_iff.mp named
    obtain ⟨i, rfl⟩ := symbols hx
    cases e' with
    | object y =>
      obtain ⟨j, same⟩ := symbols named'
      exact absurd same.symm (Naming.object_ne_accessor j i f)
    | accessor y g =>
      obtain ⟨symbol, hy, same⟩ := Option.map_eq_some_iff.mp named'
      obtain ⟨j, rfl⟩ := symbols hy
      obtain ⟨rfl, rfl⟩ := Naming.accessor_inj same
      rw [symbol?_inj regular generated hx hy]
    | rule _ | relation _ | driver _ => cases he'
  | rule _ | relation _ | driver _ => cases he

/-- Every other entity is called by its own name. -/
theorem declared_name?_cases {e : Entity} (declared : e ∈ d.entities) (own : e.isGenerated = false)
    {name : String} (named : e.name? p = some name) :
    (e = .rule name ∧ name ∈ d.rules.keys) ∨ (e = .relation name ∧ name ∈ d.relations.keys) ∨
      (e = .driver name ∧ name ∈ Lowering.reservedPredicates) := by
  cases e with
  | object _ | accessor _ _ => cases own
  | rule x =>
    cases named
    exact .inl ⟨rfl, Document.rule_mem_entities.mp declared⟩
  | relation x =>
    cases named
    exact .inr (.inl ⟨rfl, Document.relation_mem_entities.mp declared⟩)
  | driver x =>
    cases named
    exact .inr (.inr ⟨rfl, Document.driver_mem_entities.mp declared⟩)

/-- Entities of one name are one entity. -/
theorem name?_inj (regular : d.Regular) (generated : Compiler.generate o d = .ok p)
    {e e' : Entity} (he : e ∈ d.entities) (he' : e' ∈ d.entities)
    (same : e.name? p = e'.name? p) : e = e' := by
  obtain ⟨name, named, taken⟩ := exists_name regular generated he
  obtain ⟨name', named', taken'⟩ := exists_name regular generated he'
  obtain rfl : name = name' := Option.some.inj (named.symm.trans (same.trans named'))
  by_cases own : e.isGenerated = true
  · exact generated_name?_inj regular generated own (taken'.mp (taken.mpr own)) named named'
  · have own' : e'.isGenerated = false := by
      rw [← taken, taken', Bool.not_eq_true] at own
      exact own
    rw [Bool.not_eq_true] at own
    obtain ⟨th, lowered, _⟩ := exists_theory_of_generate generated
    have correct := (Lowering.exists_theory_iff regular).mp ⟨th, lowered⟩
    have apart := correct.apart name
    have free := correct.predicates name
    have kind := declared_name?_cases he own named
    have kind' := declared_name?_cases he' own' named'
    grind

/-- An entity is written in one way, which is taken exactly if its name is generated. -/
theorem exists_text (regular : d.Regular) (valid : o.validate = .ok ())
    (generated : Compiler.generate o d = .ok p) {e : Entity} (declared : e ∈ d.entities) :
    ∃ text, e.text? p = some text ∧ (o.toNaming.Taken text ↔ e.isGenerated = true) := by
  obtain ⟨name, named, taken⟩ := exists_name regular generated declared
  unfold Entity.text?
  by_cases own : e.isGenerated = true
  · rw [if_pos own]
    exact ⟨name, named, taken⟩
  · rw [if_neg own, named]
    refine ⟨Logic.atom name, rfl, iff_of_false ?_ own⟩
    exact Lowering.not_taken_atom (Naming.isPlainAtom_of_validate valid) (mt taken.mp own)

/-- Entities that are written in one way are one entity. -/
theorem text?_inj (regular : d.Regular) (valid : o.validate = .ok ())
    (generated : Compiler.generate o d = .ok p) {e e' : Entity} (he : e ∈ d.entities)
    (he' : e' ∈ d.entities) (same : e.text? p = e'.text? p) : e = e' := by
  obtain ⟨text, written, taken⟩ := exists_text regular valid generated he
  obtain ⟨text', written', taken'⟩ := exists_text regular valid generated he'
  obtain rfl : text = text' := Option.some.inj (written.symm.trans (same.trans written'))
  have kind : e.isGenerated = e'.isGenerated := Bool.eq_iff_iff.mpr (taken.symm.trans taken')
  apply name?_inj regular generated he he'
  unfold Entity.text? at same
  rw [← kind] at same
  by_cases own : e.isGenerated = true
  · rwa [if_pos own, if_pos own] at same
  · rw [if_neg own, if_neg own] at same
    exact Option.map_injective (fun _ _ => Logic.atom_inj) same

/-! ## Entities and clauses -/

/-- No entity is declared twice. -/
theorem nodup_entities (regular : d.Regular) : d.entities.Nodup := by
  have names : (d.objects.values.map Object.name).Nodup := by
    rw [regular.map_name_objects]
    exact d.objects.distinct
  have objects : (d.objects.values.map fun o => Entity.object o.name).Nodup := by
    simpa [Function.comp_def] using names.map fun _ _ => Entity.object.inj
  have accessors : (d.objects.values.flatMap fun o =>
      o.fields.map fun f => Entity.accessor o.name f.name).Nodup := by
    rw [List.nodup_flatMap]
    constructor
    · intro o declared
      have distinct := (regular.fields o declared).map fun f g (same : Entity.accessor o.name f =
        .accessor o.name g) => (Entity.accessor.inj same).2
      simpa [Function.comp_def] using distinct
    · refine (List.pairwise_map.mp names).imp fun {o o'} other => ?_
      intro e here there
      obtain ⟨f, _, rfl⟩ := List.mem_map.mp here
      obtain ⟨g, _, same⟩ := List.mem_map.mp there
      exact other (Entity.accessor.inj same).1.symm
  have rules : (d.rules.keys.map Entity.rule).Nodup :=
    d.rules.distinct.map fun _ _ => Entity.rule.inj
  have relations : (d.relations.keys.map Entity.relation).Nodup :=
    d.relations.distinct.map fun _ _ => Entity.relation.inj
  have drivers : (Lowering.reservedPredicates.map Entity.driver).Nodup := by decide
  unfold Document.entities
  simp only [List.nodup_append, objects, accessors, rules, relations, drivers, true_and,
    List.mem_append, List.mem_map, List.mem_flatMap]
  -- Entities of different kinds are different.
  refine ⟨⟨⟨?_, ?_⟩, ?_⟩, ?_⟩ <;> grind

/-- The predicate of a clause is that of the entity which the clause stands for. -/
theorem text?_entity (regular : d.Regular) (generated : Compiler.generate o d = .ok p)
    {th : Lowering.Theory} (lowered : Lowering.theory o.toNaming d = .ok th) {c : Logic.Clause}
    (member : c ∈ th.clauses) :
    c.kind.entity ∈ d.entities ∧ c.kind.entity.text? p = some (c.predicate o.toNaming) := by
  rcases Lowering.clause_cases lowered member with ⟨object, i, f, position, numbered, here, rfl⟩ |
    ⟨r, declared, rfl⟩ | ⟨r, declared, k, k', gives⟩ | ⟨t, declared, k, k', gives⟩ | rfl
  · have symbol := (symbol?_eq_some_iff regular generated).mpr ⟨object, i, numbered, rfl, rfl⟩
    constructor
    · exact Document.accessor_mem_entities.mpr ⟨object, List.fst_mem_of_mem_zipIdx numbered, rfl, f,
        List.mem_of_getElem? here, rfl⟩
    · show (p.symbol? object.name).map _ = _
      rw [symbol]
      rfl
  · obtain ⟨entry, here, rfl⟩ := List.mem_map.mp declared
    refine ⟨Document.relation_mem_entities.mpr ?_, rfl⟩
    exact List.mem_map.mpr ⟨entry, here, regular.relations entry here⟩
  · obtain ⟨_, _, _, rfl⟩ := Lowering.gives_rule.mp gives
    obtain ⟨entry, here, rfl⟩ := List.mem_map.mp declared
    refine ⟨Document.rule_mem_entities.mpr ?_, rfl⟩
    exact List.mem_map.mpr ⟨entry, here, regular.rules entry here⟩
  · obtain ⟨_, _, _, _, _, _, rfl⟩ := Lowering.gives_test.mp gives
    exact ⟨Document.driver_mem_entities.mpr (by decide), rfl⟩
  · exact ⟨Document.driver_mem_entities.mpr (by decide), rfl⟩

end

/-- The names of a program keep apart: every entity has a name, no two of them share a name or the
way in which it is written, and every clause is about the predicate of one entity alone, which is the
entity that the clause stands for. -/
structure NamesApart (o : Options) (d : Document) (p : Program) (clauses : List Logic.Clause) :
    Prop where
  named : ∀ e ∈ d.entities, ∃ name, e.name? p = some name
  names : (d.entities.map (·.name? p)).Nodup
  texts : (d.entities.map (·.text? p)).Nodup
  heads : ∀ c ∈ clauses, Logic.Heads (c.predicate o.toNaming) (c.text o)
  owners : ∀ c ∈ clauses, ∀ e : Entity,
    e ∈ d.entities ∧ e.text? p = some (c.predicate o.toNaming) ↔ e = c.kind.entity

/-- The names of every program of a text keep apart. -/
theorem names_apart {text : String} {o : Options} {d : Document} {p : Program}
    (parsed : Compiler.parse text = .ok d) (valid : o.validate = .ok ())
    (generated : Compiler.generate o d = .ok p) :
    ∃ th, Lowering.theory o.toNaming d = .ok th ∧ p.clauses = th.clauses.map (·.written o) ∧
      NamesApart o d p th.clauses := by
  have regular := regular_of_parse parsed
  obtain ⟨th, lowered, written⟩ := exists_theory_of_generate generated
  refine ⟨th, lowered, written, ?_, ?_, ?_, fun c _ => c.heads o, ?_⟩
  · intro e declared
    obtain ⟨name, named, _⟩ := exists_name regular generated declared
    exact ⟨name, named⟩
  · exact (nodup_entities regular).map_on fun e he e' he' => name?_inj regular generated he he'
  · exact (nodup_entities regular).map_on fun e he e' he' => text?_inj regular valid generated he he'
  · intro c member e
    obtain ⟨declared, predicate⟩ := text?_entity regular generated lowered member
    constructor
    · intro ⟨he, same⟩
      exact text?_inj regular valid generated he declared (same.trans predicate.symm)
    · intro same
      rw [same]
      exact ⟨declared, predicate⟩

/-- Names that are close to generated ones, after a text that ends in a digit. -/
theorem names_apart_close :
    ∃ d p th, Compiler.parse
        "object A { _1: int } relation o1 { a: A } rule o1_ { input { a: A } rules { a._1 > 0 } }" =
        .ok d ∧
      ({ objectPrefix := "o1" } : Options).validate = .ok () ∧
      Compiler.generate { objectPrefix := "o1" } d = .ok p ∧
      Lowering.theory { objectPrefix := "o1" } d = .ok th ∧
      NamesApart { objectPrefix := "o1" } d p th.clauses := by
  obtain ⟨d, p, parsed, generated⟩ := @exists_program_of_compile { objectPrefix := "o1" }
    "object A { _1: int } relation o1 { a: A } rule o1_ { input { a: A } rules { a._1 > 0 } }"
    (by decide +kernel)
  obtain ⟨th, lowered, _, apart⟩ := names_apart parsed (by decide) generated
  exact ⟨d, p, th, parsed, by decide, generated, lowered, apart⟩

end Rulebook
