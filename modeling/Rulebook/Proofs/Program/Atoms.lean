import Rulebook.Proofs.Program.Linked

/-!
# Names are written as atoms

Clauses hold names of objects, accessors, rules and relations. `Clause.spelled` writes a clause with
any spelling of these names, and the text of a clause is one case of it (`Clause.text_eq_spelled`).
There a rule or a relation is spelled as an atom. Objects and accessors are spelled as they are, which
is how an atom is spelled if and only if the name of the field is plain: ASCII letters, ASCII digits
and underscores.
-/

namespace Rulebook

namespace Logic

/-- A name in a clause that comes from the document. -/
inductive Name where
  /-- The functor of the values of the object with this number. -/
  | object (index : Nat)
  /-- The predicate that takes a field of the object with this number. -/
  | accessor (index : Nat) (field : String)
  /-- A rule or a relation. -/
  | predicate (name : String)
  deriving Repr, DecidableEq

namespace Name

/-- The name itself. -/
def whole (naming : Naming) : Name → String
  | object index => naming.object index
  | accessor index field => naming.accessor index field
  | predicate name => name

/-- The name as clauses are written with it. -/
def text (naming : Naming) : Name → String
  | object index => naming.object index
  | accessor index field => naming.accessor index field
  | predicate name => atom name

/-- The name as an atom. -/
def asAtom (naming : Naming) (n : Name) : String := atom (n.whole naming)

/-- A field in the name is plain. -/
def Plain : Name → Prop
  | accessor _ field => field.toList.all Text.isPlainPart = true
  | object _ | predicate _ => True

end Name

/-! ## Clauses in a spelling of their names -/

section

variable (o : Options) (spell : Name → String)

def Functor.spelled : Functor → String
  | operator op => o.comparison.functor op
  | predicate name => spell (.predicate name)

mutual

def Term.spelled : Term → String
  | .var v => v.text o.toNaming
  | .int value => toString value.toInt
  | .float text => text
  | .quoted text => Logic.quoted text
  | .wildcard => "_"
  | .apply functor args => applied (functor.spelled o spell) (Term.spelledAll args)
  | .construct object args => applied (spell (.object object)) (Term.spelledAll args)
  | .unify v value => v.text o.toNaming ++ " = " ++ Term.spelled value

def Term.spelledAll : List Term → List String
  | [] => []
  | t :: rest => Term.spelled t :: Term.spelledAll rest

end

mutual

def Goal.spelled : Goal → String
  | .holds t => t.spelled o spell
  | .access object field result target =>
    spell (.accessor object field) ++ "(" ++ o.toNaming.fresh result ++ ", " ++
      target.text o.toNaming ++ ")"
  | .assert fact => "assertz(" ++ fact.spelled o spell ++ ")"
  | .retract fact => "retract(" ++ fact.spelled o spell ++ ")"
  | .fail => "fail"
  | .choice condition success failure =>
    "(" ++ conjunction (Goal.spelledAll condition) ++ " -> " ++
      conjunction (Goal.spelledAll success) ++ " ; " ++ conjunction (Goal.spelledAll failure) ++ ")"

def Goal.spelledAll : List Goal → List String
  | [] => []
  | goal :: rest => Goal.spelled goal :: Goal.spelledAll rest

end

/-- A clause with this spelling of its names. -/
def Clause.spelled : Clause → String
  | .accessor object _ field position arity =>
    spell (.accessor object field) ++ "(Value, Object) :- Object = " ++ spell (.object object) ++
      "(" ++ ",".intercalate (pick position arity) ++ ")."
  | .directive relation arity =>
    ":- dynamic(" ++ spell (.predicate relation) ++ "/" ++ toString arity ++ ")."
  | .rule name params body =>
    clauseText (applied (spell (.predicate name)) (Term.spelledAll o spell params))
      (Goal.spelledAll o spell body)
  | .test name body => clauseText (testGoal name) (Goal.spelledAll o spell body)
  | .testCases names => "test_cases([" ++ ",".intercalate (names.map quoted) ++ "])."

end

/-! ## Names of clauses -/

def Functor.names : Functor → List Name
  | operator _ => []
  | predicate name => [.predicate name]

mutual

def Term.names : Term → List Name
  | .var _ | .int _ | .float _ | .quoted _ | .wildcard => []
  | .apply functor args => functor.names ++ Term.namesAll args
  | .construct object args => .object object :: Term.namesAll args
  | .unify _ value => Term.names value

def Term.namesAll : List Term → List Name
  | [] => []
  | t :: rest => Term.names t ++ Term.namesAll rest

end

mutual

def Goal.names : Goal → List Name
  | .holds t => t.names
  | .access object field _ _ => [.accessor object field]
  | .assert fact | .retract fact => fact.names
  | .fail => []
  | .choice condition success failure =>
    Goal.namesAll condition ++ Goal.namesAll success ++ Goal.namesAll failure

def Goal.namesAll : List Goal → List Name
  | [] => []
  | goal :: rest => Goal.names goal ++ Goal.namesAll rest

end

/-- The names of a clause from left to right, as often as they are written. -/
def Clause.names : Clause → List Name
  | .accessor object _ field _ _ => [.accessor object field, .object object]
  | .directive relation _ => [.predicate relation]
  | .rule name params body => .predicate name :: Term.namesAll params ++ Goal.namesAll body
  | .test _ body => Goal.namesAll body
  | .testCases _ => []

/-! ## The text is a spelling -/

section

variable {o : Options} {spell : Name → String}

theorem Functor.spelled_eq_text (f : Functor)
    (same : ∀ n ∈ f.names, spell n = n.text o.toNaming) :
    f.spelled o spell = f.text o.comparison := by
  cases f with
  | operator op => rfl
  | predicate name => exact same _ List.mem_cons_self

namespace Term

mutual

/-- Only the spelling of the names of a term matters. -/
theorem spelled_eq_text : (t : Term) → (∀ n ∈ t.names, spell n = n.text o.toNaming) →
    t.spelled o spell = t.text o
  | var _, _ | int _, _ | float _, _ | quoted _, _ | wildcard, _ => by rw [spelled, text]
  | apply functor args, same => by
    rw [names, List.forall_mem_append] at same
    rw [spelled, text, functor.spelled_eq_text same.1, spelledAll_eq_texts args same.2]
  | construct object args, same => by
    rw [names, List.forall_mem_cons] at same
    rw [spelled, text, same.1, spelledAll_eq_texts args same.2, Name.text]
  | unify v value, same => by
    rw [names] at same
    rw [spelled, text, spelled_eq_text value same]

theorem spelledAll_eq_texts : (ts : List Term) →
    (∀ n ∈ namesAll ts, spell n = n.text o.toNaming) → spelledAll o spell ts = texts o ts
  | [], _ => rfl
  | t :: rest, same => by
    rw [namesAll, List.forall_mem_append] at same
    rw [spelledAll, texts, spelled_eq_text t same.1, spelledAll_eq_texts rest same.2]

end

end Term

namespace Goal

mutual

theorem spelled_eq_text : (goal : Goal) → (∀ n ∈ goal.names, spell n = n.text o.toNaming) →
    goal.spelled o spell = goal.text o
  | holds t, same => by
    rw [names] at same
    rw [spelled, text, t.spelled_eq_text same]
  | access object field result target, same => by
    rw [names, List.forall_mem_singleton] at same
    rw [spelled, text, same, Name.text]
  | assert fact, same => by
    rw [names] at same
    rw [spelled, text, fact.spelled_eq_text same]
  | retract fact, same => by
    rw [names] at same
    rw [spelled, text, fact.spelled_eq_text same]
  | fail, _ => by rw [spelled, text]
  | choice condition success failure, same => by
    rw [names, List.forall_mem_append, List.forall_mem_append] at same
    rw [spelled, text, spelledAll_eq_texts condition same.1.1, spelledAll_eq_texts success same.1.2,
      spelledAll_eq_texts failure same.2]

theorem spelledAll_eq_texts : (goals : List Goal) →
    (∀ n ∈ namesAll goals, spell n = n.text o.toNaming) → spelledAll o spell goals = texts o goals
  | [], _ => rfl
  | goal :: rest, same => by
    rw [namesAll, List.forall_mem_append] at same
    rw [spelledAll, texts, spelled_eq_text goal same.1, spelledAll_eq_texts rest same.2]

end

end Goal

namespace Clause

theorem spelled_accessor (o : Options) (spell : Name → String) (object : Nat) (owner field : String)
    (position arity : Nat) : (accessor object owner field position arity).spelled o spell =
      spell (.accessor object field) ++ "(Value, Object) :- Object = " ++ spell (.object object) ++
        "(" ++ ",".intercalate (pick position arity) ++ ")." := rfl

theorem spelled_eq_text (c : Clause) (same : ∀ n ∈ c.names, spell n = n.text o.toNaming) :
    c.spelled o spell = c.text o := by
  cases c with
  | accessor object owner field position arity =>
    rw [names, List.forall_mem_cons, List.forall_mem_singleton] at same
    rw [spelled_accessor, same.1, same.2]
    rfl
  | directive relation arity =>
    rw [names, List.forall_mem_singleton] at same
    show ":- dynamic(" ++ spell (.predicate relation) ++ "/" ++ toString arity ++ ")." = _
    rw [same]
    rfl
  | rule name params body =>
    rw [names, List.cons_append, List.forall_mem_cons, List.forall_mem_append] at same
    show clauseText (applied (spell (.predicate name)) (Term.spelledAll o spell params))
      (Goal.spelledAll o spell body) = _
    rw [same.1, Term.spelledAll_eq_texts params same.2.1, Goal.spelledAll_eq_texts body same.2.2]
    rfl
  | test name body =>
    show clauseText (testGoal name) (Goal.spelledAll o spell body) = _
    rw [Goal.spelledAll_eq_texts body same]
    rfl
  | testCases names => rfl

theorem text_eq_spelled (o : Options) (c : Clause) :
    c.text o = c.spelled o (Name.text o.toNaming) :=
  (c.spelled_eq_text fun _ _ => rfl).symm

end Clause

end

/-! ## Spelling as atoms -/

/-- A name that is not a plain atom is never its own spelling, since quotes make it longer. -/
theorem atom_eq_self_iff {name : String} : atom name = name ↔ Text.isPlainAtom name.toList = true := by
  have longer (chars : List Char) : chars.length ≤ (chars.flatMap quoteChar).length := by
    induction chars with
    | nil => rfl
    | cons c rest ih =>
      have some : 1 ≤ (quoteChar c).length := by
        unfold quoteChar
        split <;> simp
      rw [List.flatMap_cons, List.length_append, List.length_cons]
      omega
  unfold atom
  split
  · rename_i plain
    exact iff_of_true rfl plain
  · rename_i other
    refine iff_of_false (fun same => ?_) other
    have length := congrArg (fun s => s.toList.length) same
    have least := longer name.toList
    simp only [quoted, quotedChars, String.toList_ofList, List.length_append, List.length_cons,
      List.length_nil] at length
    omega

/-- What is put behind a plain atom has to be plain for a plain atom. -/
theorem isPlainAtom_append {start rest : List Char} (plain : Text.isPlainAtom start = true) :
    Text.isPlainAtom (start ++ rest) = rest.all Text.isPlainPart := by
  cases start with
  | nil => cases plain
  | cons c cs =>
    simp only [Text.isPlainAtom, Bool.and_eq_true] at plain
    simp [Text.isPlainAtom, plain.1, plain.2]

theorem isPlainPart_of_isDigit {c : Char} (digit : c.isDigit = true) : Text.isPlainPart c = true := by
  simp [Text.isPlainPart, Char.isAlphanum, digit]

theorem isPlainAtom_object {naming : Naming} (valid : naming.validate = .ok ()) (i : Nat) :
    Text.isPlainAtom (naming.object i).toList = true := by
  obtain ⟨plain, _⟩ := Naming.validate_eq_ok_iff.mp valid
  rw [Naming.toList_object, isPlainAtom_append plain, List.all_eq_true]
  exact fun c here => isPlainPart_of_isDigit ((digits_toString i).all c here)

theorem isPlainAtom_accessor {naming : Naming} (valid : naming.validate = .ok ()) (i : Nat)
    (field : String) : Text.isPlainAtom (naming.accessor i field).toList =
      field.toList.all Text.isPlainPart := by
  have underscore : Text.isPlainPart '_' = true := by decide
  rw [Naming.accessor, String.toList_append, String.toList_append, List.append_assoc,
    isPlainAtom_append (isPlainAtom_object valid i)]
  simp [underscore]

/-- The names of a program are spelled as atoms, except for accessors of fields that are not plain. -/
theorem Name.text_eq_asAtom_iff {naming : Naming} (valid : naming.validate = .ok ()) (n : Name) :
    n.text naming = n.asAtom naming ↔ n.Plain := by
  cases n with
  | object i => exact iff_of_true (atom_eq_self_iff.mpr (isPlainAtom_object valid i)).symm trivial
  | accessor i field =>
    rw [eq_comm, Plain, ← isPlainAtom_accessor valid i field]
    exact atom_eq_self_iff
  | predicate name => exact iff_of_true rfl trivial

/-- An accessor shows how its field is spelled. -/
theorem Clause.accessor_spelled_iff {o : Options} (valid : o.validate = .ok ()) {i position arity : Nat}
    {owner field : String} :
    (Clause.accessor i owner field position arity).text o =
        (Clause.accessor i owner field position arity).spelled o (Name.asAtom o.toNaming) ↔
      (Name.accessor i field).Plain := by
  have object := (Name.text_eq_asAtom_iff valid (.object i)).mpr trivial
  rw [← Name.text_eq_asAtom_iff valid, Clause.text_eq_spelled, spelled_accessor,
    spelled_accessor, object]
  simp only [String.append_assoc, String.append_left_inj]

/-! ## Accessors in clauses -/

namespace Term

variable {i : Nat} {field : String}

mutual

/-- A term takes no field. -/
theorem accessor_not_mem_names : (t : Term) → .accessor i field ∉ t.names
  | var _ | int _ | float _ | quoted _ | wildcard => by simp [names]
  | apply functor args => by
    have none := accessor_not_mem_namesAll args
    cases functor <;> simp [names, Functor.names, none]
  | construct object args => by simp [names, accessor_not_mem_namesAll args]
  | unify v value => by simp [names, accessor_not_mem_names value]

theorem accessor_not_mem_namesAll : (ts : List Term) → .accessor i field ∉ namesAll ts
  | [] => by simp [namesAll]
  | t :: rest => by
    simp [namesAll, accessor_not_mem_names t, accessor_not_mem_namesAll rest]

end

end Term

namespace Goal

variable {o : Options} {i : Nat} {field : String}

mutual

/-- The fields that a goal takes are references to accessors. -/
theorem link_of_accessor_mem_names : (goal : Goal) →
    .accessor i field ∈ goal.names → .accessor (o.toNaming.accessor i field) ∈ goal.links o
  | holds t, member => absurd member t.accessor_not_mem_names
  | access object field' _ _, member => by
    rw [names, List.mem_singleton, Name.accessor.injEq] at member
    rw [links, phrase, Phrase.links, member.1, member.2]
    exact List.mem_cons_self
  | assert fact, member => absurd member fact.accessor_not_mem_names
  | retract fact, member => absurd member fact.accessor_not_mem_names
  | fail, member => by simp [names] at member
  | choice condition success failure, member => by
    rw [names, List.mem_append, List.mem_append] at member
    rw [links_choice, List.mem_append, List.mem_append]
    exact member.imp
      (Or.imp (link_of_accessor_mem_namesAll condition) (link_of_accessor_mem_namesAll success))
      (link_of_accessor_mem_namesAll failure)

theorem link_of_accessor_mem_namesAll : (goals : List Goal) → .accessor i field ∈ namesAll goals →
    .accessor (o.toNaming.accessor i field) ∈ goals.flatMap (links o)
  | [], member => by cases member
  | goal :: rest, member => by
    rw [namesAll, List.mem_append] at member
    rw [List.flatMap_cons, List.mem_append]
    exact member.imp (link_of_accessor_mem_names goal) (link_of_accessor_mem_namesAll rest)

end

end Goal

/-- A clause with the name of an accessor is this accessor, or it refers to it. -/
theorem Clause.link_of_accessor_mem_names {o : Options} {c : Clause} {i : Nat} {field : String}
    (member : .accessor i field ∈ c.names) :
    .accessor (o.toNaming.accessor i field) ∈ (c.sentence o).provides ∨
      .accessor (o.toNaming.accessor i field) ∈ (c.sentence o).links := by
  cases c with
  | accessor object owner field' position arity =>
    left
    simp only [names, List.mem_cons, Name.accessor.injEq, reduceCtorEq, List.not_mem_nil,
      or_false] at member
    rw [sentence, Sentence.provides, member.1, member.2]
    exact List.mem_cons_self
  | directive relation arity => simp [names] at member
  | rule name params body =>
    right
    simp only [names, List.cons_append, List.mem_cons, reduceCtorEq, List.mem_append,
      Term.accessor_not_mem_namesAll params, false_or] at member
    rw [links_rule]
    exact List.mem_append_right _ (Goal.link_of_accessor_mem_namesAll body member)
  | test name body =>
    right
    rw [links_test]
    exact Goal.link_of_accessor_mem_namesAll body member
  | testCases names => cases member

end Logic

namespace Lowering

variable {o : Options} {d : Document} {th : Theory}

/-- Only the fields of objects have accessors. -/
theorem exists_field_of_supplied (lowered : theory o.toNaming d = .ok th) {i : Nat} {field : String}
    (supplied : Logic.Supplied (th.sentences o) (.accessor (o.toNaming.accessor i field))) :
    ∃ object ∈ d.objects.values, ∃ f ∈ object.fields, f.name = field := by
  obtain ⟨s, inside, provided⟩ := supplied
  obtain ⟨c, member, rfl⟩ := List.mem_map.mp inside
  rcases clause_cases lowered member with ⟨object, j, f, position, numbered, here, rfl⟩ |
    ⟨_, _, rfl⟩ | ⟨r, _, k, k', gives⟩ | ⟨t, _, k, k', gives⟩ | rfl
  · have same : o.toNaming.accessor i field = o.toNaming.accessor j f.name := by
      simpa [Logic.Clause.sentence, Logic.Sentence.provides] using provided
    exact ⟨object, List.fst_mem_of_mem_zipIdx numbered, f, List.mem_of_getElem? here,
      (Naming.accessor_inj same).2.symm⟩
  · simp [Logic.Clause.sentence, Logic.Sentence.provides] at provided
  · obtain ⟨_, ls, _, rfl⟩ := gives_rule.mp gives
    simp [Logic.Clause.sentence, Logic.Sentence.provides] at provided
  · obtain ⟨_, fs, k₁, ls, _, _, rfl⟩ := gives_test.mp gives
    cases provided
  · cases provided

end Lowering

/-- The clauses of a program are spelled with the names of the document. Each name is spelled as an
atom, unless it is an accessor of a field that is not plain; so all clauses have their names as atoms
exactly if all fields are plain. -/
theorem names_written_as_atoms {text : String} {o : Options} {d : Document} {p : Program}
    (valid : o.validate = .ok ()) (parsed : Compiler.parse text = .ok d)
    (generated : Compiler.generate o d = .ok p) :
    ∃ th, Lowering.theory o.toNaming d = .ok th ∧ p.clauses = th.clauses.map (·.written o) ∧
      (∀ c ∈ th.clauses, c.text o = c.spelled o (Logic.Name.text o.toNaming) ∧
        ∀ n ∈ c.names, n.text o.toNaming = Logic.atom (n.whole o.toNaming) ↔ n.Plain) ∧
      ((∀ c ∈ th.clauses, c.text o = c.spelled o fun n => Logic.atom (n.whole o.toNaming)) ↔
        ∀ object ∈ d.objects.values, ∀ f ∈ object.fields,
          f.name.toList.all Text.isPlainPart = true) := by
  have regular := regular_of_parse parsed
  have fields := fields_ne_nil_of_parse parsed
  obtain ⟨th, lowered, written⟩ := exists_theory_of_generate generated
  refine ⟨th, lowered, written, fun c _ => ⟨c.text_eq_spelled o, fun n _ => ?_⟩, ?_, ?_⟩
  · exact n.text_eq_asAtom_iff valid
  · intro all object declared f here
    rw [← Lowering.map_fst_numbered] at declared
    obtain ⟨q, numbered, rfl⟩ := List.mem_map.mp declared
    obtain ⟨position, place⟩ := List.getElem?_of_mem here
    have clause := all _ (Lowering.accessor_mem_clauses lowered numbered place)
    exact (Logic.Clause.accessor_spelled_iff valid).mp clause
  · intro plain c member
    refine (c.spelled_eq_text fun n here => ?_).symm
    refine ((n.text_eq_asAtom_iff valid).mpr ?_).symm
    cases n with
    | object _ | predicate _ => trivial
    | accessor i field =>
      have supplied : Logic.Supplied (th.sentences o) (.accessor (o.toNaming.accessor i field)) := by
        rcases Logic.Clause.link_of_accessor_mem_names here with provided | needed
        · exact Lowering.supplied_of_mem member provided
        · exact Lowering.supplied_clause regular fields lowered member _ needed
      obtain ⟨object, declared, f, inside, rfl⟩ :=
        Lowering.exists_field_of_supplied lowered supplied
      exact plain object declared f inside

/-- A rule beyond ASCII is quoted where it is defined and where it is called. -/
theorem names_written_as_atoms_quoted :
    ∃ d p th, Compiler.parse ("object T { a: int } rule größe { input { t: T } rules { t.a > 1 } } " ++
        "rule r { input { t: T } rules { größe(t) } }") = .ok d ∧
      Compiler.generate {} d = .ok p ∧
      p.ruleClause? "größe" = some "'größe'(T) :- o_1_a(V_2, T), @>(V_2,1)." ∧
      p.ruleClause? "r" = some "r(T) :- 'größe'(T)." ∧
      Lowering.theory {} d = .ok th ∧
      ∀ c ∈ th.clauses, c.text {} = c.spelled {} fun n => Logic.atom (n.whole {}) := by
  let text := "object T { a: int } rule größe { input { t: T } rules { t.a > 1 } } " ++
    "rule r { input { t: T } rules { größe(t) } }"
  let plain (d : Document) : Bool :=
    d.objects.values.all fun object => object.fields.all fun f => f.name.toList.all Text.isPlainPart
  let clauses? (d : Document) := (Compiler.generate {} d).toOption.map fun p =>
    (p.ruleClause? "größe", p.ruleClause? "r")
  have answer : (Compiler.parse text).toOption.map (fun d => (plain d, clauses? d)) =
      some (true, some (some "'größe'(T) :- o_1_a(V_2, T), @>(V_2,1).",
        some "r(T) :- 'größe'(T).")) := by decide +kernel
  obtain ⟨d, parsed, facts⟩ := exists_ok_of_map answer
  obtain ⟨ascii, clauses⟩ := Prod.mk.inj facts
  obtain ⟨p, generated, found⟩ := exists_ok_of_map clauses
  obtain ⟨th, lowered, _, _, all⟩ := names_written_as_atoms (by decide) parsed generated
  refine ⟨d, p, th, parsed, generated, (Prod.mk.inj found).1, (Prod.mk.inj found).2, lowered, ?_⟩
  refine all.mpr fun object declared f here => ?_
  exact List.all_eq_true.mp (List.all_eq_true.mp ascii object declared) f here

/-- The accessor of a field beyond ASCII is not quoted, although its name is no plain atom. -/
theorem accessor_not_quoted :
    ∃ d p th, Compiler.parse "object T { m²: int }" = .ok d ∧ Compiler.generate {} d = .ok p ∧
      ({} : Options).validate = .ok () ∧ Lowering.theory {} d = .ok th ∧
      p.clauses = th.clauses.map (·.written {}) ∧
      Logic.atom "o_1_m²" = "'o_1_m²'" ∧
      p.accessors "T" = ["o_1_m²(Value, Object) :- Object = o_1(Value)."] ∧
      ∃ c ∈ th.clauses, c.spelled {} (fun n => Logic.atom (n.whole {})) =
        "'o_1_m²'(Value, Object) :- Object = o_1(Value)." ∧
        c.text {} = "o_1_m²(Value, Object) :- Object = o_1(Value)." := by
  let spellings? (d : Document) := (Lowering.theory {} d).toOption.map fun th =>
    th.clauses.head?.map fun c => (c.spelled {} fun n => Logic.atom (n.whole {}), c.text {})
  let accessors? (d : Document) := (Compiler.generate {} d).toOption.map (·.accessors "T")
  have answer : (Compiler.parse "object T { m²: int }").toOption.map
      (fun d => (spellings? d, accessors? d)) =
      some (some (some ("'o_1_m²'(Value, Object) :- Object = o_1(Value).",
          "o_1_m²(Value, Object) :- Object = o_1(Value).")),
        some ["o_1_m²(Value, Object) :- Object = o_1(Value)."]) := by decide +kernel
  obtain ⟨d, parsed, facts⟩ := exists_ok_of_map answer
  obtain ⟨spellings, accessors⟩ := Prod.mk.inj facts
  obtain ⟨th, lowered, spelled⟩ := exists_ok_of_map spellings
  obtain ⟨p, generated, found⟩ := exists_ok_of_map accessors
  obtain ⟨c, first, same⟩ := Option.map_eq_some_iff.mp spelled
  obtain ⟨th', lowered', written⟩ := exists_theory_of_generate generated
  cases lowered.symm.trans lowered'
  exact ⟨d, p, th, parsed, generated, by decide, lowered, written, by decide, found, c,
    List.mem_of_head? first, (Prod.mk.inj same).1, (Prod.mk.inj same).2⟩

end Rulebook
