import Rulebook.Proofs.Lowering.Accepts

/-!
# Positions of fields

An instantiation puts the value of a field where the accessor of the field takes it from: at the
position of the field among the declared ones. In which order the fields are assigned makes no
difference, neither to what an instantiation becomes nor to whether it is accepted.
-/

namespace Rulebook

/-- An instantiation: a variable, the name of an object, and assignments to fields. -/
def Expr.creation (name object : String) (assigned : List (String × Term)) : Expr :=
  ⟨newFunctor,
    .term (.var name (.object object)) :: assigned.map fun a => .term (.field a.1 a.2)⟩

/-- The object stands under the name, and what is looked up under the name is its own number. -/
structure Document.Numbers (d : Document) (name : String) (o : Object) (symbol : Nat) : Prop where
  found : d.objects.find? name = some o
  known : (Lowering.symbolTable d).find? name = some symbol
  own : (o, symbol) ∈ Lowering.numbered d

/-- In a regular document this holds of every object and its number. -/
theorem Document.Regular.numbers {d : Document} (regular : d.Regular) {name : String} {o : Object}
    (found : d.objects.find? name = some o) {i : Nat} (own : (o, i) ∈ Lowering.numbered d) :
    d.Numbers name o i :=
  ⟨found, (regular.symbolTable_find? found).mpr own, own⟩

/-- What is related place by place has something at each place. -/
theorem exists_at_of_forall₂ {α β : Type} {R : α → β → Prop} {as : List α} {bs : List β}
    (each : List.Forall₂ R as bs) {i : Nat} {a : α} (here : as[i]? = some a) :
    ∃ b, bs[i]? = some b ∧ R a b := by
  obtain ⟨lt, rfl⟩ := List.getElem?_eq_some_iff.mp here
  have lt' : i < bs.length := each.length_eq ▸ lt
  exact ⟨bs[i], List.getElem?_eq_getElem lt', each.get lt lt'⟩

namespace Lowering

variable {env : Env} {naming : Naming} {site : Site} {k k' : Nat}

/-! ## Order of assignments -/

/-- Assignments to distinct fields give a field the same value in any order. -/
theorem find?_perm {assigned assigned' : List (String × Term)} (perm : assigned.Perm assigned')
    (distinct : (assigned.map Prod.fst).Nodup) (name : String) :
    assigned.find? (·.1 == name) = assigned'.find? (·.1 == name) := by
  have distinct' : (assigned'.map Prod.fst).Nodup := (perm.map Prod.fst).nodup_iff.mp distinct
  have same (a : String × Term) :
      assigned.find? (·.1 == name) = some a ↔ assigned'.find? (·.1 == name) = some a := by
    rw [find?_assigned_iff distinct, find?_assigned_iff distinct', perm.mem_iff]
  exact Option.ext same

theorem fills_perm {assigned assigned' : List (String × Term)} (perm : assigned.Perm assigned')
    (distinct : (assigned.map Prod.fst).Nodup) {f : Field} {v : Logic.Term}
    (fills : Fills naming assigned f v) : Fills naming assigned' f v := by
  have same := find?_perm perm distinct f.name
  cases fills with
  | assigned found admitted => exact .assigned (same ▸ found) admitted
  | «open» found => exact .open (same ▸ found)

/-- What an instantiation needs, and what it becomes. -/
theorem gives_creation {name objectName : String} {assigned : List (String × Term)} {l : Lowered} :
    Gives (expr env site (.creation name objectName assigned)) k l k' ↔
      ∃ object symbol values, env.document.objects.find? objectName = some object ∧
        env.symbols.find? objectName = some symbol ∧
        (∀ a ∈ assigned, (object.field? a.1).isSome = true) ∧
        List.Forall₂ (Fills env.naming assigned) object.fields values ∧
        ¬ env.naming.Reserved name ∧
        l = { value := .unify (.user name) (.construct symbol values) } ∧ k' = k := by
  unfold expr Expr.node Expr.creation
  rw [gives_node_new, gives_instantiate]
  constructor
  · rintro ⟨_, _, object, symbol, assigned', values, whole, rest⟩
    obtain ⟨same, tail⟩ := List.cons.inj whole
    cases same
    rw [assigned_inj tail]
    exact ⟨object, symbol, values, rest⟩
  · rintro ⟨object, symbol, values, rest⟩
    exact ⟨name, objectName, object, symbol, assigned, values, rfl, rest⟩

/-- An instantiation becomes the same with its assignments in another order. -/
theorem gives_creation_perm {name objectName : String} {assigned assigned' : List (String × Term)}
    {l : Lowered} (perm : assigned.Perm assigned') (distinct : (assigned.map Prod.fst).Nodup)
    (gives : Gives (expr env site (.creation name objectName assigned)) k l k') :
    Gives (expr env site (.creation name objectName assigned')) k l k' := by
  obtain ⟨object, symbol, values, found, known, declared, each, rest⟩ := gives_creation.mp gives
  refine gives_creation.mpr ⟨object, symbol, values, found, known, ?_, ?_, rest⟩
  · intro a member
    exact declared a (perm.mem_iff.mpr member)
  · exact each.imp fun f v => fills_perm perm distinct

/-! ## Positions -/

/-- What an object is constructed from: one term for each field, in the order of the fields. It is
the value that the field admits for what is assigned to it, or anything. -/
structure Arguments (env : Env) (site : Site) (object : Object) (assigned : List (String × Term))
    (values : List Logic.Term) : Prop where
  count : values.length = object.fields.length
  given : ∀ (i : Nat) (f : Field) (value : Term), object.fields[i]? = some f →
    (f.name, value) ∈ assigned →
    ∃ v, values[i]? = some v ∧ ∀ k, Gives (fieldValue env site object f value) k v k
  missing : ∀ (i : Nat) (f : Field), object.fields[i]? = some f →
    f.name ∉ assigned.map Prod.fst → values[i]? = some .wildcard

/-- What filled fields hold, by their positions. -/
theorem arguments_of_fills {object : Object} {assigned : List (String × Term)}
    {values : List Logic.Term} (distinct : (assigned.map Prod.fst).Nodup)
    (fills : List.Forall₂ (Fills env.naming assigned) object.fields values) :
    Arguments env site object assigned values := by
  constructor
  case count => exact fills.length_eq.symm
  case given =>
    intro i f value here member
    obtain ⟨v, there, filled⟩ := exists_at_of_forall₂ fills here
    refine ⟨v, there, fun k => ?_⟩
    have found := (find?_assigned_iff distinct).mpr ⟨member, rfl⟩
    cases filled with
    | assigned found' admitted =>
      rw [found] at found'
      cases found'
      exact gives_fieldValue.mpr ⟨admitted, rfl⟩
    | «open» none =>
      rw [found] at none
      cases none
  case missing =>
    intro i f here absent
    obtain ⟨v, there, filled⟩ := exists_at_of_forall₂ fills here
    cases filled with
    | assigned found _ =>
      obtain ⟨member, named⟩ := (find?_assigned_iff distinct).mp found
      exact absurd (named ▸ List.mem_map_of_mem member) absent
    | «open» _ => exact there

/-- Every assignment is to a declared field, which admits the value. -/
def Admitted (env : Env) (site : Site) (object : Object) (assigned : List (String × Term)) : Prop :=
  ∀ a ∈ assigned, ∃ f ∈ object.fields, f.name = a.1 ∧
    ∃ v, Gives (fieldValue env site object f a.2) 0 v 0

/-- The fields of an object are filled if what is assigned is admitted. -/
theorem exists_arguments {object : Object} {assigned : List (String × Term)}
    (distinctFields : (object.fields.map Field.name).Nodup)
    (distinct : (assigned.map Prod.fst).Nodup) (admitted : Admitted env site object assigned) :
    (∀ a ∈ assigned, (object.field? a.1).isSome = true) ∧
      ∃ values, List.Forall₂ (Fills env.naming assigned) object.fields values ∧
        Arguments env site object assigned values := by
  have admits : ∀ a ∈ assigned, ∃ f ∈ object.fields, f.name = a.1 ∧
      ∃ v, Admits env.naming f.type a.2 v := by
    intro a member
    obtain ⟨f, here, named, v, gives⟩ := admitted a member
    exact ⟨f, here, named, v, (gives_fieldValue.mp gives).1⟩
  obtain ⟨declared, values, fills⟩ := (exists_values_iff distinctFields distinct).mpr admits
  refine ⟨fun a member => ?_, values, fills, arguments_of_fills distinct fills⟩
  exact Object.field?_isSome_iff.mpr (declared a member)

/-- The accessor of a field takes the value at the position of the field from a constructor with a
place for each field. -/
theorem exists_accessor {o : Options} {d : Document} {object : Object} {symbol : Nat}
    (own : (object, symbol) ∈ numbered d) {i : Nat} {f : Field}
    (here : object.fields[i]? = some f) :
    ∃ c ∈ (numbered d).flatMap accessors, ∃ args : List String,
      c.written o = ⟨.accessor object.name f.name,
        o.toNaming.accessor symbol f.name ++ "(Value, Object) :- Object = " ++
          o.toNaming.object symbol ++ "(" ++ ",".intercalate args ++ ")."⟩ ∧
      args.length = object.fields.length ∧
      ∀ j < object.fields.length, args[j]? = some (if j = i then "Value" else "_") := by
  refine ⟨.accessor symbol object.name f.name i object.fields.length, ?_,
    Logic.pick i object.fields.length, rfl, ?_, ?_⟩
  · refine List.mem_flatMap.mpr ⟨(object, symbol), own, ?_⟩
    exact List.mem_map.mpr ⟨(f, i), List.mem_zipIdx_iff_getElem?.mpr here, rfl⟩
  · simp [Logic.pick]
  · intro j lt
    simp [Logic.pick, lt]

/-- Instantiation and projection of an object agree on the positions of its fields. -/
structure PositionsAgree (o : Options) (d : Document) (site : Site) (objectName : String)
    (object : Object) (symbol : Nat) : Prop where
  /-- With admitted assignments to distinct fields and a variable that is not reserved, an
  instantiation is written as the variable and the constructed value. -/
  creates : ∀ name assigned, (assigned.map Prod.fst).Nodup →
    Admitted (.of o.toNaming d) site object assigned → ¬ o.toNaming.Reserved name →
    ∃ values, Arguments (.of o.toNaming d) site object assigned values ∧
      ∀ k, ∃ l, Gives (expr (.of o.toNaming d) site (.creation name objectName assigned)) k l k ∧
        Logic.Goal.texts o l.goals = [Logic.variableName name ++ " = " ++
          Logic.applied (o.toNaming.object symbol) (Logic.Term.texts o values)]
  /-- A reserved variable is refused, whatever is assigned. -/
  refuses : ∀ name assigned, o.toNaming.Reserved name → ∀ k l k',
    ¬ Gives (expr (.of o.toNaming d) site (.creation name objectName assigned)) k l k'
  /-- The accessor of a field has the value at the position of the field and anything elsewhere. -/
  projects : ∀ (i : Nat) (f : Field), object.fields[i]? = some f →
    ∃ c ∈ (numbered d).flatMap accessors, ∃ args : List String,
      c.written o = ⟨.accessor object.name f.name,
        o.toNaming.accessor symbol f.name ++ "(Value, Object) :- Object = " ++
          o.toNaming.object symbol ++ "(" ++ ",".intercalate args ++ ")."⟩ ∧
      args.length = object.fields.length ∧
      ∀ j < object.fields.length, args[j]? = some (if j = i then "Value" else "_")
  /-- Assignments to distinct names may stand in any order, also if they are not admitted. -/
  permutes : ∀ name assigned assigned', assigned.Perm assigned' → (assigned.map Prod.fst).Nodup →
    ∀ k l k', Gives (expr (.of o.toNaming d) site (.creation name objectName assigned)) k l k' ↔
      Gives (expr (.of o.toNaming d) site (.creation name objectName assigned')) k l k'

end Lowering

/-- Wherever an object with distinct fields is instantiated, and in whatever order its fields are
assigned, their values stand where its accessors take them from. -/
theorem positions_agree {o : Options} {d : Document} {objectName : String} {object : Object}
    {symbol : Nat} (numbers : d.Numbers objectName object symbol)
    (distinct : (object.fields.map Field.name).Nodup) (site : Site) :
    Lowering.PositionsAgree o d site objectName object symbol := by
  constructor
  case creates =>
    intro name assigned once admitted free
    obtain ⟨declared, values, fills, arguments⟩ := Lowering.exists_arguments distinct once admitted
    refine ⟨values, arguments, fun k => ⟨_, Lowering.gives_creation.mpr
      ⟨object, symbol, values, numbers.found, numbers.known, declared, fills, free, rfl, rfl⟩, rfl⟩⟩
  case refuses =>
    intro name assigned reserved k l k' gives
    obtain ⟨_, _, _, _, _, _, _, free, _⟩ := Lowering.gives_creation.mp gives
    exact free reserved
  case projects =>
    intro i f here
    exact Lowering.exists_accessor numbers.own here
  case permutes =>
    intro name assigned assigned' perm once k l k'
    have once' := (perm.map Prod.fst).nodup_iff.mp once
    constructor
    · exact Lowering.gives_creation_perm perm once
    · exact Lowering.gives_creation_perm perm.symm once'

/-- An object with three fields, two of them assigned, the later one first. -/
theorem positions_agree_later_first :
    ∃ d object, Compiler.parse "object T { a: int, b: string, c: T } object U { t: T }" = .ok d ∧
      d.Numbers "T" object 1 ∧
      object.fields = [⟨"a", .int⟩, ⟨"b", .string⟩, ⟨"c", .object "T"⟩] ∧
      Lowering.Admitted (.of {} d) (.test "t") object [("c", .ident "y"), ("a", .int 1)] ∧
      Lowering.PositionsAgree {} d (.test "t") "T" object 1 := by
  obtain ⟨d, parsed, objects⟩ : ∃ d,
      Compiler.parse "object T { a: int, b: string, c: T } object U { t: T }" = .ok d ∧
      d.objects.entries =
        [("T", ⟨"T", [⟨"a", .int⟩, ⟨"b", .string⟩, ⟨"c", .object "T"⟩]⟩),
          ("U", ⟨"U", [⟨"t", .object "T"⟩]⟩)] := exists_ok_of_map (by decide +kernel)
  have found : d.objects.find? "T" = some ⟨"T", [⟨"a", .int⟩, ⟨"b", .string⟩, ⟨"c", .object "T"⟩]⟩ := by
    rw [Table.find?_eq_some_iff, objects]
    exact List.mem_cons_self
  have numbers := (regular_of_parse parsed).numbers found (i := 1) (by
    simp [Lowering.numbered, Table.values, objects])
  have free : ¬ Naming.Reserved {} "y" := fun reserved =>
    absurd (Lowering.isFreshName_iff.mpr reserved) (by decide)
  refine ⟨d, _, parsed, numbers, rfl, ?_, positions_agree numbers (by decide) (.test "t")⟩
  intro a member
  rcases List.mem_cons.mp member with rfl | member
  · exact ⟨⟨"c", .object "T"⟩, by simp, rfl, _, Lowering.gives_fieldValue.mpr ⟨.open free, rfl⟩⟩
  · obtain rfl := List.mem_singleton.mp member
    exact ⟨⟨"a", .int⟩, by simp, rfl, _, Lowering.gives_fieldValue.mpr ⟨.int, rfl⟩⟩

/-- A variable that is written like a fresh one cannot be instantiated, although what is assigned is
admitted. -/
theorem reserved_variable_refused :
    ∃ d object, Compiler.parse
        "object T { a: int } test t { facts { v_1: T { a: 1 } } rules { } }" = .ok d ∧
      d.Numbers "T" object 1 ∧ object.fields = [⟨"a", .int⟩] ∧
      d.tests = [⟨"t", [.creation "v_1" "T" [("a", .int 1)]], []⟩] ∧
      Lowering.Admitted (.of {} d) (.test "t") object [("a", .int 1)] ∧
      Compiler.generate {} d = .error (.semantic (.reservedName "v_1" (.test "t"))) := by
  obtain ⟨d, parsed, answer⟩ : ∃ d, Compiler.parse
      "object T { a: int } test t { facts { v_1: T { a: 1 } } rules { } }" = .ok d ∧
      (d.objects.entries, d.tests, Compiler.generate {} d) =
        ([("T", ⟨"T", [⟨"a", .int⟩]⟩)], [⟨"t", [.creation "v_1" "T" [("a", .int 1)]], []⟩],
          .error (.semantic (.reservedName "v_1" (.test "t")))) := exists_ok_of_map (by decide +kernel)
  simp only [Prod.mk.injEq] at answer
  obtain ⟨objects, tests, refused⟩ := answer
  have found : d.objects.find? "T" = some ⟨"T", [⟨"a", .int⟩]⟩ := by
    rw [Table.find?_eq_some_iff, objects]
    exact List.mem_cons_self
  have numbers := (regular_of_parse parsed).numbers found (i := 1) (by
    simp [Lowering.numbered, Table.values, objects])
  refine ⟨d, _, parsed, numbers, rfl, tests, ?_, refused⟩
  intro a member
  obtain rfl := List.mem_singleton.mp member
  exact ⟨⟨"a", .int⟩, by simp, rfl, _, Lowering.gives_fieldValue.mpr ⟨.int, rfl⟩⟩

end Rulebook
