import Mathlib.Data.List.Nodup
import Rulebook.Proofs.Document.Regular
import Rulebook.Proofs.Logic.Run
import Rulebook.Proofs.Lowering.Gives

/-!
# Objects, fields and their numbers

In a regular document an object is found under its own name, its number is its place among the
objects, and a field is found at its place among the fields.
-/

namespace Rulebook

/-- A field is found at its own position. -/
theorem Object.field?_eq_some_iff {o : Object} (distinct : (o.fields.map Field.name).Nodup)
    {name : String} {position : Nat} {f : Field} :
    o.field? name = some (position, f) ↔ o.fields[position]? = some f ∧ f.name = name := by
  have placed {p : Field × Nat} : p ∈ o.fields.zipIdx ↔ o.fields[p.2]? = some p.1 :=
    List.mem_zipIdx_iff_getElem?
  unfold Object.field?
  constructor
  · intro h
    obtain ⟨p, found, same⟩ := Option.map_eq_some_iff.mp h
    cases same
    have named := List.find?_some found
    exact ⟨placed.mp (List.mem_of_find?_eq_some found), by simpa using named⟩
  · intro ⟨here, named⟩
    have exists_one : (o.fields.zipIdx.find? (·.1.name == name)).isSome = true := by
      rw [List.find?_isSome]
      exact ⟨(f, position), placed.mpr here, by simpa using named⟩
    obtain ⟨p, found⟩ := Option.isSome_iff_exists.mp exists_one
    have there := placed.mp (List.mem_of_find?_eq_some found)
    have namedThere : p.1.name = name := by simpa using List.find?_some found
    -- Two fields of one name stand at one place.
    have same : p.2 = position := by
      have one : (o.fields.map Field.name)[p.2]? = some name := by simp [there, namedThere]
      have two : (o.fields.map Field.name)[position]? = some name := by simp [here, named]
      have bound : p.2 < (o.fields.map Field.name).length := (List.getElem?_eq_some_iff.mp one).1
      exact (List.getElem?_inj bound distinct).mp (one.trans two.symm)
    rw [same, here] at there
    rw [found, Option.map_some, ← same, Option.some.inj there]

theorem Object.field?_isSome_iff {o : Object} {name : String} :
    (o.field? name).isSome = true ↔ ∃ f ∈ o.fields, f.name = name := by
  unfold Object.field?
  rw [Option.isSome_map, List.find?_isSome]
  constructor
  · intro ⟨p, member, named⟩
    have here := List.mem_zipIdx_iff_getElem?.mp member
    exact ⟨p.1, List.mem_of_getElem? here, by simpa using named⟩
  · intro ⟨f, member, named⟩
    obtain ⟨position, here⟩ := List.getElem?_of_mem member
    exact ⟨(f, position), List.mem_zipIdx_iff_getElem?.mpr here, by simpa using named⟩

/-- The objects in their order, without their numbers. -/
theorem Lowering.map_fst_numbered (d : Document) :
    (numbered d).map Prod.fst = d.objects.values :=
  List.zipIdx_map_fst ..

namespace Document.Regular

variable {d : Document}

/-- The names of the objects in their order. -/
theorem map_name_objects (regular : d.Regular) :
    d.objects.values.map Object.name = d.objects.keys := by
  unfold Table.values Table.keys
  rw [List.map_map]
  exact List.map_congr_left fun entry member => (regular.objects entry member).symm

theorem map_name_numbered (regular : d.Regular) :
    (Lowering.numbered d).map (fun p => p.1.name) = d.objects.keys := by
  rw [← regular.map_name_objects, ← Lowering.map_fst_numbered, List.map_map]
  rfl

theorem object_eq (regular : d.Regular) {o o' : Object} (member : o ∈ d.objects.values)
    (member' : o' ∈ d.objects.values) (same : o.name = o'.name) : o = o' := by
  have distinct : (d.objects.values.map Object.name).Nodup := by
    rw [regular.map_name_objects]
    exact d.objects.distinct
  exact List.inj_on_of_nodup_map distinct member member' same

theorem object_name (regular : d.Regular) {name : String} {o : Object}
    (found : d.objects.find? name = some o) : o.name = name :=
  (regular.objects _ (Table.find?_eq_some_iff.mp found)).symm

theorem distinct_fields (regular : d.Regular) {name : String} {o : Object}
    (found : d.objects.find? name = some o) : (o.fields.map Field.name).Nodup :=
  regular.fields o (Table.mem_values_of_find? found)

/-- The number of an object is its place among the objects. -/
theorem symbolTable_find? (regular : d.Regular) {name : String} {o : Object}
    (found : d.objects.find? name = some o) {i : Nat} :
    (Lowering.symbolTable d).find? name = some i ↔ (o, i) ∈ Lowering.numbered d := by
  have keys : ((Lowering.numbered d).map fun p => (p.1.name, p.2)).map Prod.fst =
      d.objects.keys := by
    rw [← regular.map_name_numbered, List.map_map]
    rfl
  have entries : (Lowering.symbolTable d).entries =
      (Lowering.numbered d).map fun p => (p.1.name, p.2) :=
    Table.entries_ofList (by rw [keys]; exact d.objects.distinct)
  have objects {p : Object × Nat} (h : p ∈ Lowering.numbered d) : p.1 ∈ d.objects.values :=
    List.fst_mem_of_mem_zipIdx h
  rw [Table.find?_eq_some_iff, entries, List.mem_map]
  constructor
  · intro ⟨p, member, same⟩
    obtain ⟨named, numbered⟩ := Prod.mk.inj same
    have owner : p.1 = o := by
      apply regular.object_eq (objects member) (Table.mem_values_of_find? found)
      rw [named, regular.object_name found]
    rw [← owner, ← numbered]
    exact member
  · intro member
    exact ⟨(o, i), member, by rw [regular.object_name found]⟩

/-- Every object has a number. -/
theorem exists_symbol (regular : d.Regular) {name : String} {o : Object}
    (found : d.objects.find? name = some o) :
    ∃ i, (Lowering.symbolTable d).find? name = some i := by
  have member := Table.mem_values_of_find? found
  rw [← Lowering.map_fst_numbered] at member
  obtain ⟨p, here, rfl⟩ := List.mem_map.mp member
  exact ⟨p.2, (regular.symbolTable_find? found).mpr here⟩

end Document.Regular

/-! ## Accessor clauses -/

/-- With distinct keys, one element has the key of an element. -/
theorem filter_key_eq {α : Type} {key : α → String} {l : List α} {a : α}
    (distinct : (l.map key).Nodup) (member : a ∈ l) : l.filter (key · == key a) = [a] := by
  induction l with
  | nil => cases member
  | cons b rest ih =>
    rw [List.map_cons, List.nodup_cons] at distinct
    rcases List.mem_cons.mp member with rfl | member
    · have none : rest.filter (key · == key a) = [] := by
        rw [List.filter_eq_nil_iff]
        intro c there same
        exact distinct.1 (List.mem_map.mpr ⟨c, there, by simpa using same⟩)
      simp [none]
    · have other : key b ≠ key a := fun same => distinct.1 (List.mem_map.mpr ⟨a, member, same.symm⟩)
      rw [List.filter_cons_of_neg (by simpa using other), ih distinct.2 member]

namespace Lowering

variable {naming : Naming} {d : Document}

/-- No two objects have one number. -/
theorem numbered_inj {o o' : Object} {i : Nat} (member : (o, i) ∈ numbered d)
    (member' : (o', i) ∈ numbered d) : o = o' := by
  have here : d.objects.values[i - 1]? = some o :=
    (List.mem_zipIdx_iff_le_and_getElem?_sub.mp member).2
  have there : d.objects.values[i - 1]? = some o' :=
    (List.mem_zipIdx_iff_le_and_getElem?_sub.mp member').2
  exact Option.some.inj (here.symm.trans there)

theorem Each.exists_of_mem {α β : Type} {f : α → Lower β} {k k' : Nat} {as : List α} {bs : List β}
    (each : Each f k as bs k') {b : β} (member : b ∈ bs) :
    ∃ a ∈ as, ∃ k k', Gives (f a) k b k' := by
  induction each with
  | nil => cases member
  | cons first _ ih =>
    rcases List.mem_cons.mp member with rfl | member
    · exact ⟨_, List.mem_cons_self, _, _, first⟩
    · obtain ⟨a, here, h⟩ := ih member
      exact ⟨a, List.mem_cons_of_mem _ here, h⟩

/-- No two accessors have one name. -/
theorem nodup_accessors (regular : d.Regular) :
    (((numbered d).flatMap accessors).map (Logic.Clause.predicate naming)).Nodup := by
  have names (p : Object × Nat) : (accessors p).map (Logic.Clause.predicate naming) =
      (p.1.fields.map Field.name).map (naming.accessor p.2) := by
    have first : p.1.fields.zipIdx.map Prod.fst = p.1.fields := List.zipIdx_map_fst ..
    calc (accessors p).map (Logic.Clause.predicate naming)
        = ((p.1.fields.zipIdx.map Prod.fst).map Field.name).map (naming.accessor p.2) := by
          rw [accessors, List.map_map, List.map_map, List.map_map]
          rfl
      _ = (p.1.fields.map Field.name).map (naming.accessor p.2) := by rw [first]
  rw [List.map_flatMap, List.nodup_flatMap]
  simp only [names]
  constructor
  · intro p member
    have distinct := regular.fields p.1 (List.fst_mem_of_mem_zipIdx member)
    exact distinct.map fun f g same => (Naming.accessor_inj same).2
  · have indices : ((numbered d).map Prod.snd).Nodup := by
      rw [numbered, List.zipIdx_map_snd]
      exact List.nodup_range'
    refine (List.pairwise_map.mp indices).imp fun {p q} other => ?_
    intro name here there
    obtain ⟨f, _, rfl⟩ := List.mem_map.mp here
    obtain ⟨g, _, same⟩ := List.mem_map.mp there
    exact other (Naming.accessor_inj same).1.symm

/-- A name that is free stays free when it is written as an atom. -/
theorem not_taken_atom (plain : Text.isPlainAtom naming.objectPrefix.toList = true) {name : String}
    (free : ¬ naming.Taken name) : ¬ naming.Taken (Logic.atom name) := by
  unfold Logic.atom
  split
  · exact free
  · -- A quote starts the one and a letter the other.
    intro ⟨digits, rest, _, _, chars⟩
    cases start : naming.objectPrefix.toList with
    | nil => simp [start, Text.isPlainAtom] at plain
    | cons c more =>
      simp only [start, Logic.quoted, Logic.quotedChars, String.toList_ofList, List.cons_append,
        List.cons.injEq] at chars
      rw [start, ← chars.1] at plain
      simp [Text.isPlainAtom, Char.isLower] at plain

/-- A predicate of the document has not the name of an accessor. -/
theorem atom_ne_accessor (plain : Text.isPlainAtom naming.objectPrefix.toList = true)
    {name : String}
    (free : ¬ naming.Taken name) (i : Nat) (field : String) :
    Logic.atom name ≠ naming.accessor i field := by
  intro same
  apply not_taken_atom plain free
  rw [same]
  exact Naming.taken_accessor i field

end Lowering

end Rulebook
