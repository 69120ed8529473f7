import Rulebook.Lowering.Document
import Rulebook.Proofs.Text.Decimal

/-!
# Names that generated clauses take

Which names of a document could be taken for generated ones: variables that are written like fresh
variables, and predicates that are written like objects or accessors.
-/

namespace Rulebook

namespace Naming

/-- The variable of this name is written like a fresh one: the text before fresh variables, then
digits. -/
def Reserved (naming : Naming) (name : String) : Prop :=
  ∃ digits, Digits digits ∧
    Logic.variableChars name.toList = naming.variablePrefix.toList ++ digits

/-- The name is that of an object, or of an accessor: the text before objects, then digits, then
nothing or an underscore. -/
def Taken (naming : Naming) (name : String) : Prop :=
  ∃ digits rest, Digits digits ∧ (rest = [] ∨ ∃ more, rest = '_' :: more) ∧
    name.toList = naming.objectPrefix.toList ++ digits ++ rest

end Naming

/-! ## Numbers in names -/

/-- Digits before an underscore end where the underscore stands. -/
theorem digits_append_inj {ds es rest more : List Char} (hd : Digits ds) (he : Digits es)
    (h : ds ++ '_' :: rest = es ++ '_' :: more) : ds = es ∧ rest = more := by
  have taken {cs : List Char} (hc : Digits cs) (after : List Char) :
      (cs ++ '_' :: after).takeWhile Char.isDigit = cs := by
    rw [List.takeWhile_append_of_pos hc.all]
    simp
  have same : ds = es := by
    rw [← taken hd rest, h, taken he]
  subst same
  have after := List.append_cancel_left h
  simp only [List.cons.injEq, true_and] at after
  exact ⟨rfl, after⟩

namespace Naming

variable {naming : Naming}

/-- Usable texts before generated names are a plain atom and a plain variable. -/
theorem validate_eq_ok_iff :
    naming.validate = .ok () ↔ Text.isPlainAtom naming.objectPrefix.toList = true ∧
      Text.isPlainVariable naming.variablePrefix.toList = true := by
  unfold validate
  split
  · simp_all
  · split <;> simp_all

theorem toList_fresh (i : Nat) :
    (naming.fresh i).toList = naming.variablePrefix.toList ++ (toString i).toList := by
  simp [fresh]

/-- Fresh variables with different numbers have different names. -/
theorem fresh_inj {i j : Nat} (h : naming.fresh i = naming.fresh j) : i = j := by
  have chars := congrArg String.toList h
  rw [toList_fresh, toList_fresh] at chars
  exact toString_nat_inj (String.toList_inj.mp (List.append_cancel_left chars))

theorem toList_accessor (i : Nat) (field : String) :
    (naming.accessor i field).toList =
      naming.objectPrefix.toList ++ ((toString i).toList ++ '_' :: field.toList) := by
  simp [accessor, object]

/-- Accessors of different objects or of different fields have different names. -/
theorem accessor_inj {i j : Nat} {f g : String} (h : naming.accessor i f = naming.accessor j g) :
    i = j ∧ f = g := by
  have chars := congrArg String.toList h
  rw [toList_accessor, toList_accessor] at chars
  obtain ⟨digits, field⟩ :=
    digits_append_inj (digits_toString i) (digits_toString j) (List.append_cancel_left chars)
  exact ⟨toString_nat_inj (String.toList_inj.mp digits), String.toList_inj.mp field⟩

theorem toList_object (i : Nat) :
    (naming.object i).toList = naming.objectPrefix.toList ++ (toString i).toList := by
  simp [object]

/-- Objects with different numbers have different names. -/
theorem object_inj {i j : Nat} (h : naming.object i = naming.object j) : i = j := by
  have chars := congrArg String.toList h
  rw [toList_object, toList_object] at chars
  exact toString_nat_inj (String.toList_inj.mp (List.append_cancel_left chars))

/-- The name of an accessor goes on after the number, the name of an object ends there. -/
theorem object_ne_accessor (i j : Nat) (field : String) :
    naming.object i ≠ naming.accessor j field := by
  intro h
  have chars := congrArg String.toList h
  rw [toList_object, toList_accessor] at chars
  have underscore : '_' ∈ (toString i).toList := by
    rw [List.append_cancel_left chars]
    simp
  exact absurd ((digits_toString i).all '_' underscore) (by decide)

/-- The name of an object is taken. -/
theorem taken_object (i : Nat) : naming.Taken (naming.object i) := by
  refine ⟨(toString i).toList, [], digits_toString i, .inl rfl, ?_⟩
  rw [toList_object, List.append_nil]

/-- A name that is taken holds a digit. -/
theorem Taken.exists_digit {name : String} (taken : naming.Taken name) :
    ∃ c ∈ name.toList, c.isDigit = true := by
  rcases taken with ⟨digits, rest, isDigits, _, written⟩
  obtain ⟨c, here⟩ := List.exists_mem_of_ne_nil _ isDigits.some
  refine ⟨c, ?_, isDigits.all c here⟩
  rw [written]
  exact List.mem_append_left _ (List.mem_append_right _ here)

/-- The name of an accessor is taken. -/
theorem taken_accessor (i : Nat) (field : String) : naming.Taken (naming.accessor i field) := by
  refine ⟨(toString i).toList, '_' :: field.toList, digits_toString i, .inr ⟨_, rfl⟩, ?_⟩
  rw [toList_accessor, List.append_assoc]

end Naming

namespace Lowering

theorem dropStart?_eq_some_iff {start text rest : List Char} :
    dropStart? start text = some rest ↔ text = start ++ rest := by
  induction start generalizing text with
  | nil => simp [dropStart?]
  | cons s start ih =>
    cases text with
    | nil => simp [dropStart?]
    | cons c text =>
      by_cases same : s = c
      · simp [dropStart?, same, ih]
      · simp [dropStart?, same, Ne.symm same]

theorem isFreshName_iff {naming : Naming} {name : String} :
    isFreshName naming (Logic.variableChars name.toList) = true ↔ naming.Reserved name := by
  unfold isFreshName Naming.Reserved
  constructor
  · intro h
    split at h
    · rename_i c rest found
      refine ⟨c :: rest, ⟨by simp, ?_⟩, dropStart?_eq_some_iff.mp found⟩
      simpa only [List.all_eq_true] using h
    · simp at h
  · intro ⟨digits, h, written⟩
    rw [dropStart?_eq_some_iff.mpr written]
    cases digits with
    | nil => exact absurd rfl h.some
    | cons c rest =>
      rw [List.all_eq_true]
      exact h.all

theorem isObjectName_iff {naming : Naming} {name : String} :
    isObjectName naming name.toList = true ↔ naming.Taken name := by
  unfold isObjectName Naming.Taken
  constructor
  · intro h
    split at h
    · rename_i text found
      simp only [Bool.and_eq_true, Bool.not_eq_true', List.isEmpty_eq_false_iff] at h
      rcases h with ⟨some, after⟩
      refine ⟨text.takeWhile Char.isDigit, text.dropWhile Char.isDigit, ⟨some, ?_⟩, ?_, ?_⟩
      · intro c member
        exact List.all_eq_true.mp List.all_takeWhile c member
      · split at after
        · rename_i none
          exact .inl none
        · rename_i c more first
          have underscore : c = '_' := by simpa using after
          exact .inr ⟨more, by rw [first, underscore]⟩
      · rw [List.append_assoc, List.takeWhile_append_dropWhile]
        exact dropStart?_eq_some_iff.mp found
    · simp at h
  · intro ⟨digits, rest, h, after, written⟩
    rw [List.append_assoc] at written
    have none : rest.takeWhile Char.isDigit = [] ∧ rest.dropWhile Char.isDigit = rest := by
      rcases after with rfl | ⟨more, rfl⟩ <;> simp
    have taken : (digits ++ rest).takeWhile Char.isDigit = digits := by
      rw [List.takeWhile_append_of_pos h.all, none.1, List.append_nil]
    have left : (digits ++ rest).dropWhile Char.isDigit = rest := by
      rw [List.dropWhile_append_of_pos h.all, none.2]
    rw [dropStart?_eq_some_iff.mpr written]
    simp only [taken, left]
    rcases after with rfl | ⟨more, rfl⟩
    · simp [h.some]
    · simp [h.some]

end Lowering

end Rulebook
