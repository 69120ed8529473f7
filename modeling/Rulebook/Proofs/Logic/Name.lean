import Mathlib
import Rulebook.Logic.Name

/-!
# Names stay distinct

Distinct names of a document are written as distinct variables and as distinct atoms, and no name is
written as the anonymous variable.
-/

namespace Rulebook.Logic

/-! ## Hexadecimal digits -/

theorem digitChar_inj {m n : Nat} (hm : m < 16) (hn : n < 16)
    (h : Nat.digitChar m = Nat.digitChar n) : m = n := by
  have all : ∀ a < 16, ∀ b < 16, Nat.digitChar a = Nat.digitChar b → a = b := by decide
  exact all m hm n hn h

theorem toDigits_inj {m n : Nat} (h : Nat.toDigits 16 m = Nat.toDigits 16 n) : m = n := by
  induction m using Nat.strongRecOn generalizing n with
  | ind m ih =>
    rw [Nat.toDigits_eq_if (by decide), @Nat.toDigits_eq_if 16 n (by decide)] at h
    by_cases small : m < 16
    · by_cases small' : n < 16
      · simp only [small, small', if_true, List.cons.injEq, and_true] at h
        exact digitChar_inj small small' h
      · rw [if_pos small, if_neg small'] at h
        have size := congrArg List.length h
        have more := @Nat.length_toDigits_pos 16 (n / 16)
        simp only [List.length_append, List.length_cons, List.length_nil] at size
        omega
    · by_cases small' : n < 16
      · rw [if_neg small, if_pos small'] at h
        have size := congrArg List.length h
        have more := @Nat.length_toDigits_pos 16 (m / 16)
        simp only [List.length_append, List.length_cons, List.length_nil] at size
        omega
      · rw [if_neg small, if_neg small'] at h
        obtain ⟨high, low⟩ := List.append_inj' h rfl
        have quotient := ih (m / 16) (by omega) high
        have remainder := digitChar_inj (Nat.mod_lt m (by decide)) (Nat.mod_lt n (by decide))
          (by simpa using low)
        omega

theorem not_mem_toDigits {c : Char} (digit : ∀ m < 16, c ≠ Nat.digitChar m) (n : Nat) :
    c ∉ Nat.toDigits 16 n := by
  induction n using Nat.strongRecOn with
  | ind n ih =>
    rw [Nat.toDigits_eq_if (by decide)]
    by_cases small : n < 16
    · simp only [small, if_true, List.mem_singleton]
      exact digit n small
    · rw [if_neg small, List.mem_append, List.mem_singleton, not_or]
      exact ⟨ih (n / 16) (by omega), digit (n % 16) (Nat.mod_lt n (by decide))⟩

/-! ## Code points -/

theorem codePoints_inj {a b : List Char} (ha : a ≠ []) (hb : b ≠ [])
    (h : codePoints a = codePoints b) : a = b := by
  have split (cs : List Char) (some : cs ≠ []) :
      (codePoints cs).splitOn '_' = cs.map fun c => Nat.toDigits 16 c.toNat := by
    apply List.splitOn_intercalate
    · intro l member
      obtain ⟨c, _, rfl⟩ := List.mem_map.mp member
      exact not_mem_toDigits (by decide) c.toNat
    · simpa using some
  have same : a.map (fun c => Nat.toDigits 16 c.toNat) = b.map fun c => Nat.toDigits 16 c.toNat := by
    rw [← split a ha, ← split b hb, h]
  refine (List.map_inj_right fun c c' digits => ?_).mp same
  exact Char.toNat_inj.mp (toDigits_inj digits)

theorem codePoints_ne_nil {c : Char} {cs : List Char} : codePoints (c :: cs) ≠ [] := by
  intro none
  have some := @Nat.toDigits_ne_nil c.toNat 16
  cases cs with
  | nil => simp [codePoints, List.intercalate, some] at none
  | cons c' cs => simp [codePoints, List.intercalate] at none

/-! ## Variables -/

/-- The three ways in which a name that is not empty is written. -/
theorem variableChars_cons (c : Char) (cs : List Char) :
    (Text.isPlainAtom (c :: cs) = true ∧ variableChars (c :: cs) = c.toUpper :: cs) ∨
    (Text.isPlainAtom (c :: cs) = false ∧ (c :: cs).all Text.isPlainPart = true ∧
      variableChars (c :: cs) = '_' :: c :: cs) ∨
    ((c :: cs).all Text.isPlainPart = false ∧
      variableChars (c :: cs) = '_' :: 'u' :: codePoints (c :: cs)) := by
  by_cases atom : Text.isPlainAtom (c :: cs) = true
  · exact .inl ⟨atom, by rw [variableChars, if_pos atom]⟩
  · by_cases plain : (c :: cs).all Text.isPlainPart = true
    · refine .inr (.inl ⟨by simpa using atom, plain, ?_⟩)
      rw [variableChars, if_neg atom, if_pos plain]
    · refine .inr (.inr ⟨by simpa using plain, ?_⟩)
      rw [variableChars, if_neg atom, if_neg plain]

theorem isLower_iff {c : Char} :
    c.isLower = true ↔ 'a'.val ≤ c.val ∧ c.val ≤ 'z'.val := by
  simp [Char.isLower]

theorem val_toUpper {c : Char} (hc : c.isLower = true) :
    c.toUpper.val = c.val + ('A'.val - 'a'.val) := by
  rw [Char.toUpper, dif_pos (isLower_iff.mp hc)]

theorem toUpper_inj {c c' : Char} (hc : c.isLower = true) (hc' : c'.isLower = true)
    (h : c.toUpper = c'.toUpper) : c = c' := by
  have vals := congrArg Char.val h
  rw [val_toUpper hc, val_toUpper hc', UInt32.add_left_inj] at vals
  exact Char.ext vals

/-- A capitalised name does not start with an underscore. -/
theorem toUpper_ne_underscore {c : Char} (hc : c.isLower = true) : c.toUpper ≠ '_' := by
  intro same
  have vals := congrArg Char.val same
  have range := isLower_iff.mp hc
  rw [val_toUpper hc] at vals
  have small : c.val = '_'.val - ('A'.val - 'a'.val) := by
    rw [← vals, UInt32.add_sub_cancel]
  rw [small] at range
  exact absurd range (by decide)

theorem isLower_of_isPlainAtom {c : Char} {cs : List Char}
    (atom : Text.isPlainAtom (c :: cs) = true) : c.isLower = true := by
  simp only [Text.isPlainAtom, Bool.and_eq_true] at atom
  exact atom.1

theorem isPlainPart_of_isPlainAtom {chars : List Char} (atom : Text.isPlainAtom chars = true) :
    ∀ c ∈ chars, Text.isPlainPart c = true := by
  cases chars with
  | nil => cases atom
  | cons c cs =>
    simp only [Text.isPlainAtom, Bool.and_eq_true, List.all_eq_true] at atom
    intro d member
    rcases List.mem_cons.mp member with rfl | member
    · simp [Text.isPlainPart, Char.isAlphanum, Char.isAlpha, atom.1]
    · exact atom.2 d member

/-- A plain name that is no plain atom does not start with a lower case letter, so it is not written
like a name that is spelled out. -/
theorem not_isLower_of_not_isPlainAtom {c : Char} {cs : List Char}
    (atom : Text.isPlainAtom (c :: cs) = false) (plain : (c :: cs).all Text.isPlainPart = true) :
    c.isLower = false := by
  simp only [List.all_cons, Bool.and_eq_true] at plain
  simpa [Text.isPlainAtom, plain.2] using atom

theorem variableChars_cons_inj {c c' : Char} {cs cs' : List Char}
    (h : variableChars (c :: cs) = variableChars (c' :: cs')) : c :: cs = c' :: cs' := by
  rcases variableChars_cons c cs with ⟨atom, written⟩ | ⟨noAtom, plain, written⟩ | ⟨odd, written⟩
  · rcases variableChars_cons c' cs' with ⟨atom', written'⟩ | ⟨_, _, written'⟩ | ⟨_, written'⟩
    · rw [written, written', List.cons.injEq] at h
      rw [toUpper_inj (isLower_of_isPlainAtom atom) (isLower_of_isPlainAtom atom') h.1, h.2]
    · rw [written, written', List.cons.injEq] at h
      exact absurd h.1 (toUpper_ne_underscore (isLower_of_isPlainAtom atom))
    · rw [written, written', List.cons.injEq] at h
      exact absurd h.1 (toUpper_ne_underscore (isLower_of_isPlainAtom atom))
  · have first := not_isLower_of_not_isPlainAtom noAtom plain
    rcases variableChars_cons c' cs' with ⟨atom', written'⟩ | ⟨_, _, written'⟩ | ⟨_, written'⟩
    · rw [written, written', List.cons.injEq] at h
      exact absurd h.1.symm (toUpper_ne_underscore (isLower_of_isPlainAtom atom'))
    · rw [written, written', List.cons.injEq] at h
      exact h.2
    · rw [written, written', List.cons.injEq, List.cons.injEq] at h
      rw [h.2.1] at first
      exact absurd first (by decide)
  · rcases variableChars_cons c' cs' with ⟨atom', written'⟩ | ⟨noAtom', plain', written'⟩ |
      ⟨_, written'⟩
    · rw [written, written', List.cons.injEq] at h
      exact absurd h.1.symm (toUpper_ne_underscore (isLower_of_isPlainAtom atom'))
    · have first := not_isLower_of_not_isPlainAtom noAtom' plain'
      rw [written, written', List.cons.injEq, List.cons.injEq] at h
      rw [← h.2.1] at first
      exact absurd first (by decide)
    · rw [written, written', List.cons.injEq, List.cons.injEq] at h
      exact codePoints_inj (by simp) (by simp) h.2.2

/-- The empty name is the only one that is written with nothing after its first two characters. -/
theorem variableChars_cons_ne_nil {c : Char} {cs : List Char} :
    variableChars (c :: cs) ≠ variableChars [] := by
  intro h
  rcases variableChars_cons c cs with ⟨atom, written⟩ | ⟨noAtom, plain, written⟩ | ⟨_, written⟩
  · rw [written, variableChars, List.cons.injEq] at h
    exact toUpper_ne_underscore (isLower_of_isPlainAtom atom) h.1
  · have first := not_isLower_of_not_isPlainAtom noAtom plain
    rw [written, variableChars, List.cons.injEq, List.cons.injEq] at h
    rw [h.2.1] at first
    exact absurd first (by decide)
  · rw [written, variableChars, List.cons.injEq, List.cons.injEq] at h
    exact codePoints_ne_nil h.2.2

/-- Distinct names are written as distinct variables. -/
theorem variableName_inj {a b : String} (h : variableName a = variableName b) : a = b := by
  have chars : variableChars a.toList = variableChars b.toList := by
    simpa [variableName] using congrArg String.toList h
  apply String.toList_inj.mp
  cases first : a.toList with
  | nil =>
    cases second : b.toList with
    | nil => rfl
    | cons c cs =>
      rw [first, second] at chars
      exact absurd chars.symm variableChars_cons_ne_nil
  | cons c cs =>
    cases second : b.toList with
    | nil =>
      rw [first, second] at chars
      exact absurd chars variableChars_cons_ne_nil
    | cons c' cs' =>
      rw [first, second] at chars
      exact variableChars_cons_inj chars

/-- No name is written as the anonymous variable. -/
theorem variableName_ne_anonymous (name : String) : variableName name ≠ "_" := by
  intro h
  have chars : variableChars name.toList = ['_'] := by
    simpa [variableName] using congrArg String.toList h
  cases letters : name.toList with
  | nil => simp [letters, variableChars] at chars
  | cons c cs =>
    rw [letters] at chars
    rcases variableChars_cons c cs with ⟨atom, written⟩ | ⟨_, _, written⟩ | ⟨_, written⟩
    · rw [written, List.cons.injEq] at chars
      exact toUpper_ne_underscore (isLower_of_isPlainAtom atom) chars.1
    · simp [written] at chars
    · simp [written] at chars

/-! ## Atoms -/

/-- What a character is written as inside quotes tells the character and where it ends. -/
theorem quoteChar_append_inj {c c' : Char} {rest rest' : List Char}
    (h : quoteChar c ++ rest = quoteChar c' ++ rest') : c = c' ∧ rest = rest' := by
  unfold quoteChar at h
  by_cases escaped : c = '\\' ∨ c = '\''
  · rw [if_pos escaped] at h
    by_cases escaped' : c' = '\\' ∨ c' = '\''
    · simpa [if_pos escaped'] using h
    · rw [if_neg escaped'] at h
      exact absurd (.inl (List.cons.inj h).1.symm) escaped'
  · rw [if_neg escaped] at h
    by_cases escaped' : c' = '\\' ∨ c' = '\''
    · rw [if_pos escaped'] at h
      exact absurd (.inl (List.cons.inj h).1) escaped
    · simpa [if_neg escaped'] using h

/-- The closing quote is the first one that nothing is written before. -/
theorem flatMap_quoteChar_append_inj {a b rest rest' : List Char}
    (h : a.flatMap quoteChar ++ '\'' :: rest = b.flatMap quoteChar ++ '\'' :: rest') :
    a = b ∧ rest = rest' := by
  have inside (c : Char) (cs more : List Char) : '\'' :: more ≠ quoteChar c ++ cs := by
    intro same
    unfold quoteChar at same
    split at same
    · cases same
    · rename_i plain
      exact plain (.inr (List.cons.inj same).1.symm)
  induction a generalizing b with
  | nil =>
    cases b with
    | nil => exact ⟨rfl, (List.cons.inj h).2⟩
    | cons c cs =>
      rw [List.flatMap_cons, List.append_assoc] at h
      exact absurd h (inside _ _ _)
  | cons c cs ih =>
    cases b with
    | nil =>
      rw [List.flatMap_cons, List.append_assoc] at h
      exact absurd h.symm (inside _ _ _)
    | cons c' cs' =>
      rw [List.flatMap_cons, List.flatMap_cons, List.append_assoc, List.append_assoc] at h
      obtain ⟨same, later⟩ := quoteChar_append_inj h
      obtain ⟨sames, after⟩ := ih later
      exact ⟨by rw [same, sames], after⟩

/-- A text in quotes tells where it ends. -/
theorem quoted_append_inj {a b rest rest' : String} (h : quoted a ++ rest = quoted b ++ rest') :
    a = b ∧ rest = rest' := by
  have chars := congrArg String.toList h
  simp only [quoted, quotedChars, String.toList_append, String.toList_ofList, List.cons_append,
    List.append_assoc, List.nil_append, List.cons.injEq, true_and] at chars
  obtain ⟨same, after⟩ := flatMap_quoteChar_append_inj chars
  exact ⟨String.toList_inj.mp same, String.toList_inj.mp after⟩

/-- Distinct texts stay distinct in quotes. -/
theorem quoted_inj {a b : String} (h : quoted a = quoted b) : a = b :=
  (quoted_append_inj (congrArg (· ++ "") h)).1

/-- A text in quotes does not start like a plain atom. -/
theorem not_isPlainAtom_quoted (text : String) : Text.isPlainAtom (quoted text).toList = false := by
  simp [quoted, quotedChars, Text.isPlainAtom, Char.isLower]

/-- Distinct names are written as distinct atoms. -/
theorem atom_inj {a b : String} (h : atom a = atom b) : a = b := by
  unfold atom at h
  by_cases plain : Text.isPlainAtom a.toList = true
  · rw [if_pos plain] at h
    by_cases plain' : Text.isPlainAtom b.toList = true
    · rwa [if_pos plain'] at h
    · rw [if_neg plain'] at h
      rw [h, not_isPlainAtom_quoted] at plain
      cases plain
  · rw [if_neg plain] at h
    by_cases plain' : Text.isPlainAtom b.toList = true
    · rw [if_pos plain'] at h
      rw [← h, not_isPlainAtom_quoted] at plain'
      cases plain'
    · rw [if_neg plain'] at h
      exact quoted_inj h

end Rulebook.Logic
