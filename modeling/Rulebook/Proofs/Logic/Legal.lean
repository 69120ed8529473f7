import Rulebook.Proofs.Logic.Name

/-!
# Names are legal and can be read back

Every name is written as a legal variable, and every text in quotes can be read back: `readQuoted?`
undoes the two escapes and stops at the first quote that is not escaped. It reads exactly the quoted
texts, so what follows them is never taken for a part of them.
-/

namespace Rulebook

/-! ## Separated texts -/

theorem mem_intercalate_of_mem {α : Type} {a : α} {separator l : List α} {ls : List (List α)}
    (member : l ∈ ls) (here : a ∈ l) : a ∈ separator.intercalate ls := by
  induction ls with
  | nil => cases member
  | cons first rest ih =>
    cases rest with
    | nil =>
      rw [List.mem_singleton.mp member] at here
      simpa [List.intercalate] using here
    | cons next rest =>
      rw [List.intercalate_cons_cons, List.mem_append, List.mem_append]
      rcases List.mem_cons.mp member with rfl | member
      · exact .inl (.inl here)
      · exact .inr (ih member)

theorem mem_intercalate {α : Type} {a : α} {separator : List α} (other : a ∉ separator)
    (ls : List (List α)) : a ∈ separator.intercalate ls ↔ ∃ l ∈ ls, a ∈ l := by
  refine ⟨fun here => ?_, fun ⟨l, member, here⟩ => mem_intercalate_of_mem member here⟩
  induction ls with
  | nil => cases here
  | cons first rest ih =>
    cases rest with
    | nil => exact ⟨first, List.mem_cons_self, by simpa [List.intercalate] using here⟩
    | cons next rest =>
      rw [List.intercalate_cons_cons, List.mem_append, List.mem_append] at here
      rcases here with (here | between) | later
      · exact ⟨first, List.mem_cons_self, here⟩
      · exact absurd between other
      · obtain ⟨l, member, inside⟩ := ih later
        exact ⟨l, List.mem_cons_of_mem _ member, inside⟩

namespace Logic

/-! ## Variables -/

theorem isPlainPart_of_mem_toDigits {c : Char} {n : Nat} (member : c ∈ Nat.toDigits 16 n) :
    Text.isPlainPart c = true := by
  have digits : ∀ m < 16, Text.isPlainPart (Nat.digitChar m) = true := by decide
  by_contra odd
  refine not_mem_toDigits (fun m small same => odd ?_) n member
  rw [same]
  exact digits m small

theorem isPlainPart_of_mem_codePoints {c : Char} {name : List Char}
    (member : c ∈ codePoints name) : Text.isPlainPart c = true := by
  by_cases between : c = '_'
  · subst between
    decide
  · rw [codePoints, mem_intercalate (by simpa using between)] at member
    obtain ⟨digits, spelled, here⟩ := member
    obtain ⟨d, _, rfl⟩ := List.mem_map.mp spelled
    exact isPlainPart_of_mem_toDigits here

/-- A lower case letter is capitalised to an upper case one. -/
theorem isUpper_toUpper {c : Char} (lower : c.isLower = true) : c.toUpper.isUpper = true := by
  have letters : ∀ n ∈ List.range' 97 26, (Char.ofNat n).toUpper.isUpper = true := by decide
  obtain ⟨low, high⟩ := isLower_iff.mp lower
  have low : 97 ≤ c.toNat := low
  have high : c.toNat ≤ 122 := high
  rw [← Char.ofNat_toNat c]
  exact letters _ (List.mem_range'_1.mpr ⟨low, by omega⟩)

/-- Whatever the name is, the variable is legal. -/
theorem isPlainVariable_variableChars (name : List Char) :
    Text.isPlainVariable (variableChars name) = true := by
  cases name with
  | nil => decide
  | cons c cs =>
    rcases variableChars_cons c cs with ⟨atom, written⟩ | ⟨_, plain, written⟩ | ⟨_, written⟩
    · rw [written, Text.isPlainVariable, isUpper_toUpper (isLower_of_isPlainAtom atom)]
      simp only [Text.isPlainAtom, Bool.and_eq_true] at atom
      exact atom.2
    · rw [written]
      exact plain
    · rw [written, Text.isPlainVariable, List.all_cons]
      have spelled : (codePoints (c :: cs)).all Text.isPlainPart = true :=
        List.all_eq_true.mpr fun _ => isPlainPart_of_mem_codePoints
      rw [spelled]
      decide

/-- Every name has a variable of its own, whatever its characters are. The variable is legal: an upper
case letter or an underscore, then ASCII letters, digits and underscores. It is not the anonymous
one. -/
theorem variables_legal_distinct :
    (∀ a b : String, variableName a = variableName b ↔ a = b) ∧
    ∀ name : String, (∃ c cs, (variableName name).toList = c :: cs ∧
        (c.isUpper = true ∨ c = '_') ∧ ∀ d ∈ cs, d.isAlphanum = true ∨ d = '_') ∧
      variableName name ≠ "_" := by
  refine ⟨fun a b => ⟨variableName_inj, congrArg variableName⟩, fun name => ⟨?_, ?_⟩⟩
  · have legal := isPlainVariable_variableChars name.toList
    rw [variableName, String.toList_ofList]
    cases written : variableChars name.toList with
    | nil =>
      rw [written] at legal
      cases legal
    | cons c cs =>
      rw [written] at legal
      exact ⟨c, cs, rfl, by simpa [Text.isPlainVariable, Text.isPlainPart] using legal⟩
  · exact variableName_ne_anonymous name

/-- Names that look like what other names are written as. -/
example : ["", "u", "_u", "u41", "_u41_42", "AB", "名", "p", "P", "_"].map variableName =
    ["_u", "U", "__u", "U41", "__u41_42", "_AB", "_u540d", "P", "_P", "__"] := by decide +kernel

/-! ## Texts in quotes -/

/-- What stands before the first quote that is not escaped, and what follows that quote. A backslash
escapes a quote or a backslash, and nothing else. -/
def inside? : List Char → Option (List Char × List Char)
  | [] => none
  | '\'' :: rest => some ([], rest)
  | '\\' :: c :: rest =>
    if c = '\\' ∨ c = '\'' then (inside? rest).map fun (text, after) => (c :: text, after) else none
  | c :: rest =>
    if c = '\\' then none else (inside? rest).map fun (text, after) => (c :: text, after)

/-- Read a text in quotes: what it says, and what follows it. -/
def readQuoted? (text : String) : Option (String × String) :=
  match text.toList with
  | '\'' :: rest => (inside? rest).map fun (text, after) => (.ofList text, .ofList after)
  | _ => none

/-- A pass over a text that puts a backslash before every such character. -/
def escape (mark : Char) (text : List Char) : List Char :=
  text.flatMap fun c => if c = mark then ['\\', c] else [c]

/-- One pass is as good as two, if backslashes are escaped before the quotes bring in new ones. -/
theorem flatMap_quoteChar (text : List Char) :
    text.flatMap quoteChar = escape '\'' (escape '\\' text) := by
  induction text with
  | nil => rfl
  | cons c cs ih =>
    unfold escape at ih ⊢
    rw [List.flatMap_cons, List.flatMap_cons, List.flatMap_append, ← ih]
    congr 1
    by_cases backslash : c = '\\'
    · subst backslash
      decide
    · by_cases quote : c = '\''
      · subst quote
        decide
      · simp [quoteChar, backslash, quote]

theorem inside?_quoteChar_append (c : Char) (rest : List Char) :
    inside? (quoteChar c ++ rest) =
      (inside? rest).map fun (text, after) => (c :: text, after) := by
  unfold quoteChar
  by_cases escaped : c = '\\' ∨ c = '\''
  · rw [if_pos escaped]
    exact if_pos escaped
  · rw [if_neg escaped]
    rw [not_or] at escaped
    rw [List.singleton_append, inside?, if_neg escaped.1]
    · exact escaped.2
    · exact fun _ _ same _ => escaped.1 same

theorem inside?_quoted (text after : List Char) :
    inside? (text.flatMap quoteChar ++ '\'' :: after) = some (text, after) := by
  induction text with
  | nil => rfl
  | cons c cs ih =>
    rw [List.flatMap_cons, List.append_assoc, inside?_quoteChar_append, ih]
    rfl

/-- Nothing but a quoted text is read. -/
theorem eq_quoted_of_inside? {chars text after : List Char} (h : inside? chars = some (text, after)) :
    chars = text.flatMap quoteChar ++ '\'' :: after := by
  fun_induction inside? chars generalizing text with
  | case1 => cases h
  | case2 rest =>
    cases h
    rfl
  | case3 c rest escaped ih =>
    obtain ⟨⟨more, _⟩, inner, same⟩ := Option.map_eq_some_iff.mp h
    cases same
    rw [ih inner, List.flatMap_cons, quoteChar, if_pos escaped]
    rfl
  | case4 => cases h
  | case5 => cases h
  | case6 c rest notQuote _ notBackslash ih =>
    obtain ⟨⟨more, _⟩, inner, same⟩ := Option.map_eq_some_iff.mp h
    cases same
    have plain : ¬ (c = '\\' ∨ c = '\'') := fun escaped => escaped.elim notBackslash notQuote
    rw [ih inner, List.flatMap_cons, quoteChar, if_neg plain]
    rfl

theorem toList_quoted_append (text after : String) :
    (quoted text ++ after).toList =
      '\'' :: (text.toList.flatMap quoteChar ++ '\'' :: after.toList) := by
  simp [quoted, quotedChars]

theorem readQuoted?_quoted_append (text after : String) :
    readQuoted? (quoted text ++ after) = some (text, after) := by
  rw [readQuoted?, toList_quoted_append]
  simp [inside?_quoted]

theorem readQuoted?_eq_some_iff {whole text after : String} :
    readQuoted? whole = some (text, after) ↔ whole = quoted text ++ after := by
  refine ⟨fun h => ?_, fun same => same ▸ readQuoted?_quoted_append text after⟩
  unfold readQuoted? at h
  split at h
  · rename_i rest opened
    obtain ⟨⟨chars, later⟩, inner, same⟩ := Option.map_eq_some_iff.mp h
    cases same
    apply String.toList_inj.mp
    rw [opened, eq_quoted_of_inside? inner, toList_quoted_append, String.toList_ofList,
      String.toList_ofList]
  · cases h

/-- Texts in quotes tell where they end. A quoted text is read back as it was, whatever follows, and
nothing else is read, so no part at the start of it is a quoted text. Its escapes are those of two
passes, backslashes first. A name that is no plain atom is such a text; distinct texts and distinct
names are written differently. -/
theorem quoted_texts_exact :
    (∀ text after : String, readQuoted? (quoted text ++ after) = some (text, after)) ∧
    (∀ whole text after : String,
      readQuoted? whole = some (text, after) ↔ whole = quoted text ++ after) ∧
    (∀ text part after : String, quoted text = quoted part ++ after ↔ part = text ∧ after = "") ∧
    (∀ text : String, quoted text =
      "'" ++ .ofList (escape '\'' (escape '\\' text.toList)) ++ "'") ∧
    (∀ name after : String, Text.isPlainAtom name.toList = true ∧ atom name = name ∨
      readQuoted? (atom name ++ after) = some (name, after)) ∧
    (∀ a b : String, quoted a = quoted b ↔ a = b) ∧ ∀ a b : String, atom a = atom b ↔ a = b := by
  refine ⟨readQuoted?_quoted_append, fun _ _ _ => readQuoted?_eq_some_iff, fun text part after => ?_,
    fun text => ?_, fun name after => ?_, fun a b => ⟨quoted_inj, congrArg quoted⟩,
    fun a b => ⟨atom_inj, congrArg atom⟩⟩
  · constructor
    · intro same
      obtain ⟨rfl, rfl⟩ := quoted_append_inj (String.append_empty.trans same)
      exact ⟨rfl, rfl⟩
    · rintro ⟨rfl, rfl⟩
      exact String.append_empty.symm
  · apply String.toList_inj.mp
    simp [quoted, quotedChars, flatMap_quoteChar]
  · unfold atom
    split
    · exact .inl ⟨‹_›, rfl⟩
    · exact .inr (readQuoted?_quoted_append name after)

/-- Runs of backslashes and quotes, also at the end. -/
example : quoted "it's \\' \\" = "'it\\'s \\\\\\' \\\\'" ∧
    readQuoted? "'it\\'s \\\\\\' \\\\'), fail." = some ("it's \\' \\", "), fail.") := by decide +kernel

end Logic

end Rulebook
