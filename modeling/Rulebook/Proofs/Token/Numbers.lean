import Rulebook.Proofs.Token.Tiling

/-!
# Numbers in a text

Where a scanner comes to digits it gives an integer, if they are in range, or refuses them there and
then; if a point and more digits follow, it gives a number with a fraction, as it is written. Conversely
every integer that it gives stands in the text, where it says (`standsIn_of_mem_results`).
-/

namespace Rulebook

namespace Scanner

/-! ## Where a scanner stands -/

/-- The scanner has left this part of a text behind. -/
structure Behind (text before : List Char) (s : Scanner) : Prop where
  whole : text = before ++ s.rest
  position : s.position = .behind before

theorem behind_ofString (text : String) : (ofString text).Behind text.toList [] := ⟨rfl, rfl⟩

variable {text before : List Char} {s : Scanner}

theorem Behind.after (here : s.Behind text before) (cs : List Char) :
    s.position.after cs = .behind (before ++ cs) := by
  rw [here.position, ← Position.start_after, ← Position.after_append, Position.start_after]

/-- A step takes characters and leaves them behind. -/
theorem Behind.next (here : s.Behind text before) :
    ∃ taken, s.next.2.Behind text (before ++ taken) := by
  have blanks := List.takeWhile_append_dropWhile (p := Text.isBlank) (l := s.rest)
  have moved := here.after
  unfold Scanner.next
  split
  · rename_i none
    rw [none, List.append_nil] at blanks
    refine ⟨s.rest, ?_, ?_⟩
    · rw [here.whole, List.append_nil]
    · rw [blanks]
      exact moved s.rest
  · rename_i c rest starts
    rw [starts] at blanks
    refine ⟨s.rest.takeWhile Text.isBlank ++ (Reading.read c rest).taken, ?_, ?_⟩
    · rw [here.whole, List.append_assoc, List.append_assoc, Reading.read_taken_append_rest, blanks]
    · rw [← moved, Position.after_append]

theorem Behind.afterCalls (here : s.Behind text before) (n : Nat) :
    ∃ before', (s.afterCalls n).Behind text before' := by
  induction n generalizing s before with
  | zero => exact ⟨before, here⟩
  | succ n ih =>
    obtain ⟨taken, there⟩ := here.next
    exact ih there

/-! ## Digits -/

/-- What a scanner makes of digits: an integer, or an error if their value is more than `2 ^ 63 - 1`. -/
def integerAt (digits : List Char) (position : Position) : ScanResult :=
  if Text.decimalValue digits ≤ 9223372036854775807 then .ok ⟨⟨.int, .ofList digits⟩, position⟩
  else .error ⟨.outOfRange (.ofList digits), position⟩

/-- A step skips blanks, and then reads. -/
theorem next_blanks {blanks rest : List Char} {c : Char} (split : s.rest = blanks ++ c :: rest)
    (blank : ∀ b ∈ blanks, Text.isBlank b = true) (starts : Text.isBlank c = false) :
    s.next.1 = (Reading.read c rest).located (s.position.after blanks) := by
  have stops : ∀ b ∈ (c :: rest).head?, Text.isBlank b = false := by
    rintro b ⟨⟩
    exact starts
  obtain ⟨taken, left⟩ := Reading.takeWhile_append blank stops
  unfold next
  rw [split, taken, left]

theorem next_integer {blanks digits rest : List Char} (split : s.rest = blanks ++ (digits ++ rest))
    (blank : ∀ c ∈ blanks, Text.isBlank c = true) (all : Digits digits)
    (stops : ∀ c ∈ rest.head?, c.isDigit = false)
    (point : ∀ d later, rest = '.' :: d :: later → d.isDigit = false) :
    s.next.1 = integerAt digits (s.position.after blanks) := by
  have number := Reading.number_int all stops point
  obtain ⟨c, cs, rfl, digit⟩ := all.exists_cons
  rw [List.cons_append] at split number
  rw [next_blanks split blank (Text.classes_of_isDigit digit).2.2, Reading.read_number digit, number]
  unfold Reading.int integerAt
  have limit : maxInteger = 9223372036854775807 := rfl
  rw [limit]
  split <;> rfl

theorem next_fraction {blanks whole part rest : List Char}
    (split : s.rest = blanks ++ (whole ++ '.' :: (part ++ rest)))
    (blank : ∀ c ∈ blanks, Text.isBlank c = true) (hw : Digits whole) (hp : Digits part)
    (stops : ∀ c ∈ rest.head?, c.isDigit = false) :
    s.next.1 = .ok ⟨⟨.float, .ofList (whole ++ '.' :: part)⟩, s.position.after blanks⟩ := by
  have number := Reading.number_float hw hp stops
  obtain ⟨c, cs, rfl, digit⟩ := hw.exists_cons
  rw [List.cons_append] at split number
  rw [next_blanks split blank (Text.classes_of_isDigit digit).2.2, Reading.read_number digit, number]
  rfl

end Scanner

/-- The call with this number comes to digits, which no digit follows: blanks are all that is between
the scanner and them. -/
structure DigitsAt (text : String) (n : Nat) (before digits rest : List Char) : Prop where
  whole : text.toList = before ++ digits ++ rest
  comes : ∃ blanks, ((Scanner.ofString text).afterCalls n).rest = blanks ++ (digits ++ rest) ∧
    ∀ c ∈ blanks, Text.isBlank c = true
  digits : Digits digits
  stops : ∀ c ∈ rest.head?, c.isDigit = false

namespace DigitsAt

variable {text : String} {n : Nat} {before digits rest : List Char}

/-- The digits start where the blanks end. -/
theorem position_eq (here : DigitsAt text n before digits rest) {blanks : List Char}
    (comes : ((Scanner.ofString text).afterCalls n).rest = blanks ++ (digits ++ rest)) :
    ((Scanner.ofString text).afterCalls n).position.after blanks = .behind before := by
  obtain ⟨left, stands⟩ := (Scanner.behind_ofString text).afterCalls n
  have whole := stands.whole
  rw [comes, here.whole, List.append_assoc, ← List.append_assoc left] at whole
  rw [stands.after, List.append_cancel_right whole]

theorem call_integer (here : DigitsAt text n before digits rest)
    (point : ∀ d later, rest = '.' :: d :: later → d.isDigit = false) :
    (Scanner.ofString text).call n = Scanner.integerAt digits (.behind before) := by
  obtain ⟨blanks, comes, blank⟩ := here.comes
  rw [← here.position_eq comes]
  exact Scanner.next_integer comes blank here.digits here.stops point

theorem call_fraction (here : DigitsAt text n before digits rest) {part later : List Char}
    (point : rest = '.' :: (part ++ later)) (all : Digits part)
    (stops : ∀ c ∈ later.head?, c.isDigit = false) :
    (Scanner.ofString text).call n =
      .ok ⟨⟨.float, .ofList (digits ++ '.' :: part)⟩, .behind before⟩ := by
  obtain ⟨blanks, comes, blank⟩ := here.comes
  rw [← here.position_eq comes]
  rw [point] at comes
  exact Scanner.next_fraction comes blank here.digits all stops

end DigitsAt

/-! ## Integers that are given -/

/-- The token is written at its position, with the digits that stand there. -/
def Token.StandsIn (text : List Char) (t : Token) : Prop :=
  ∃ before digits rest, text = before ++ digits ++ rest ∧ t.position = .behind before ∧
    t.literal = .ofList digits ∧ Digits digits ∧ Longest IsNumber digits rest

namespace Reading

variable {c : Char} {rest : List Char} {t : Lexeme}

/-- Only digits are read as an integer. -/
theorem int_of_read (h : (read c rest).result = .ok t) (kind : t.kind = .int) :
    ∃ digits later, Digits digits ∧ Longest IsNumber digits later ∧ c :: rest = digits ++ later ∧
      t.literal = .ofList digits := by
  obtain ⟨covers, longest⟩ := read_exact h
  rcases legible_read h with comment | legible
  · rw [kind] at comment
    cases comment
  · have literal : (read c rest).taken = t.literal.toList := by
      rcases covers with same | ⟨other, _⟩
      · simpa [Lexeme.text, kind] using same
      · rw [kind] at other
        cases other
    rw [kind, literal] at longest
    refine ⟨t.literal.toList, (read c rest).rest, ?_, longest, ?_, String.ofList_toList.symm⟩
    · cases legible with
      | int digits _ => exact digits
      | _ => cases kind
    · rw [← literal, read_taken_append_rest]

end Reading

namespace Scanner

variable {text before : List Char} {s : Scanner} {t : Token}

theorem Behind.standsIn (here : s.Behind text before) (given : s.next.1 = .ok t)
    (kind : t.kind = .int) : t.StandsIn text := by
  have blanks := List.takeWhile_append_dropWhile (p := Text.isBlank) (l := s.rest)
  have moved := here.after
  unfold Scanner.next at given
  split at given
  · cases given
    cases kind
  · rename_i c rest starts
    simp only [Reading.located] at given
    split at given
    · rename_i l read
      cases given
      obtain ⟨digits, later, all, longest, split, literal⟩ := Reading.int_of_read read kind
      refine ⟨before ++ s.rest.takeWhile Text.isBlank, digits, later, ?_, moved _, literal, all,
        longest⟩
      rw [starts, split] at blanks
      rw [here.whole, List.append_assoc, List.append_assoc, blanks]
    · cases given

/-- Every integer of a scan stands in the text. -/
theorem standsIn_of_mem_results (h : .ok t ∈ s.results.1) (kind : t.kind = .int) :
    ∀ before, s.Behind text before → t.StandsIn text := by
  fun_induction results s with
  | case1 s step more later ih =>
    intro before here
    rcases List.mem_cons.mp h with first | later
    · exact here.standsIn first.symm kind
    · obtain ⟨taken, there⟩ := here.next
      exact ih later _ there
  | case2 => cases h

end Scanner

end Rulebook
