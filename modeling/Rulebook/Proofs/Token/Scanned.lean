import Rulebook.Token.Scan

/-!
# What scanned tokens are like

A token that a scanner gives is `Proper`: an identifier is a word, and an integer is in range. Only
the last result of a scan can be the end of the text.
-/

namespace Rulebook

/-- What the kind of a scanned lexeme says about its literal. -/
structure Lexeme.Proper (t : Lexeme) : Prop where
  word : t.kind = .identifier → ∃ c cs, t.literal.toList = c :: cs ∧ Text.isWordStart c = true
  int : t.kind = .int → Text.decimalValue t.literal.toList ≤ maxInteger

namespace Reading

theorem mark_proper {kind : Token.Kind} {c : Char} {rest : List Char} {t : Lexeme}
    (h : (mark kind c rest).result = .ok t) (identifier : kind ≠ .identifier) (int : kind ≠ .int) :
    t.Proper := by
  cases h
  exact ⟨fun k => absurd k identifier, fun k => absurd k int⟩

theorem markOrWithEquals_proper {single extended : Operator} {c : Char} {rest : List Char}
    {t : Lexeme} (h : (markOrWithEquals single extended c rest).result = .ok t) : t.Proper := by
  unfold markOrWithEquals at h
  split at h
  · cases h
    exact ⟨nofun, nofun⟩
  · exact mark_proper h nofun nofun

theorem string_proper {text : List Char} {t : Lexeme} (h : (string text).result = .ok t) :
    t.Proper := by
  unfold string at h
  split at h
  · cases h
    exact ⟨nofun, nofun⟩
  · cases h

theorem int_proper {digits rest : List Char} {t : Lexeme} (h : (int digits rest).result = .ok t) :
    t.Proper := by
  unfold int at h
  split at h
  · rename_i inRange
    cases h
    exact ⟨nofun, fun _ => by simpa using inRange⟩
  · cases h

theorem number_proper {text : List Char} {t : Lexeme} (h : (number text).result = .ok t) :
    t.Proper := by
  unfold number at h
  split at h
  · split at h
    · cases h
      exact ⟨nofun, nofun⟩
    · exact int_proper h
  · exact int_proper h

theorem word_proper {c : Char} {rest : List Char} {t : Lexeme} (starts : Text.isWordStart c = true)
    (h : (word (c :: rest)).result = .ok t) : t.Proper := by
  cases h
  refine ⟨fun _ => ⟨c, rest.takeWhile Text.isWordPart, ?_, starts⟩, ?_⟩
  · simp [Text.isWordPart_of_isWordStart starts]
  · unfold Token.Kind.ofWord
    split <;> nofun

theorem read_proper {c : Char} {rest : List Char} {t : Lexeme} (h : (read c rest).result = .ok t) :
    t.Proper := by
  unfold read at h
  split at h
  case h_1 =>
    cases h
    exact ⟨nofun, nofun⟩
  case h_2 => exact string_proper h
  case h_22 =>
    split at h
    · exact number_proper h
    · split at h
      · rename_i starts
        exact word_proper starts h
      · cases h
  case h_18 | h_19 | h_20 | h_21 => exact markOrWithEquals_proper h
  all_goals exact mark_proper h nofun nofun

end Reading

namespace Scanner

theorem next_proper {s : Scanner} {t : Token} (h : s.next.1 = .ok t) : t.Proper := by
  unfold next at h
  split at h
  · cases h
    exact ⟨nofun, nofun⟩
  · simp only [Reading.located] at h
    split at h
    · rename_i read
      cases h
      exact Reading.read_proper read
    · cases h

/-- Every token before the last result of a scan is proper and is not the end of the text. -/
theorem proper_of_mem_results {s : Scanner} {t : Token} (h : .ok t ∈ s.results.1) :
    t.Proper ∧ t.kind ≠ .endOfInput := by
  fun_induction results s with
  | case1 s step more later ih =>
    rcases List.mem_cons.mp h with here | there
    · refine ⟨next_proper here.symm, fun ends => ?_⟩
      simp [ScanResult.isLast, step, ← here, ends] at more
    · exact ih there
  | case2 => cases h

/-- The last result of a scan is the end of the text, unless it is an error. -/
theorem results_last {s : Scanner} {t : Token} (h : s.results.2 = .ok t) :
    t.kind = .endOfInput := by
  fun_induction results s with
  | case1 s step more later ih => exact ih h
  | case2 s step last =>
    have same : step.1 = .ok t := h
    simpa [ScanResult.isLast, same] using last

end Scanner

end Rulebook
