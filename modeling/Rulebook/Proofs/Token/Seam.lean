import Rulebook.Proofs.Token.Spelling

/-!
# Scanning across a line feed

A token, and also a comment, that is read up to the end of a text is read as it was if the text goes
on with a line feed. So the tokens of a text followed by a line feed and another text are those of the
first, then those of the second, moved on.
-/

namespace Rulebook

namespace Reading

variable {c : Char} {rest tail : List Char}

/-- Where a run of characters stops inside a text, it does not matter how the text goes on. -/
theorem takeWhile_append_of_stop {p : Char → Bool} {cs later : List Char}
    (stops : cs.dropWhile p = c :: later) (tail : List Char) :
    (cs ++ tail).takeWhile p = cs.takeWhile p ∧ (cs ++ tail).dropWhile p = c :: (later ++ tail) := by
  have short : ¬ (cs.takeWhile p).length = cs.length := by
    have size := congrArg List.length (List.takeWhile_append_dropWhile (p := p) (l := cs))
    rw [stops, List.length_append, List.length_cons] at size
    omega
  rw [List.takeWhile_append, if_neg short, List.dropWhile_append, stops]
  exact ⟨rfl, rfl⟩

/-- Where a line feed stops a run of characters, what follows it does not matter. -/
theorem takeWhile_lineFeed {p : Char → Bool} (stops : p '\n' = false) (cs : List Char) :
    (cs ++ '\n' :: tail).takeWhile p = cs.takeWhile p ∧
      (cs ++ '\n' :: tail).dropWhile p = cs.dropWhile p ++ '\n' :: tail := by
  induction cs with
  | nil => simp [stops]
  | cons c cs ih =>
    by_cases h : p c = true
    · simp [h, ih]
    · simp [h]

/-- The same reading of a text that goes on. -/
def before (r : Reading) (tail : List Char) : Reading := { r with rest := r.rest ++ tail }

theorem comment_lineFeed (text : List Char) :
    comment (text ++ '\n' :: tail) = (comment text).before ('\n' :: tail) := by
  obtain ⟨taken, left⟩ := @takeWhile_lineFeed tail (· != '\n') rfl text
  unfold comment
  rw [taken, left]
  rfl

theorem word_lineFeed (text : List Char) :
    word (text ++ '\n' :: tail) = (word text).before ('\n' :: tail) := by
  obtain ⟨taken, left⟩ := @takeWhile_lineFeed tail Text.isWordPart (by decide) text
  unfold word
  rw [taken, left]
  rfl

theorem string_append {t : Lexeme} (h : (string rest).result = .ok t) (tail : List Char) :
    string (rest ++ tail) = (string rest).before tail := by
  unfold string at h ⊢
  split at h
  · rename_i close later closed
    obtain ⟨taken, left⟩ := takeWhile_append_of_stop closed tail
    rw [taken, left]
    rfl
  · cases h

theorem int_append (digits rest tail : List Char) :
    int digits (rest ++ tail) = (int digits rest).before tail := by
  unfold int
  split <;> rfl

theorem number_lineFeed (text : List Char) :
    number (text ++ '\n' :: tail) = (number text).before ('\n' :: tail) := by
  obtain ⟨taken, left⟩ := @takeWhile_lineFeed tail Char.isDigit (by decide) text
  unfold number
  rw [taken, left]
  -- A point at the end of the text is followed by the line feed, which is no digit.
  cases text.dropWhile Char.isDigit with
  | nil => exact int_append _ [] _
  | cons point later =>
    by_cases dot : point = '.'
    · subst dot
      cases later with
      | nil => exact int_append _ ['.'] _
      | cons d later =>
        obtain ⟨takenPart, leftPart⟩ := @takeWhile_lineFeed tail Char.isDigit (by decide) (d :: later)
        rw [List.cons_append] at takenPart leftPart
        simp only [List.cons_append, takenPart, leftPart]
        split
        · rfl
        · exact int_append _ ('.' :: d :: later) _
    · split
      · rename_i same
        exact absurd (List.cons.inj same).1 dot
      · split
        · rename_i same
          exact absurd (List.cons.inj same).1 dot
        · exact int_append _ (point :: later) _

theorem markOrWithEquals_lineFeed (single extended : Operator) (c : Char) (rest : List Char) :
    markOrWithEquals single extended c (rest ++ '\n' :: tail) =
      (markOrWithEquals single extended c rest).before ('\n' :: tail) := by
  unfold markOrWithEquals
  cases rest with
  | nil => rfl
  | cons d rest =>
    rw [List.cons_append]
    split
    · rename_i later equals
      cases equals
      rfl
    · rename_i other
      split
      · rename_i later equals
        cases equals
        exact absurd rfl (other _)
      · rfl

/-- What is read up to a line feed does not depend on what follows. -/
theorem read_lineFeed {t : Lexeme} (h : (read c rest).result = .ok t) :
    read c (rest ++ '\n' :: tail) = (read c rest).before ('\n' :: tail) := by
  unfold read at h ⊢
  split at h
  case h_1 => exact comment_lineFeed ('#' :: rest)
  case h_2 => exact string_append h _
  case h_22 =>
    split at h
    · rename_i digit
      rw [if_pos digit, if_pos digit]
      exact number_lineFeed (_ :: rest)
    · rename_i digit
      rw [if_neg digit, if_neg digit]
      split at h
      · rename_i starts
        rw [if_pos starts, if_pos starts]
        exact word_lineFeed (_ :: rest)
      · cases h
  case h_18 | h_19 | h_20 | h_21 => exact markOrWithEquals_lineFeed ..
  all_goals rfl

end Reading

namespace Scanner

/-- A token that is not the end of the text is read as it was before a line feed. -/
theorem next_lineFeed {s s' : Scanner} {t : Token} (step : s.next = (.ok t, s'))
    (more : t.kind ≠ .endOfInput) (tail : List Char) :
    next ⟨s.rest ++ '\n' :: tail, s.position⟩ = (.ok t, ⟨s'.rest ++ '\n' :: tail, s'.position⟩) := by
  unfold next at step ⊢
  split at step
  · cases step
    exact absurd rfl more
  · rename_i c rest starts
    obtain ⟨taken, left⟩ := Reading.takeWhile_append_of_stop starts ('\n' :: tail)
    rw [taken, left]
    simp only [Prod.mk.injEq] at step
    obtain ⟨located, rfl⟩ := step
    cases read : (Reading.read c rest).result with
    | error fault => simp [Reading.located, read] at located
    | ok lexeme =>
      simp only [Reading.read_lineFeed read, ← located]
      rfl

/-- The text is read in the same way from any position. -/
theorem next_moved {cs : List Char} {p : Position} {t : Token} {s' : Scanner}
    (step : next ⟨cs, p⟩ = (.ok t, s')) (q : Position) :
    ∃ t' q', next ⟨cs, q⟩ = (.ok t', ⟨s'.rest, q'⟩) ∧ t'.toLexeme = t.toLexeme := by
  unfold next at step ⊢
  cases starts : cs.dropWhile Text.isBlank with
  | nil =>
    simp only [starts, Prod.mk.injEq, Except.ok.injEq] at step
    obtain ⟨rfl, rfl⟩ := step
    exact ⟨_, _, rfl, rfl⟩
  | cons c rest =>
    simp only [starts, Prod.mk.injEq] at step
    obtain ⟨located, rfl⟩ := step
    unfold Reading.located at located ⊢
    cases read : (Reading.read c rest).result with
    | error fault => simp [read] at located
    | ok lexeme =>
      simp only [read, Except.ok.injEq] at located
      subst located
      let here := q.after (cs.takeWhile Text.isBlank)
      refine ⟨⟨lexeme, here⟩, here.after (Reading.read c rest).taken, ?_, rfl⟩
      simp only [read, here]

/-- Blanks only move the scanner on. -/
theorem results_blanks {cs : List Char} (blank : ∀ c ∈ cs, Text.isBlank c = true) (rest : List Char)
    (p : Position) : results ⟨cs ++ rest, p⟩ = results ⟨rest, p.after cs⟩ := by
  induction cs generalizing p with
  | nil => rfl
  | cons c cs ih =>
    rw [List.forall_mem_cons] at blank
    rw [List.cons_append, results_blank blank.1, ih blank.2, Position.after_cons]

/-- A text without tokens is blank. -/
theorem blank_of_results {s : Scanner} {last : Token} (scanned : s.results = ([], .ok last)) :
    ∀ c ∈ s.rest, Text.isBlank c = true := by
  have ends := results_last (congrArg Prod.snd scanned)
  rw [results] at scanned
  split at scanned
  · cases scanned
  · have here : s.next.1 = .ok last := congrArg Prod.snd scanned
    unfold next at here
    split at here
    · rename_i none
      exact List.dropWhile_eq_nil_iff.mp none
    · rename_i c rest starts
      simp only [Reading.located] at here
      split at here
      · rename_i lexeme read
        cases here
        rcases Reading.legible_read read with comment | legible
        · rw [ends] at comment
          cases comment
        · exact absurd ends legible.ne_endOfInput
      · cases here

/-- The first step of a scan that gives a token, and the steps after it. -/
theorem next_of_results {s : Scanner} {t : Token} {later : List ScanResult} {last : ScanResult}
    (scanned : s.results = (.ok t :: later, last)) :
    ∃ s', s.next = (.ok t, s') ∧ t.kind ≠ .endOfInput ∧ s'.results = (later, last) := by
  rw [results] at scanned
  split at scanned
  · rename_i more
    simp only [Prod.mk.injEq, List.cons.injEq] at scanned
    obtain ⟨⟨here, rest⟩, ends⟩ := scanned
    refine ⟨s.next.2, Prod.ext here rfl, ?_, Prod.ext rest ends⟩
    rw [here] at more
    simpa [ScanResult.isLast] using more
  · cases scanned

/-- Tokens up to the end of a text, then a line feed and what follows it. -/
theorem results_lineFeed {s : Scanner} {ts : List Token} {last : Token}
    (scanned : s.results = (ts.map .ok, .ok last)) (tail : List Char) :
    ∃ p, results ⟨s.rest ++ '\n' :: tail, s.position⟩ =
      (ts.map .ok ++ (results ⟨tail, p⟩).1, (results ⟨tail, p⟩).2) := by
  induction ts generalizing s with
  | nil =>
    have blank := blank_of_results scanned
    refine ⟨(s.position.after s.rest).next '\n', ?_⟩
    rw [results_blanks blank, results_blank (by decide)]
    rfl
  | cons t ts ih =>
    obtain ⟨s', step, more, later⟩ := next_of_results scanned
    obtain ⟨p, whole⟩ := ih later
    refine ⟨p, ?_⟩
    rw [results_of_next (next_lineFeed step more tail) more, whole]
    rfl

/-- A text is scanned in the same way from any position. -/
theorem results_moved {cs : List Char} {p : Position} {ts : List Token} {last : Token}
    (scanned : results ⟨cs, p⟩ = (ts.map .ok, .ok last)) (q : Position) :
    ∃ (us : List Token) (end_ : Token), results ⟨cs, q⟩ = (us.map .ok, .ok end_) ∧
      us.map Token.toLexeme = ts.map Token.toLexeme ∧ end_.toLexeme = last.toLexeme := by
  induction ts generalizing cs p q with
  | nil =>
    have blank := blank_of_results scanned
    have from_ (p : Position) := results_blanks blank [] p
    simp only [List.append_nil, results_nil] at from_
    rw [from_] at scanned
    cases scanned
    exact ⟨[], _, from_ q, rfl, rfl⟩
  | cons t ts ih =>
    obtain ⟨s', step, more, later⟩ := next_of_results scanned
    obtain ⟨u, q', step', same⟩ := next_moved step q
    obtain ⟨us, end_, whole, lexemes, ends⟩ := ih later q'
    refine ⟨u :: us, end_, ?_, by rw [List.map_cons, List.map_cons, same, lexemes], ends⟩
    have more' : u.kind ≠ .endOfInput := by
      rw [same]
      exact more
    rw [results_of_next step' more', whole]
    rfl

end Scanner

end Rulebook
