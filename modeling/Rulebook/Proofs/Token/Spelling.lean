import Mathlib.Data.List.TakeWhile
import Rulebook.Proofs.Lowering.Name
import Rulebook.Proofs.Token.Scanned

/-!
# How lexemes are written

What is read from a text is `Legible`: its literal has the form that its kind asks for. A legible
lexeme can be written again, and is then read as it was, if what follows cannot go on with it. So
`layout` writes lexemes with blanks between them, except where parentheses and commas need none, and
these lexemes are what a scanner finds there (`results_layout`).
-/

namespace Rulebook

/-! ## Characters -/

namespace Text

/-- A digit goes on with a word but starts none, and is no blank. -/
theorem classes_of_isDigit {c : Char} (digit : c.isDigit = true) :
    isWordPart c = true ∧ isWordStart c = false ∧ isBlank c = false := by
  simp only [Char.isDigit, Bool.and_eq_true, decide_eq_true_eq] at digit
  have low : 48 ≤ c.toNat := digit.1
  have high : c.toNat ≤ 57 := digit.2
  have table : ∀ n ∈ List.range' 48 10, isWordPart (Char.ofNat n) = true ∧
      isWordStart (Char.ofNat n) = false ∧ isBlank (Char.ofNat n) = false := by decide
  rw [← Char.ofNat_toNat c]
  exact table _ (List.mem_range'_1.mpr ⟨low, by omega⟩)

theorem isWordStart_of_isBlank {c : Char} (blank : isBlank c = true) : isWordStart c = false := by
  have table : ∀ s ∈ blankSpans, ∀ n ∈ List.range' s.first (s.last + 1 - s.first),
      isWordStart (Char.ofNat n) = false := by decide +kernel
  obtain ⟨s, span, inside⟩ := List.any_eq_true.mp blank
  obtain ⟨low, high⟩ := Span.contains_iff.mp inside
  rw [← Char.ofNat_toNat c]
  exact table s span _ (List.mem_range'_1.mpr ⟨low, by omega⟩)

end Text

/-! ## Lexemes that are read -/

/-- A character that starts a word, and then characters that go on with it. -/
structure IsWord (text : List Char) : Prop where
  starts : ∃ c cs, text = c :: cs ∧ Text.isWordStart c = true
  parts : ∀ c ∈ text, Text.isWordPart c = true

namespace Lexeme

/-- The literal of a lexeme has the form that the kind asks for. -/
inductive Legible : Lexeme → Prop
  | name {text : String} :
      IsWord text.toList → Keyword.ofSpelling? text = none → Legible ⟨.identifier, text⟩
  | int {text : String} :
      Digits text.toList → Text.decimalValue text.toList ≤ maxInteger → Legible ⟨.int, text⟩
  | float {text : String} {whole part : List Char} :
      Digits whole → Digits part → text.toList = whole ++ '.' :: part → Legible ⟨.float, text⟩
  | string {text : String} : '"' ∉ text.toList → Legible ⟨.string, text⟩
  | operator (op : Operator) : Legible ⟨.operator op, ""⟩
  | delimiter (mark : Delimiter) : Legible ⟨.delimiter mark, ""⟩
  | keyword (word : Keyword) : Legible ⟨.keyword word, word.spelling⟩

end Lexeme

namespace Reading

variable {c : Char} {rest text : List Char} {t : Lexeme}

theorem legible_string (h : (string text).result = .ok t) : t.Legible := by
  unfold string at h
  split at h
  · cases h
    refine .string fun quote => ?_
    rw [String.toList_ofList] at quote
    exact absurd (List.mem_takeWhile_imp quote) (by decide)
  · cases h

theorem legible_int {digits : List Char} (all : Digits digits)
    (h : (int digits rest).result = .ok t) : t.Legible := by
  unfold int at h
  split at h
  · rename_i small
    cases h
    exact .int (by rwa [String.toList_ofList]) (by rwa [String.toList_ofList])
  · cases h

theorem legible_number (starts : c.isDigit = true) (h : (number (c :: rest)).result = .ok t) :
    t.Legible := by
  have digits : Digits ((c :: rest).takeWhile Char.isDigit) :=
    ⟨by simp [starts], fun _ => List.mem_takeWhile_imp⟩
  unfold number at h
  split at h
  · rename_i d after _
    split at h
    · rename_i starts'
      cases h
      exact .float digits ⟨by simp [starts'], fun _ => List.mem_takeWhile_imp⟩ String.toList_ofList
    · exact legible_int digits h
  · exact legible_int digits h

theorem legible_word (starts : Text.isWordStart c = true)
    (h : (word (c :: rest)).result = .ok t) : t.Legible := by
  cases h
  have isWord : IsWord ((c :: rest).takeWhile Text.isWordPart) := by
    refine ⟨⟨c, rest.takeWhile Text.isWordPart, ?_, starts⟩, fun _ => List.mem_takeWhile_imp⟩
    simp [Text.isWordPart_of_isWordStart starts]
  unfold Token.Kind.ofWord
  cases found : Keyword.ofSpelling? (.ofList ((c :: rest).takeWhile Text.isWordPart)) with
  | none => exact .name (by rwa [String.toList_ofList]) found
  | some k =>
    rw [← Keyword.ofSpelling?_eq_some_iff.mp found]
    exact .keyword k

/-- Whatever is read is a comment or legible. -/
theorem legible_read (h : (read c rest).result = .ok t) : t.kind = .comment ∨ t.Legible := by
  unfold read at h
  split at h
  case h_1 =>
    cases h
    exact .inl rfl
  case h_2 => exact .inr (legible_string h)
  case h_18 | h_19 | h_20 | h_21 =>
    unfold markOrWithEquals at h
    split at h <;> cases h <;> exact .inr (.operator _)
  case h_22 =>
    split at h
    · rename_i digit
      exact .inr (legible_number digit h)
    · split at h
      · rename_i starts
        exact .inr (legible_word starts h)
      · cases h
  case h_12 | h_13 | h_14 | h_15 | h_16 | h_17 =>
    cases h
    exact .inr (.operator _)
  all_goals
    cases h
    exact .inr (.delimiter _)

end Reading

/-- Every token of a text is a comment or legible. -/
theorem Scanner.legible_of_mem_results {s : Scanner} {t : Token} (h : .ok t ∈ s.results.1) :
    t.kind = .comment ∨ t.toLexeme.Legible := by
  fun_induction results s with
  | case1 s step more later ih =>
    rcases List.mem_cons.mp h with here | there
    · have here : .ok t = s.next.1 := here
      simp only [step, ← here] at more
      unfold next at here
      split at here
      · cases here
        cases more
      · simp only [Reading.located] at here
        split at here
        · rename_i read
          cases here
          exact Reading.legible_read read
        · cases here
    · exact ih there
  | case2 => cases h

/-! ## Writing and reading a lexeme -/

namespace Lexeme

/-- How the lexeme is written. -/
def text (t : Lexeme) : String :=
  match t.kind with
  | .string => "\"" ++ t.literal ++ "\""
  | .operator op => op.spelling
  | .delimiter mark => mark.spelling
  | _ => t.literal

/-- Written before this text, the lexeme is read as it was. -/
def ReadBefore (t : Lexeme) (rest : List Char) : Prop :=
  ∃ c cs, t.text.toList = c :: cs ∧ Text.isBlank c = false ∧
    Reading.read c (cs ++ rest) = ⟨.ok t, c :: cs, rest⟩

end Lexeme

/-- The text cannot go on with a word, a number or an operator. -/
def Breaks (rest : List Char) : Prop :=
  ∀ c ∈ rest.head?, Text.isWordPart c = false ∧ c ≠ '.' ∧ c ≠ '='

namespace Reading

variable {c : Char} {cs ds rest : List Char}

theorem takeWhile_append {p : Char → Bool} (all : ∀ c ∈ cs, p c = true)
    (stops : ∀ c ∈ rest.head?, p c = false) :
    (cs ++ rest).takeWhile p = cs ∧ (cs ++ rest).dropWhile p = rest := by
  rw [List.takeWhile_append_of_pos all, List.dropWhile_append_of_pos all]
  cases rest with
  | nil => simp
  | cons c rest => simp [stops c rfl]

theorem not_isDigit_of_breaks (breaks : Breaks rest) : ∀ c ∈ rest.head?, c.isDigit = false := by
  intro c first
  cases digit : c.isDigit with
  | false => rfl
  | true =>
    have part := (Text.classes_of_isDigit digit).1
    rw [(breaks c first).1] at part
    cases part

theorem read_word (starts : Text.isWordStart c = true)
    (parts : ∀ d ∈ c :: cs, Text.isWordPart d = true) (breaks : Breaks rest) :
    read c (cs ++ rest) = ⟨.ok ⟨.ofWord (.ofList (c :: cs)), .ofList (c :: cs)⟩, c :: cs, rest⟩ := by
  have digit : ¬ c.isDigit = true := by
    intro digit
    rw [(Text.classes_of_isDigit digit).2.1] at starts
    cases starts
  obtain ⟨taken, left⟩ := takeWhile_append parts fun d first => (breaks d first).1
  rw [List.cons_append] at taken left
  unfold read
  split
  case h_22 => rw [if_neg digit, if_pos starts, word, taken, left]
  all_goals exact absurd starts (by decide)

theorem read_number (digit : c.isDigit = true) (rest : List Char) :
    read c rest = number (c :: rest) := by
  unfold read
  split
  case h_22 => rw [if_pos digit]
  all_goals exact absurd digit (by decide)

/-- Digits are an integer, unless a point with a digit follows. -/
theorem number_int (digits : Digits ds) (stops : ∀ c ∈ rest.head?, c.isDigit = false)
    (point : ∀ d later, rest = '.' :: d :: later → d.isDigit = false) :
    number (ds ++ rest) = int ds rest := by
  obtain ⟨taken, left⟩ := takeWhile_append digits.all stops
  unfold number
  rw [taken, left]
  split
  · rename_i d later
    rw [if_neg (by simp [point d later rfl])]
  · rfl

theorem number_float {whole part : List Char} (hw : Digits whole) (hp : Digits part)
    (stops : ∀ c ∈ rest.head?, c.isDigit = false) :
    number (whole ++ '.' :: (part ++ rest)) =
      ⟨.ok ⟨.float, .ofList (whole ++ '.' :: part)⟩, whole ++ '.' :: part, rest⟩ := by
  obtain ⟨taken, left⟩ := @takeWhile_append whole ('.' :: (part ++ rest)) Char.isDigit hw.all (by
    intro c first
    cases first
    decide)
  obtain ⟨takenPart, leftPart⟩ := takeWhile_append hp.all stops
  cases part with
  | nil => exact absurd rfl hp.some
  | cons d part =>
    have digit : d.isDigit = true := hp.all d List.mem_cons_self
    rw [List.cons_append] at takenPart leftPart
    unfold number
    rw [taken, left]
    simp only [List.cons_append, if_pos digit, takenPart, leftPart]

theorem read_string (plain : '"' ∉ cs) (rest : List Char) :
    read '"' (cs ++ '"' :: rest) =
      ⟨.ok ⟨.string, .ofList cs⟩, '"' :: (cs ++ ['"']), rest⟩ := by
  have inside : ∀ c ∈ cs, (c != '"') = true := by
    intro c member
    rw [bne_iff_ne]
    intro same
    exact plain (same ▸ member)
  obtain ⟨taken, left⟩ := @takeWhile_append cs ('"' :: rest) (· != '"') inside (by simp)
  rw [read, string, taken, left]
  rfl

theorem markOrWithEquals_of_breaks {single extended : Operator} (breaks : Breaks rest) :
    markOrWithEquals single extended c rest = mark (.operator single) c rest := by
  unfold markOrWithEquals
  split
  · exact absurd rfl (breaks '=' rfl).2.2
  · rfl

end Reading

namespace Lexeme

variable {rest : List Char}

theorem readBefore_delimiter (mark : Delimiter) (rest : List Char) :
    ReadBefore ⟨.delimiter mark, ""⟩ rest := by
  cases mark <;> exact ⟨_, [], rfl, by decide, rfl⟩

theorem readBefore_operator (op : Operator) (breaks : Breaks rest) :
    ReadBefore ⟨.operator op, ""⟩ rest := by
  cases op with
  | less | greater | bang =>
    exact ⟨_, [], rfl, by decide, Reading.markOrWithEquals_of_breaks breaks⟩
  | equal | notEqual | lessEqual | greaterEqual => exact ⟨_, ['='], rfl, by decide, rfl⟩
  | plus | minus | star | slash | percent | dot => exact ⟨_, [], rfl, by decide, rfl⟩

theorem readBefore_word {text : String} (word : IsWord text.toList) (breaks : Breaks rest) :
    ∃ c cs, text.toList = c :: cs ∧ Text.isBlank c = false ∧
      Reading.read c (cs ++ rest) = ⟨.ok ⟨.ofWord text, text⟩, c :: cs, rest⟩ := by
  obtain ⟨c, cs, chars, starts⟩ := word.starts
  have blank : Text.isBlank c = false := by
    cases blank : Text.isBlank c with
    | false => rfl
    | true =>
      rw [Text.isWordStart_of_isBlank blank] at starts
      cases starts
  have parts := word.parts
  rw [chars] at parts
  refine ⟨c, cs, chars, blank, ?_⟩
  rw [Reading.read_word starts parts breaks, ← chars, String.ofList_toList]

theorem isWord_keyword (word : Keyword) : IsWord word.spelling.toList := by
  cases word <;> exact ⟨⟨_, _, rfl, by decide⟩, List.all_eq_true.mp (by decide)⟩

/-- What is read from a text can be written and read again. -/
theorem Legible.readBefore {t : Lexeme} (legible : t.Legible) (breaks : Breaks rest) :
    t.ReadBefore rest := by
  cases legible with
  | @name text word other =>
    have read := readBefore_word word breaks
    rwa [Token.Kind.ofWord, other] at read
  | @int text digits small =>
    cases chars : text.toList with
    | nil => exact absurd chars digits.some
    | cons c cs =>
      have digit : c.isDigit = true := digits.all c (by simp [chars])
      have point (d : Char) (later : List Char) (same : rest = '.' :: d :: later) :
          d.isDigit = false := absurd rfl (breaks '.' (by simp [same])).2.1
      refine ⟨c, cs, chars, (Text.classes_of_isDigit digit).2.2, ?_⟩
      rw [Reading.read_number digit, ← List.cons_append, ← chars,
        Reading.number_int digits (Reading.not_isDigit_of_breaks breaks) point, Reading.int,
        if_pos small, String.ofList_toList]
  | @float text whole part hw hp whole_part =>
    cases chars : whole with
    | nil => exact absurd chars hw.some
    | cons c cs =>
      have digit : c.isDigit = true := hw.all c (by simp [chars])
      refine ⟨c, cs ++ '.' :: part, by rw [← List.cons_append, ← chars]; exact whole_part,
        (Text.classes_of_isDigit digit).2.2, ?_⟩
      rw [Reading.read_number digit, ← List.cons_append, ← List.cons_append, ← chars,
        List.append_assoc, List.cons_append,
        Reading.number_float hw hp (Reading.not_isDigit_of_breaks breaks), ← whole_part,
        String.ofList_toList]
  | @string text plain =>
    refine ⟨'"', text.toList ++ ['"'], ?_, by decide, ?_⟩
    · simp [Lexeme.text]
    · rw [List.append_assoc, List.singleton_append, Reading.read_string plain, String.ofList_toList]
  | operator op => exact readBefore_operator op breaks
  | delimiter mark => exact readBefore_delimiter mark rest
  | keyword word =>
    have read := readBefore_word (isWord_keyword word) breaks
    rwa [Token.Kind.ofWord, Keyword.ofSpelling?_eq_some_iff.mpr rfl] at read

theorem Legible.ne_endOfInput {t : Lexeme} (legible : t.Legible) : t.kind ≠ .endOfInput := by
  cases legible <;> nofun

theorem Legible.ne_comment {t : Lexeme} (legible : t.Legible) : t.kind ≠ .comment := by
  cases legible <;> nofun

theorem Legible.proper {t : Lexeme} (legible : t.Legible) : t.Proper := by
  cases legible with
  | name word _ => exact ⟨fun _ => word.starts, nofun⟩
  | int _ small => exact ⟨nofun, fun _ => small⟩
  | float _ _ _ | string _ | operator _ | delimiter _ | keyword _ => exact ⟨nofun, nofun⟩

end Lexeme

/-! ## Writing and scanning several lexemes -/

/-- Lexemes between which no blank is written: what stands after an opening parenthesis, before a
comma, before a closing parenthesis, or between a functor and its arguments. -/
def Lexeme.tight (t next : Lexeme) : Bool :=
  t.kind == .delimiter .leftParen || next.kind == .delimiter .comma ||
    next.kind == .delimiter .rightParen ||
    t.kind == .identifier && next.kind == .delimiter .leftParen

/-- Lexemes in a row, with blanks between them. -/
def layout : List Lexeme → String
  | [] => ""
  | [t] => t.text
  | t :: next :: rest => t.text ++ (if t.tight next then "" else " ") ++ layout (next :: rest)

/-- Nothing goes on with a delimiter. -/
theorem breaks_layout {t : Lexeme} {mark : Delimiter} (kind : t.kind = .delimiter mark)
    (rest : List Lexeme) : Breaks (layout (t :: rest)).toList := by
  have starts : ∃ after, (layout (t :: rest)).toList = mark.spelling.toList ++ after := by
    cases rest with
    | nil => exact ⟨[], by simp [layout, Lexeme.text, kind]⟩
    | cons next rest =>
      refine ⟨(if t.tight next then "" else " ").toList ++ (layout (next :: rest)).toList, ?_⟩
      simp [layout, Lexeme.text, kind]
  obtain ⟨after, starts⟩ := starts
  rw [starts]
  intro c first
  cases mark <;> cases first <;> decide

/-- In a row of lexemes each is read as it was. -/
theorem readBefore_layout {t next : Lexeme} (legible : t.Legible) (rest : List Lexeme) :
    t.ReadBefore ((if t.tight next then "" else " ").toList ++ (layout (next :: rest)).toList) := by
  by_cases tight : t.tight next = true
  · rw [if_pos tight]
    show t.ReadBefore (layout (next :: rest)).toList
    simp only [Lexeme.tight, Bool.or_eq_true, Bool.and_eq_true, beq_iff_eq] at tight
    rcases tight with ((opens | comma) | closes) | ⟨_, arguments⟩
    · cases legible <;> cases opens
      exact Lexeme.readBefore_delimiter _ _
    · exact legible.readBefore (breaks_layout comma rest)
    · exact legible.readBefore (breaks_layout closes rest)
    · exact legible.readBefore (breaks_layout arguments rest)
  · rw [if_neg tight]
    apply legible.readBefore
    intro c first
    cases first
    decide

namespace Scanner

theorem results_nil (p : Position) : results ⟨[], p⟩ = ([], .ok ⟨⟨.endOfInput, ""⟩, p⟩) := by
  rw [results]
  rfl

theorem results_blank {c : Char} (blank : Text.isBlank c = true) (cs : List Char) (p : Position) :
    results ⟨c :: cs, p⟩ = results ⟨cs, p.next c⟩ := by
  have same : next ⟨c :: cs, p⟩ = next ⟨cs, p.next c⟩ := by
    simp only [next, List.takeWhile_cons, List.dropWhile_cons, blank, if_pos, Position.after_cons]
  rw [results, same, ← results]

/-- A token that is not the end of the text comes first, then what follows it. -/
theorem results_of_next {s s' : Scanner} {t : Token} (step : s.next = (.ok t, s'))
    (more : t.kind ≠ .endOfInput) : s.results = (.ok t :: s'.results.1, s'.results.2) := by
  have goesOn : ScanResult.isLast (.ok t) = false := by simpa [ScanResult.isLast] using more
  rw [results]
  simp only [step, goesOn, dite_true]

theorem results_read {t : Lexeme} {rest : List Char} (read : t.ReadBefore rest)
    (more : t.kind ≠ .endOfInput) (p : Position) :
    results ⟨t.text.toList ++ rest, p⟩ =
      (.ok ⟨t, p⟩ :: (results ⟨rest, p.after t.text.toList⟩).1,
        (results ⟨rest, p.after t.text.toList⟩).2) := by
  obtain ⟨c, cs, chars, blank, read⟩ := read
  have step : next ⟨t.text.toList ++ rest, p⟩ = (.ok ⟨t, p⟩, ⟨rest, p.after t.text.toList⟩) := by
    simp only [next, chars, List.cons_append, List.takeWhile_cons, List.dropWhile_cons, blank,
      Bool.false_eq_true, if_false, Position.after_nil, read, Reading.located]
  exact results_of_next step more

/-- A row of legible lexemes is scanned as these lexemes and nothing else. -/
theorem results_layout {ls : List Lexeme} (legible : ∀ t ∈ ls, t.Legible) (p : Position) :
    ∃ (ts : List Token) (last : Token), ts.map Token.toLexeme = ls ∧
      results ⟨(layout ls).toList, p⟩ = (ts.map .ok, .ok last) := by
  fun_induction layout ls generalizing p with
  | case1 => exact ⟨[], _, rfl, results_nil p⟩
  | case2 t =>
    have here := legible t List.mem_cons_self
    have read : t.ReadBefore [] := here.readBefore nofun
    have scanned := results_read read here.ne_endOfInput p
    rw [List.append_nil, results_nil] at scanned
    exact ⟨[⟨t, p⟩], _, rfl, scanned⟩
  | case3 t next rest ih =>
    rw [List.forall_mem_cons] at legible
    obtain ⟨here, later⟩ := legible
    have read := @readBefore_layout t next here rest
    -- A blank before the next lexeme only moves the position.
    have skipped (q : Position) : ∃ q', results
        ⟨(if t.tight next then "" else " ").toList ++ (layout (next :: rest)).toList, q⟩ =
          results ⟨(layout (next :: rest)).toList, q'⟩ := by
      split
      · exact ⟨q, rfl⟩
      · exact ⟨_, results_blank (by decide) _ q⟩
    obtain ⟨q, skipped⟩ := skipped (p.after t.text.toList)
    obtain ⟨ts, last, lexemes, scanned⟩ := ih later q
    refine ⟨⟨t, p⟩ :: ts, last, by rw [List.map_cons, lexemes], ?_⟩
    rw [String.toList_append, String.toList_append, List.append_assoc,
      results_read read here.ne_endOfInput, skipped, scanned]
    rfl

end Scanner

end Rulebook
