import Mathlib.Data.List.Induction
import Rulebook.Proofs.Token.Spelling

/-!
# How a scan covers its text

A scanner that is called again and again covers its text from the start, without a gap: each call
takes a run of blanks and then the characters of one token. These are as many as a token of that
form can have there, and the token is found where its first character stands. `scan_tiles` says so
for every text, up to its end or to the first place where no token can be read.
-/

namespace Rulebook

/-! ## Positions -/

namespace Position

/-- The position right after a text: its line feeds count lines, and what follows the last of them
counts columns. -/
def behind (text : List Char) : Position :=
  ⟨1 + text.count '\n', 1 + (text.reverse.takeWhile (· != '\n')).length⟩

theorem start_after (text : List Char) : start.after text = behind text := by
  induction text using List.reverseRecOn with
  | nil => rfl
  | append_singleton text c ih =>
    rw [after_append, ih, after_cons, after_nil]
    by_cases feed : c = '\n'
    · simp [next, behind, feed, Nat.add_assoc]
    · simp [next, behind, feed, Nat.add_comm]

end Position

/-! ## The characters of a token -/

/-- The token is written with these characters. Equality may be written with one sign. -/
def Lexeme.Covers (t : Lexeme) (span : List Char) : Prop :=
  span = t.text.toList ∨ t.kind = .operator .equal ∧ span = ['=']

/-- Digits, or digits on both sides of a point. -/
def IsNumber (text : List Char) : Prop :=
  Digits text ∨ ∃ whole part, Digits whole ∧ Digits part ∧ text = whole ++ '.' :: part

/-- What tokens of this kind look like. Words are alike, and so are numbers and operators. -/
def Token.Kind.Form : Token.Kind → List Char → Prop
  | .identifier, text | .keyword _, text => IsWord text
  | .int, text | .float, text => IsNumber text
  | .string, text => ∃ content, '"' ∉ content ∧ text = '"' :: content ++ ['"']
  | .comment, text => ∃ content, '\n' ∉ content ∧ text = '#' :: content
  | .operator _, text => text = ['='] ∨ ∃ op : Operator, text = op.spelling.toList
  | .delimiter _, text => ∃ mark : Delimiter, text = mark.spelling.toList
  | .endOfInput, _ => False

/-- The text is of this form, and is no longer so with more of what follows it. -/
structure Longest (form : List Char → Prop) (span rest : List Char) : Prop where
  holds : form span
  maximal : ∀ more later, rest = more ++ later → form (span ++ more) → more = []

/-- The text starts, but not with a token: nothing at its start looks like one, or the longest
number there is an integer out of range. -/
structure NoToken (text : List Char) : Prop where
  starts : ∃ c cs, text = c :: cs ∧ Text.isBlank c = false
  none :
    (∀ (kind : Token.Kind) (span later : List Char), text = span ++ later → ¬ kind.Form span) ∨
    ∃ digits later, text = digits ++ later ∧ Digits digits ∧ Longest IsNumber digits later ∧
      maxInteger < Text.decimalValue digits

section

variable {form : List Char → Prop} {span rest : List Char}

/-- A run of characters of one class is longest where the class ends. -/
theorem longest_of_stop {p : Char → Bool} (holds : form span)
    (parts : ∀ text, form text → ∀ c ∈ text, p c = true) (stops : ∀ c ∈ rest.head?, p c = false) :
    Longest form span rest := by
  refine ⟨holds, fun more later split longer => ?_⟩
  cases more with
  | nil => rfl
  | cons c more =>
    have inside := parts _ longer c (by simp)
    rw [stops c (by simp [split])] at inside
    cases inside

theorem longest_of_length (holds : form span)
    (short : ∀ text, form text → text.length ≤ span.length) : Longest form span rest := by
  refine ⟨holds, fun more later _ longer => ?_⟩
  have := short _ longer
  rw [List.length_append] at this
  exact List.eq_nil_of_length_eq_zero (by omega)

/-- A run of characters stops at one that is not of its class. -/
theorem stops_dropWhile (p : Char → Bool) (text : List Char) :
    ∀ c ∈ (text.dropWhile p).head?, p c = false := by
  intro c first
  have := List.head?_dropWhile_not p text
  rw [first] at this
  exact this

end

/-! ## Readings -/

/-- The reading takes the characters of this token, and as many as it can. -/
structure Reading.Exact (r : Reading) (t : Lexeme) : Prop where
  covers : t.Covers r.taken
  longest : Longest t.kind.Form r.taken r.rest

/-- An operator is written with one character, or an equals sign is the second. -/
theorem form_operator_cons {op : Operator} {c : Char} {more : List Char}
    (form : (Token.Kind.operator op).Form (c :: more)) :
    more = [] ∨ more = ['='] ∧ c ∈ ['=', '!', '>', '<'] := by
  rcases form with equals | ⟨op, spelled⟩
  · exact .inl (List.cons.inj equals).2
  · cases op <;> obtain ⟨rfl, rfl⟩ := List.cons.inj spelled <;> decide

namespace Reading

variable {c : Char} {rest text : List Char} {t : Lexeme}

theorem exact_delimiter {mark : Delimiter} (spelled : mark.spelling.toList = [c]) :
    (Reading.mark (.delimiter mark) c rest).Exact ⟨.delimiter mark, ""⟩ := by
  refine ⟨.inl spelled.symm, longest_of_length ⟨mark, spelled.symm⟩ ?_⟩
  rintro text ⟨other, rfl⟩
  show _ ≤ 1
  cases other <;> decide

theorem exact_operator {op : Operator} (spelled : op.spelling.toList = [c])
    (single : c ∉ ['=', '!', '>', '<']) :
    (Reading.mark (.operator op) c rest).Exact ⟨.operator op, ""⟩ := by
  refine ⟨.inl spelled.symm, .inr ⟨op, spelled.symm⟩, fun more later _ longer => ?_⟩
  rcases form_operator_cons longer with none | ⟨_, joins⟩
  · exact none
  · exact absurd joins single

theorem exact_markOrWithEquals {single extended : Operator}
    (covers : Lexeme.Covers ⟨.operator single, ""⟩ [c])
    (joined : extended.spelling.toList = [c, '='])
    (h : (markOrWithEquals single extended c rest).result = .ok t) :
    (markOrWithEquals single extended c rest).Exact t := by
  unfold markOrWithEquals at h ⊢
  split at h
  · cases h
    refine ⟨.inl joined.symm, longest_of_length (.inr ⟨extended, joined.symm⟩) ?_⟩
    show ∀ text : List Char, _ → text.length ≤ 2
    rintro text (rfl | ⟨other, rfl⟩)
    · decide
    · cases other <;> decide
  · rename_i other
    cases h
    refine ⟨covers, ?_, fun more later split longer => ?_⟩
    · rcases covers with spelled | ⟨_, equals⟩
      · exact .inr ⟨single, spelled⟩
      · exact .inl equals
    · rcases form_operator_cons longer with none | ⟨rfl, _⟩
      · exact none
      · exact absurd split (other later)

theorem exact_string (h : (string text).result = .ok t) : (string text).Exact t := by
  have plain : '"' ∉ text.takeWhile (· != '"') := by
    intro quote
    exact absurd (List.mem_takeWhile_imp quote) (by decide)
  have whole := stops_dropWhile (· != '"') text
  unfold string at h ⊢
  split at h
  · rename_i close later closed
    cases h
    rw [closed] at whole
    have quote : close = '"' := by simpa using whole close rfl
    subst quote
    refine ⟨.inl (by simp [Lexeme.text]), ⟨_, plain, rfl⟩, ?_⟩
    -- A longer string would hold the quote that ends this one.
    rintro more _ _ ⟨content, plain', same⟩
    simp only [List.cons_append, List.append_assoc, List.cons.injEq, true_and] at same
    rcases List.append_eq_append_iff.mp same with ⟨inner, inside, after⟩ | ⟨inner, inside, after⟩
    · cases inner with
      | nil => simpa using after
      | cons d inner =>
        simp only [List.nil_append, List.cons_append, List.cons.injEq] at after
        exact absurd (inside ▸ after.1 ▸ by simp) plain'
    · cases inner with
      | nil => simpa using after.symm
      | cons d inner => simp at after
  · cases h

theorem exact_comment (rest : List Char) :
    (comment ('#' :: rest)).Exact ⟨.comment, .ofList ('#' :: rest.takeWhile (· != '\n'))⟩ := by
  have line : ('#' :: rest).takeWhile (· != '\n') = '#' :: rest.takeWhile (· != '\n') := rfl
  unfold comment
  rw [line]
  refine ⟨.inl (by simp [Lexeme.text]), ?_⟩
  refine longest_of_stop (p := (· != '\n')) ⟨_, ?_, rfl⟩ ?_ (stops_dropWhile _ _)
  · intro feed
    exact absurd (List.mem_takeWhile_imp feed) (by decide)
  · rintro text ⟨content, plain, rfl⟩ d member
    rw [bne_iff_ne]
    rintro rfl
    exact plain ((List.mem_cons.mp member).resolve_left (by decide))

theorem exact_word (starts : Text.isWordStart c = true) (h : (word (c :: rest)).result = .ok t) :
    (word (c :: rest)).Exact t := by
  have isWord : IsWord ((c :: rest).takeWhile Text.isWordPart) := by
    refine ⟨⟨c, rest.takeWhile Text.isWordPart, ?_, starts⟩, fun _ => List.mem_takeWhile_imp⟩
    simp [Text.isWordPart_of_isWordStart starts]
  have longest : Longest IsWord ((c :: rest).takeWhile Text.isWordPart)
      ((c :: rest).dropWhile Text.isWordPart) :=
    longest_of_stop isWord (fun _ word => word.parts) (stops_dropWhile _ _)
  cases h
  unfold Token.Kind.ofWord
  split
  · exact ⟨.inl (by simp [word, Lexeme.text]), longest⟩
  · exact ⟨.inl (by simp [word, Lexeme.text]), longest⟩

theorem exact_int {digits : List Char} (longest : Longest IsNumber digits rest)
    (h : (int digits rest).result = .ok t) : (int digits rest).Exact t := by
  unfold int at h ⊢
  split at h
  · rename_i small
    cases h
    rw [if_pos small]
    exact ⟨.inl (by simp [Lexeme.text]), longest⟩
  · cases h

/-- The first character of a number that is no digit is its point. -/
theorem point_of_number {digits more : List Char} (all : ∀ d ∈ digits, d.isDigit = true)
    (other : c.isDigit = false) (number : IsNumber (digits ++ c :: more)) :
    c = '.' ∧ Digits more := by
  rcases number with number | ⟨whole, part, hw, hp, same⟩
  · have digit := number.all c (by simp)
    rw [other] at digit
    cases digit
  · have after := congrArg (List.dropWhile Char.isDigit) same
    rw [List.dropWhile_append_of_pos all, List.dropWhile_append_of_pos hw.all,
      List.dropWhile_cons_of_neg (by simp [other]),
      List.dropWhile_cons_of_neg (by decide)] at after
    obtain ⟨rfl, rfl⟩ := List.cons.inj after
    exact ⟨rfl, hp⟩

/-- Digits end before anything but a digit and a point with a digit. -/
theorem longest_digits {digits : List Char} (all : Digits digits)
    (stops : ∀ c ∈ rest.head?, c.isDigit = false)
    (point : ∀ d later, rest = '.' :: d :: later → ¬ d.isDigit = true) :
    Longest IsNumber digits rest := by
  refine ⟨.inl all, fun more later split longer => ?_⟩
  cases more with
  | nil => rfl
  | cons c more =>
    obtain ⟨rfl, part⟩ := point_of_number all.all (stops c (by simp [split])) longer
    cases more with
    | nil => exact absurd rfl part.some
    | cons d more => exact absurd (part.all d List.mem_cons_self) (point d (more ++ later) split)

theorem longest_fraction {whole part : List Char} (hw : Digits whole) (hp : Digits part)
    (stops : ∀ c ∈ rest.head?, c.isDigit = false) :
    Longest IsNumber (whole ++ '.' :: part) rest := by
  refine ⟨.inr ⟨whole, part, hw, hp, rfl⟩, fun more later split longer => ?_⟩
  rw [List.append_assoc, List.cons_append] at longer
  obtain ⟨_, longer⟩ := point_of_number hw.all (by decide) longer
  cases more with
  | nil => rfl
  | cons c more =>
    have digit := longer.all c (by simp)
    rw [stops c (by simp [split])] at digit
    cases digit

theorem digits_takeWhile (starts : c.isDigit = true) (rest : List Char) :
    Digits ((c :: rest).takeWhile Char.isDigit) :=
  ⟨by simp [starts], fun _ => List.mem_takeWhile_imp⟩

/-- A number with a fraction, or digits that cannot go on. -/
theorem number_cases (starts : c.isDigit = true) (rest : List Char) :
    (∃ whole part later, Longest IsNumber (whole ++ '.' :: part) later ∧
      number (c :: rest) =
        ⟨.ok ⟨.float, .ofList (whole ++ '.' :: part)⟩, whole ++ '.' :: part, later⟩) ∨
    ∃ digits later, Digits digits ∧ Longest IsNumber digits later ∧ digits ++ later = c :: rest ∧
      number (c :: rest) = int digits later := by
  have digits := digits_takeWhile starts rest
  have stops := stops_dropWhile Char.isDigit (c :: rest)
  have whole := List.takeWhile_append_dropWhile (p := Char.isDigit) (l := c :: rest)
  unfold number
  split
  · rename_i d later left
    rw [left] at stops whole
    by_cases digit : d.isDigit = true
    · rw [if_pos digit]
      exact .inl ⟨_, _, _, longest_fraction digits (digits_takeWhile digit later)
        (stops_dropWhile _ _), rfl⟩
    · rw [if_neg digit]
      refine .inr ⟨_, _, digits, longest_digits digits stops ?_, whole, rfl⟩
      intro d' later' same
      cases same
      exact digit
  · rename_i left
    exact .inr ⟨_, _, digits, longest_digits digits stops fun d later same _ =>
      left d later same, whole, rfl⟩

theorem exact_number (starts : c.isDigit = true) (h : (number (c :: rest)).result = .ok t) :
    (number (c :: rest)).Exact t := by
  rcases number_cases starts rest with ⟨whole, part, later, longest, read⟩ |
    ⟨digits, later, _, longest, _, read⟩
  · rw [read] at h ⊢
    cases h
    exact ⟨.inl (by simp [Lexeme.text]), longest⟩
  · rw [read] at h ⊢
    exact exact_int longest h

/-- Whatever is read is the longest token that starts there. -/
theorem read_exact (h : (read c rest).result = .ok t) : (read c rest).Exact t := by
  unfold read at h ⊢
  split at h
  case h_1 =>
    cases h
    exact exact_comment rest
  case h_2 => exact exact_string h
  case h_18 => exact exact_markOrWithEquals (.inr ⟨rfl, rfl⟩) rfl h
  case h_19 | h_20 | h_21 => exact exact_markOrWithEquals (.inl rfl) rfl h
  case h_22 =>
    split at h
    · rename_i digit
      rw [if_pos digit]
      exact exact_number digit h
    · rename_i digit
      rw [if_neg digit]
      split at h
      · rename_i starts
        rw [if_pos starts]
        exact exact_word starts h
      · cases h
  case h_12 | h_13 | h_14 | h_15 | h_16 | h_17 =>
    cases h
    exact exact_operator rfl (by decide)
  all_goals
    cases h
    exact exact_delimiter rfl

theorem markOrWithEquals_ne_error {single extended : Operator} {fault : ScanFault} :
    (markOrWithEquals single extended c rest).result ≠ .error fault := by
  unfold markOrWithEquals
  split <;> nofun

/-- If nothing is read at a character that is no digit, nothing there looks like a token. -/
theorem not_form_of_error {fault : ScanFault} (digit : ¬ c.isDigit = true)
    (h : (read c rest).result = .error fault) {kind : Token.Kind} {span later : List Char}
    (split : c :: rest = span ++ later) : ¬ kind.Form span := by
  intro form
  have word (isWord : IsWord span) : False := by
    obtain ⟨d, ds, rfl, starts⟩ := isWord.starts
    obtain ⟨rfl, _⟩ := List.cons.inj split
    unfold read at h
    split at h
    case h_22 =>
      rw [if_neg digit, if_pos starts] at h
      cases h
    all_goals exact absurd starts (by decide)
  have number (isNumber : IsNumber span) : False := by
    have starts (digits more : List Char) (all : Digits digits)
        (same : c :: rest = digits ++ more) : False := by
      cases digits with
      | nil => exact all.some rfl
      | cons d ds =>
        obtain ⟨rfl, _⟩ := List.cons.inj same
        exact digit (all.all c List.mem_cons_self)
    rcases isNumber with digits | ⟨whole, part, digits, _, rfl⟩
    · exact starts span later digits split
    · exact starts whole _ digits (by rw [split, List.append_assoc])
  cases kind with
  | endOfInput => exact form
  | identifier | keyword _ => exact word form
  | int | float => exact number form
  | comment =>
    obtain ⟨content, _, rfl⟩ := form
    obtain ⟨rfl, _⟩ := List.cons.inj split
    cases h
  | string =>
    obtain ⟨content, plain, rfl⟩ := form
    simp only [List.cons_append, List.append_assoc, List.nil_append, List.cons.injEq] at split
    obtain ⟨rfl, rfl⟩ := split
    rw [read_string plain] at h
    cases h
  | operator op =>
    rcases form with rfl | ⟨op, rfl⟩
    · obtain ⟨rfl, _⟩ := List.cons.inj split
      exact markOrWithEquals_ne_error h
    · cases op with
      | equal | notEqual | less | lessEqual | greater | greaterEqual | bang =>
        obtain ⟨rfl, _⟩ := List.cons.inj split
        exact markOrWithEquals_ne_error h
      | plus | minus | star | slash | percent | dot =>
        obtain ⟨rfl, _⟩ := List.cons.inj split
        cases h
  | delimiter mark =>
    obtain ⟨mark, rfl⟩ := form
    cases mark <;> obtain ⟨rfl, _⟩ := List.cons.inj split <;> cases h

/-- Where nothing is read there is no token. -/
theorem noToken_of_error {fault : ScanFault} (blank : Text.isBlank c = false)
    (h : (read c rest).result = .error fault) : NoToken (c :: rest) := by
  refine ⟨⟨c, rest, rfl, blank⟩, ?_⟩
  by_cases digit : c.isDigit = true
  · rw [read_number digit] at h
    rcases number_cases digit rest with ⟨whole, part, later, _, read⟩ |
      ⟨digits, later, all, longest, split, read⟩
    · rw [read] at h
      cases h
    · rw [read, int] at h
      by_cases small : Text.decimalValue digits ≤ maxInteger
      · rw [if_pos small] at h
        cases h
      · exact .inr ⟨digits, later, split.symm, all, longest, by omega⟩
  · exact .inl fun kind span later split => not_form_of_error digit h split

end Reading

/-! ## Calls of a scanner -/

namespace Scanner

/-- The scanner after so many calls. -/
def afterCalls (s : Scanner) : Nat → Scanner
  | 0 => s
  | n + 1 => s.next.2.afterCalls n

/-- What the call with this number gives, counted from zero. -/
def call (s : Scanner) (n : Nat) : ScanResult := (s.afterCalls n).next.1

end Scanner

/-- What one call takes from the text: blanks, then the characters of a token. -/
structure Tile where
  blanks : List Char
  span : List Char
  token : Token

/-- All characters that the call takes. -/
def Tile.chars (tile : Tile) : List Char := tile.blanks ++ tile.span

/-- The tile between two parts of a text: its token is written by its characters, which are as many
as can be, and stands where they start. -/
structure Tile.Exact (before : List Char) (tile : Tile) (rest : List Char) : Prop where
  blank : ∀ c ∈ tile.blanks, Text.isBlank c = true
  some : ∃ c cs, tile.span = c :: cs ∧ Text.isBlank c = false
  covers : tile.token.Covers tile.span
  longest : Longest tile.token.kind.Form tile.span rest
  position : tile.token.position = .behind (before ++ tile.blanks)

/-- The calls of a scanner behind the text `before`: the first ones give the tokens of the tiles.
Then there are blanks, and the text ends, or there is no token. -/
structure Tiling (before : List Char) (s : Scanner) (tiles : List Tile) (gap rest : List Char) :
    Prop where
  whole : s.rest = tiles.flatMap Tile.chars ++ gap ++ rest
  called : ∀ i tile, tiles[i]? = some tile → s.call i = .ok tile.token ∧
    tile.Exact (before ++ (tiles.take i).flatMap Tile.chars)
      ((tiles.drop (i + 1)).flatMap Tile.chars ++ gap ++ rest)
  blank : ∀ c ∈ gap, Text.isBlank c = true
  last :
    rest = [] ∧ (∀ n, tiles.length ≤ n →
      s.call n = .ok ⟨⟨.endOfInput, ""⟩, .behind (before ++ s.rest)⟩) ∨
    NoToken rest ∧ ∃ fault, s.call tiles.length =
      .error ⟨fault, .behind (before ++ tiles.flatMap Tile.chars ++ gap)⟩

namespace Scanner

variable {s : Scanner} {before : List Char}

/-- Once the text is used up every call gives its end. -/
theorem call_end (p : Position) (n : Nat) : call ⟨[], p⟩ n = .ok ⟨⟨.endOfInput, ""⟩, p⟩ := by
  induction n with
  | zero => rfl
  | succ n ih => exact ih

theorem call_succ {s' : Scanner} {result : ScanResult} (step : s.next = (result, s')) (n : Nat) :
    s.call (n + 1) = s'.call n := by
  rw [call, afterCalls, step]
  rfl

/-- One call: the end of the text after blanks, a tile, or no token after blanks. -/
theorem next_tiles (here : s.position = .behind before) :
    (∀ c ∈ s.rest, Text.isBlank c = true) ∧
      s.next = (.ok ⟨⟨.endOfInput, ""⟩, .behind (before ++ s.rest)⟩,
        ⟨[], .behind (before ++ s.rest)⟩) ∨
    (∃ (tile : Tile) (s' : Scanner), s.next = (.ok tile.token, s') ∧
      s.rest = tile.chars ++ s'.rest ∧ s'.position = .behind (before ++ tile.chars) ∧
      tile.Exact before s'.rest) ∨
    ∃ gap rest fault, s.rest = gap ++ rest ∧ (∀ c ∈ gap, Text.isBlank c = true) ∧ NoToken rest ∧
      s.next.1 = .error ⟨fault, .behind (before ++ gap)⟩ := by
  have blank : ∀ c ∈ s.rest.takeWhile Text.isBlank, Text.isBlank c = true :=
    fun _ => List.mem_takeWhile_imp
  have whole := List.takeWhile_append_dropWhile (p := Text.isBlank) (l := s.rest)
  have stops := stops_dropWhile Text.isBlank s.rest
  have moved (cs : List Char) : s.position.after cs = .behind (before ++ cs) := by
    rw [here, ← Position.start_after, ← Position.after_append, Position.start_after]
  unfold next
  split
  · rename_i none
    rw [none, List.append_nil] at whole
    rw [whole] at blank
    rw [whole, moved]
    exact .inl ⟨blank, rfl⟩
  · rename_i c rest starts
    rw [starts] at whole stops
    have first : Text.isBlank c = false := stops c rfl
    obtain ⟨split, stuck⟩ := Reading.read_splits c rest
    simp only [Reading.located, moved]
    cases read : (Reading.read c rest).result with
    | ok t =>
      obtain ⟨covers, longest⟩ := Reading.read_exact read
      refine .inr (.inl ⟨⟨_, (Reading.read c rest).taken, ⟨t, _⟩⟩, _, rfl, ?_, ?_, blank, ?_,
        covers, longest, rfl⟩)
      · rw [Tile.chars, List.append_assoc, split, whole]
      · rw [← moved, ← Position.after_append, moved, Tile.chars]
      · cases taken : (Reading.read c rest).taken with
        | nil =>
          obtain ⟨d, error⟩ := stuck taken
          rw [read] at error
          cases error
        | cons d ds =>
          rw [taken] at split
          exact ⟨d, ds, rfl, (List.cons.inj split).1 ▸ first⟩
    | error fault =>
      exact .inr (.inr ⟨_, _, fault, whole.symm, blank, Reading.noToken_of_error first read, rfl⟩)

/-- A tile, and then a tiling of what follows it. -/
theorem tiling_cons {s' : Scanner} {tile : Tile} {tiles : List Tile} {gap rest : List Char}
    (step : s.next = (.ok tile.token, s')) (taken : s.rest = tile.chars ++ s'.rest)
    (fits : tile.Exact before s'.rest) (later : Tiling (before ++ tile.chars) s' tiles gap rest) :
    Tiling before s (tile :: tiles) gap rest where
  whole := by simp [taken, later.whole]
  called := by
    intro i other here
    cases i with
    | zero =>
      cases here
      refine ⟨congrArg Prod.fst step, ?_⟩
      simpa [later.whole] using fits
    | succ i =>
      obtain ⟨called, fits'⟩ := later.called i other here
      exact ⟨(call_succ step i).trans called, by simpa using fits'⟩
  blank := later.blank
  last := by
    rcases later.last with ⟨none, ends⟩ | ⟨none, fault, fails⟩
    · refine .inl ⟨none, fun n enough => ?_⟩
      cases n with
      | zero => simp at enough
      | succ n => rw [call_succ step, ends n (by simpa using enough), taken, List.append_assoc]
    · refine .inr ⟨none, fault, ?_⟩
      rw [List.length_cons, call_succ step, fails]
      simp

/-- Every scanner has a tiling of what it has not read. -/
theorem exists_tiling (here : s.position = .behind before) :
    ∃ tiles gap rest, Tiling before s tiles gap rest := by
  induction size : s.rest.length using Nat.strong_induction_on generalizing s before with
  | _ n ih =>
    rcases next_tiles here with ⟨blank, step⟩ | ⟨tile, s', step, taken, there, fits⟩ |
      ⟨gap, rest, fault, split, blank, none, fails⟩
    · refine ⟨[], s.rest, [], by simp, nofun, blank, .inl ⟨rfl, fun n _ => ?_⟩⟩
      cases n with
      | zero => exact congrArg Prod.fst step
      | succ n => rw [call_succ step, call_end]
    · have shorter : s'.rest.length < n := by
        obtain ⟨c, cs, span, _⟩ := fits.some
        have := congrArg List.length taken
        rw [Tile.chars, span, List.length_append, List.length_append, List.length_cons] at this
        omega
      obtain ⟨tiles, gap, rest, later⟩ := ih _ shorter there rfl
      exact ⟨tile :: tiles, gap, rest, tiling_cons step taken fits later⟩
    · refine ⟨[], gap, rest, split, nofun, blank, .inr ⟨none, fault, ?_⟩⟩
      rw [List.flatMap_nil, List.append_nil]
      exact fails

end Scanner

/-- The calls of a scanner cover the text: it is blanks and tokens by turns, up to its end or to the
first place where there is no token. Each token has the characters that write it, as many as can be,
and the position of the first of them. The end of the text is given for ever, at one position. -/
theorem scan_tiles (text : String) :
    ∃ tiles gap rest, Tiling [] (.ofString text) tiles gap rest :=
  Scanner.exists_tiling rfl

end Rulebook
