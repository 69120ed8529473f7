import Rulebook.Token.Basic
import Rulebook.Text.Class
import Rulebook.Text.Decimal

/-!
# Scanning a text

A scanner stands at a place of a text. Each step skips blanks and reads one token; what cannot be
read is an error, with the place where it starts. `Scanner.results` lists what repeated steps give.

Main statements: a reading splits the text in two without loss (`read_taken_append_rest`), and each
result but the last leaves less to read (`rest_next_lt`).
-/

namespace Rulebook

/-- Why a piece of text is no token. -/
inductive ScanFault where
  /-- No token starts with this character. -/
  | unexpected (c : Char)
  /-- The text ends inside a string. -/
  | unterminated
  /-- The value of these digits is out of the range of integers. -/
  | outOfRange (digits : String)
  deriving Repr, DecidableEq

namespace ScanFault

def message : ScanFault → String
  | unexpected c => s!"Unexpected character: '{c}'"
  | unterminated => "Unterminated string"
  | outOfRange digits => s!"Invalid int: {digits}"

end ScanFault

/-- A fault and the place where the faulty text starts. -/
structure ScanError where
  fault : ScanFault
  position : Position
  deriving Repr, DecidableEq

namespace ScanError

def message (e : ScanError) : String := s!"Lexer error at {e.position.text}: {e.fault.message}"

end ScanError

/-- The greatest integer that a text may hold: the greatest of 64 bits with a sign. -/
def maxInteger : Nat := 0x7fffffffffffffff

/-- What was read at the start of a text: a lexeme or a fault, the characters taken for it and the
characters left. -/
structure Reading where
  result : Except ScanFault Lexeme
  taken : List Char
  rest : List Char

namespace Reading

/-- A comment runs to the end of its line. -/
def comment (text : List Char) : Reading :=
  let line := text.takeWhile (· != '\n')
  ⟨.ok ⟨.comment, .ofList line⟩, line, text.dropWhile (· != '\n')⟩

/-- A string runs to the next quote; `text` follows the opening quote. -/
def string (text : List Char) : Reading :=
  let content := text.takeWhile (· != '"')
  match text.dropWhile (· != '"') with
  | close :: rest => ⟨.ok ⟨.string, .ofList content⟩, '"' :: content ++ [close], rest⟩
  | [] => ⟨.error .unterminated, '"' :: content, []⟩

/-- A word is a keyword or an identifier. -/
def word (text : List Char) : Reading :=
  let name := text.takeWhile Text.isWordPart
  ⟨.ok ⟨.ofWord (.ofList name), .ofList name⟩, name, text.dropWhile Text.isWordPart⟩

/-- A whole number, unless it is too large. -/
def int (digits rest : List Char) : Reading :=
  if Text.decimalValue digits ≤ maxInteger then
    ⟨.ok ⟨.int, .ofList digits⟩, digits, rest⟩
  else
    ⟨.error (.outOfRange (.ofList digits)), digits, rest⟩

/-- A number has a fraction only if a digit follows the point: otherwise the point is left. -/
def number (text : List Char) : Reading :=
  let digits := text.takeWhile Char.isDigit
  match text.dropWhile Char.isDigit with
  | '.' :: d :: rest =>
    if d.isDigit then
      let whole := digits ++ '.' :: (d :: rest).takeWhile Char.isDigit
      ⟨.ok ⟨.float, .ofList whole⟩, whole, (d :: rest).dropWhile Char.isDigit⟩
    else
      int digits ('.' :: d :: rest)
  | rest => int digits rest

/-- A mark that is a token by itself. -/
def mark (kind : Token.Kind) (c : Char) (rest : List Char) : Reading :=
  ⟨.ok ⟨kind, ""⟩, [c], rest⟩

/-- A mark that takes a following equals sign into a longer operator. -/
def markOrWithEquals (single extended : Operator) (c : Char) (rest : List Char) : Reading :=
  match rest with
  | '=' :: rest => ⟨.ok ⟨.operator extended, ""⟩, [c, '='], rest⟩
  | rest => mark (.operator single) c rest

/-- Read at the start of `c :: rest`, where `c` is no blank. -/
def read (c : Char) (rest : List Char) : Reading :=
  match c with
  | '#' => comment (c :: rest)
  | '"' => string rest
  | '(' => mark (.delimiter .leftParen) c rest
  | ')' => mark (.delimiter .rightParen) c rest
  | '\x7b' => mark (.delimiter .leftBrace) c rest
  | '\x7d' => mark (.delimiter .rightBrace) c rest
  | '[' => mark (.delimiter .leftBracket) c rest
  | ']' => mark (.delimiter .rightBracket) c rest
  | ',' => mark (.delimiter .comma) c rest
  | ';' => mark (.delimiter .semicolon) c rest
  | ':' => mark (.delimiter .colon) c rest
  | '.' => mark (.operator .dot) c rest
  | '+' => mark (.operator .plus) c rest
  | '-' => mark (.operator .minus) c rest
  | '*' => mark (.operator .star) c rest
  | '/' => mark (.operator .slash) c rest
  | '%' => mark (.operator .percent) c rest
  | '=' => markOrWithEquals .equal .equal c rest
  | '!' => markOrWithEquals .bang .notEqual c rest
  | '>' => markOrWithEquals .greater .greaterEqual c rest
  | '<' => markOrWithEquals .less .lessEqual c rest
  | c =>
    if c.isDigit then number (c :: rest)
    else if Text.isWordStart c then word (c :: rest)
    else ⟨.error (.unexpected c), [], c :: rest⟩

/-- A reading that loses nothing and takes something unless it stays on an unexpected character. -/
def Splits (r : Reading) (text : List Char) : Prop :=
  r.taken ++ r.rest = text ∧ (r.taken = [] → ∃ c, r.result = .error (.unexpected c))

theorem mark_splits (kind : Token.Kind) (c : Char) (rest : List Char) :
    (mark kind c rest).Splits (c :: rest) := by
  simp [mark, Splits]

theorem markOrWithEquals_splits (single extended : Operator) (c : Char) (rest : List Char) :
    (markOrWithEquals single extended c rest).Splits (c :: rest) := by
  unfold markOrWithEquals
  split
  · simp [Splits]
  · exact mark_splits ..

theorem string_splits (text : List Char) : (string text).Splits ('"' :: text) := by
  have whole := List.takeWhile_append_dropWhile (p := (· != '"')) (l := text)
  unfold string
  split
  · rename_i close rest h
    rw [h] at whole
    simp [Splits, whole]
  · rename_i h
    rw [h, List.append_nil] at whole
    simp [Splits, whole]

theorem int_splits {digits : List Char} (rest : List Char) (h : digits ≠ []) :
    (int digits rest).Splits (digits ++ rest) := by
  unfold int
  split <;> simp [Splits, h]

theorem number_splits {text : List Char} (h : text.takeWhile Char.isDigit ≠ []) :
    (number text).Splits text := by
  have whole := List.takeWhile_append_dropWhile (p := Char.isDigit) (l := text)
  unfold number
  split
  · rename_i d rest hr
    rw [hr] at whole
    split
    · refine ⟨?_, by simp [h]⟩
      simp only [List.append_assoc, List.cons_append, List.takeWhile_append_dropWhile]
      exact whole
    · have := int_splits ('.' :: d :: rest) h
      rwa [whole] at this
  · rename_i rest hr
    have := int_splits (text.dropWhile Char.isDigit) h
    rwa [whole] at this

theorem read_splits (c : Char) (rest : List Char) : (read c rest).Splits (c :: rest) := by
  unfold read
  split
  case h_1 =>
    exact ⟨List.takeWhile_append_dropWhile, by simp [comment]⟩
  case h_2 => exact string_splits rest
  case h_22 =>
    split
    · rename_i hd
      exact number_splits (by simp [hd])
    · split
      · rename_i hw
        refine ⟨List.takeWhile_append_dropWhile, ?_⟩
        simp [word, Text.isWordPart_of_isWordStart hw]
      · exact ⟨rfl, fun _ => ⟨_, rfl⟩⟩
  case h_18 | h_19 | h_20 | h_21 => exact markOrWithEquals_splits ..
  all_goals exact mark_splits ..

/-- A reading splits the text in two without loss. -/
theorem read_taken_append_rest (c : Char) (rest : List Char) :
    (read c rest).taken ++ (read c rest).rest = c :: rest := (read_splits c rest).1

end Reading

/-- A scanner: the text not yet read and the position of its first character. -/
structure Scanner where
  rest : List Char
  position : Position
  deriving Repr, DecidableEq

/-- What one step of a scanner gives. -/
abbrev ScanResult := Except ScanError Token

/-- The result of a reading that starts at `position`. -/
def Reading.located (r : Reading) (position : Position) : ScanResult :=
  match r.result with
  | .ok lexeme => .ok ⟨lexeme, position⟩
  | .error fault => .error ⟨fault, position⟩

namespace ScanResult

/-- Results that every later step repeats: the end of input, and a character that starts no token,
on which the scanner stays. -/
def isLast : ScanResult → Bool
  | .ok t => t.kind == .endOfInput
  | .error ⟨.unexpected _, _⟩ => true
  | .error _ => false

/-- Everything but a comment. -/
def isSignificant : ScanResult → Bool
  | .ok t => t.kind != .comment
  | .error _ => true

end ScanResult

namespace Scanner

/-- A scanner at the start of a text. -/
def ofString (text : String) : Scanner := ⟨text.toList, .start⟩

/-- Skip blanks, then read one token. Once the text is used up every step gives its end. -/
def next (s : Scanner) : ScanResult × Scanner :=
  let position := s.position.after (s.rest.takeWhile Text.isBlank)
  match s.rest.dropWhile Text.isBlank with
  | [] => (.ok ⟨⟨.endOfInput, ""⟩, position⟩, ⟨[], position⟩)
  | c :: rest =>
    let reading := Reading.read c rest
    (reading.located position, ⟨reading.rest, position.after reading.taken⟩)

/-- Every step but one whose result repeats for ever leaves less text. -/
theorem rest_next_lt {s : Scanner} (h : s.next.1.isLast = false) :
    s.next.2.rest.length < s.rest.length := by
  have blanks := congrArg List.length
    (List.takeWhile_append_dropWhile (p := Text.isBlank) (l := s.rest))
  rw [List.length_append] at blanks
  unfold next at h ⊢
  split at h <;> rename_i heq
  · simp [ScanResult.isLast] at h
  · rename_i c rest
    rw [heq] at blanks
    simp only at h ⊢
    obtain ⟨whole, stuck⟩ := Reading.read_splits c rest
    have size := congrArg List.length whole
    rw [List.length_append] at size
    have moved : (Reading.read c rest).taken ≠ [] := by
      intro none
      obtain ⟨c', hc⟩ := stuck none
      simp [Reading.located, hc, ScanResult.isLast] at h
    have := List.length_pos_iff.mpr moved
    omega

/-- The results of repeated steps: those before the first that repeats, and that one. -/
def results (s : Scanner) : List ScanResult × ScanResult :=
  let step := s.next
  if _more : step.1.isLast = false then
    let later := step.2.results
    (step.1 :: later.1, later.2)
  else
    ([], step.1)
termination_by s.rest.length
decreasing_by exact rest_next_lt _more

end Scanner

end Rulebook
