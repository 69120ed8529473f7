import Rulebook.Text.Alphabetic
import Rulebook.Text.Numeric

/-!
# Character classes

The classes that decide where words and blanks of a rule text begin and end, and the narrower ASCII
classes of the logic language.
-/

namespace Rulebook.Text

/-- Spans of the standard property `White_Space`. -/
def blankSpans : List Span :=
  [⟨0x9, 0xd⟩, ⟨0x20, 0x20⟩, ⟨0x85, 0x85⟩, ⟨0xa0, 0xa0⟩, ⟨0x1680, 0x1680⟩, ⟨0x2000, 0x200a⟩,
   ⟨0x2028, 0x2029⟩, ⟨0x202f, 0x202f⟩, ⟨0x205f, 0x205f⟩, ⟨0x3000, 0x3000⟩]

/-- A blank separates tokens. -/
def isBlank (c : Char) : Bool := covered blankSpans c

/-- Alphabetic, in ASCII or beyond. -/
def isAlphabetic (c : Char) : Bool :=
  if c.toNat < 0x80 then c.isAlpha else alphabeticBeyondAscii c

/-- Alphabetic or numeric, in ASCII or beyond. -/
def isAlphanumeric (c : Char) : Bool :=
  if c.toNat < 0x80 then c.isAlphanum else alphabeticBeyondAscii c || numericBeyondAscii c

/-- A word starts with an alphabetic character or an underscore. -/
def isWordStart (c : Char) : Bool := isAlphabetic c || c == '_'

/-- A word goes on with alphabetic or numeric characters and underscores. -/
def isWordPart (c : Char) : Bool := isAlphanumeric c || c == '_'

/-- Parts of a plain name of the logic language: ASCII letters, ASCII digits and underscores. -/
def isPlainPart (c : Char) : Bool := c.isAlphanum || c == '_'

/-- A plain atom of the logic language: a lower case letter, then plain parts. -/
def isPlainAtom : List Char → Bool
  | [] => false
  | c :: cs => c.isLower && cs.all isPlainPart

/-- A plain variable of the logic language: an upper case letter or an underscore, then plain
parts. -/
def isPlainVariable : List Char → Bool
  | [] => false
  | c :: cs => (c.isUpper || c == '_') && cs.all isPlainPart

/-- Every character that starts a word may also go on with it. -/
theorem isWordPart_of_isWordStart {c : Char} (h : isWordStart c = true) : isWordPart c = true := by
  unfold isWordStart at h
  unfold isWordPart
  simp only [Bool.or_eq_true] at h ⊢
  refine h.imp_left fun h => ?_
  unfold isAlphabetic at h
  unfold isAlphanumeric
  split
  · rename_i small
    rw [if_pos small] at h
    simp [Char.isAlphanum, h]
  · rename_i large
    rw [if_neg large] at h
    simp [h]

end Rulebook.Text
