/-!
# Spans of code points

A class of characters that a standard lists is kept as a list of spans, in increasing order.
-/

namespace Rulebook.Text

/-- A run of consecutive code points, both ends included. -/
structure Span where
  first : Nat
  last : Nat
  deriving Repr, DecidableEq

namespace Span

/-- Whether the code point `n` lies in the span. -/
def contains (s : Span) (n : Nat) : Bool := decide (s.first ≤ n) && decide (n ≤ s.last)

theorem contains_iff {s : Span} {n : Nat} : s.contains n = true ↔ s.first ≤ n ∧ n ≤ s.last := by
  simp [contains]

end Span

/-- Whether some span of the list holds the character. -/
def covered (spans : List Span) (c : Char) : Bool := spans.any (·.contains c.toNat)

end Rulebook.Text
