/-!
# Decimal numerals
-/

namespace Rulebook.Text

/-- The value of a run of decimal digits. -/
def decimalValue (digits : List Char) : Nat :=
  digits.foldl (fun n c => 10 * n + (c.toNat - '0'.toNat)) 0

end Rulebook.Text
