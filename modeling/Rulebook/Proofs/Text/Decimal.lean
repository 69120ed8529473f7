import Rulebook.Text.Decimal

/-!
# Numbers in decimal

A number is written in digits, without zeros in front, and the digits tell the number.
-/

namespace Rulebook

/-- Digits, one at least. -/
structure Digits (text : List Char) : Prop where
  some : text ≠ []
  all : ∀ c ∈ text, c.isDigit = true

theorem Digits.exists_cons {text : List Char} (digits : Digits text) :
    ∃ c rest, text = c :: rest ∧ c.isDigit = true := by
  obtain ⟨c, rest, rfl⟩ := List.exists_cons_of_ne_nil digits.some
  exact ⟨c, rest, rfl, digits.all c List.mem_cons_self⟩

theorem toList_toString_nat (n : Nat) : (toString n).toList = Nat.toDigits 10 n := Nat.toList_repr

theorem digits_toString (n : Nat) : Digits (toString n).toList := by
  rw [toList_toString_nat]
  exact ⟨Nat.toDigits_ne_nil, fun c member =>
    Nat.isDigit_of_mem_toDigits (by decide) (by decide) member⟩

theorem decimalValue_toString (n : Nat) : Text.decimalValue (toString n).toList = n := by
  rw [toList_toString_nat]
  exact Nat.ofDigitChars_ten_toDigits

theorem toString_nat_inj {m n : Nat} (h : toString m = toString n) : m = n := by
  rw [← decimalValue_toString m, h, decimalValue_toString]

/-- A number other than zero does not start with a zero. -/
theorem head?_toString_ne_zero {n : Nat} (positive : 0 < n) :
    (toString n).toList.head? ≠ some '0' := by
  rw [toList_toString_nat]
  induction n using Nat.strongRecOn with
  | ind n ih =>
    by_cases small : n < 10
    · rw [Nat.toDigits_of_lt_base small, List.head?_cons, ne_eq, Option.some.injEq]
      have nonzero : ∀ m : Fin 10, 0 < m.val → Nat.digitChar m.val ≠ '0' := by decide
      exact nonzero ⟨n, small⟩ positive
    · have split : Nat.toDigits 10 n = Nat.toDigits 10 (n / 10) ++ [Nat.digitChar (n % 10)] :=
        Nat.toDigits_of_base_le (by decide) (by omega)
      have first := ih (n / 10) (by omega) (by omega)
      obtain ⟨c, cs, digits⟩ := List.exists_cons_of_ne_nil (@Nat.toDigits_ne_nil (n / 10) 10)
      rw [digits] at first
      rw [split, digits]
      exact first

end Rulebook
