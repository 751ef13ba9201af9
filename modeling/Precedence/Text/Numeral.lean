/-! Decimal numerals within the range of a signed 64-bit integer. -/
namespace Precedence.Text

def integerLimit : Nat := 9223372036854775807

/-- Reads a non-empty run of digits whose value is in range. Leading zeros do not matter. -/
def numeral? (s : String) : Option Int :=
  if s ≠ "" ∧ s.toList.all Char.isDigit ∧ Nat.ofDigitChars 10 s.toList 0 ≤ integerLimit
  then some (Nat.ofDigitChars 10 s.toList 0) else none

theorem numeral?_repr {n : Nat} (h : n ≤ integerLimit) : numeral? (Nat.repr n) = some ↑n := by
  have hdigits : (Nat.toDigits 10 n).all Char.isDigit = true :=
    List.all_eq_true.mpr fun _ hc => Nat.isDigit_of_mem_toDigits (by decide) (by decide) hc
  have hne : Nat.repr n ≠ "" := by
    intro he
    have hs := congrArg String.toList he
    rw [Nat.toList_repr] at hs
    exact Nat.toDigits_ne_nil hs
  rw [numeral?,Nat.toList_repr,Nat.ofDigitChars_ten_toDigits,if_pos ⟨hne,hdigits,h⟩]

end Precedence.Text
