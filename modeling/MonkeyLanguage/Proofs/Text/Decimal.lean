import MonkeyLanguage.Text.Decimal

/-!
# Numerals read back

The number that was written is the value of its numeral, also with zeros in front.
-/

namespace MonkeyLanguage.Decimal

theorem value_toDigits (n : Nat) : value (Nat.toDigits 10 n) = n := by
  have same : value (Nat.toDigits 10 n) = Nat.ofDigitChars 10 (Nat.toDigits 10 n) 0 := by
    rw [Nat.ofDigitChars_eq_foldl]
    rfl
  rw [same, Nat.ofDigitChars_ten_toDigits]

theorem isDigit_of_mem_toDigits {n : Nat} {c : Char} (member : c ∈ Nat.toDigits 10 n) :
    c.isDigit = true :=
  Nat.isDigit_of_mem_toDigits (by decide) (by decide) member

theorem value_zeros_append (count : Nat) (digits : List Char) :
    value (List.replicate count '0' ++ digits) = value digits := by
  induction count with
  | zero => rfl
  | succ count ih => exact ih

theorem toList_fourDigits (n : Nat) : ∃ count,
    (fourDigits n).toList = List.replicate count '0' ++ Nat.toDigits 10 n :=
  ⟨4 - (toString n).length, by simp [fourDigits]⟩

theorem value_fourDigits (n : Nat) : value (fourDigits n).toList = n := by
  obtain ⟨count, spelled⟩ := toList_fourDigits n
  rw [spelled, value_zeros_append, value_toDigits]

theorem isDigit_of_mem_fourDigits {n : Nat} {c : Char} (member : c ∈ (fourDigits n).toList) :
    c.isDigit = true := by
  obtain ⟨count, spelled⟩ := toList_fourDigits n
  rw [spelled, List.mem_append, List.mem_replicate] at member
  rcases member with ⟨-, rfl⟩ | digit
  · rfl
  · exact isDigit_of_mem_toDigits digit

end MonkeyLanguage.Decimal
