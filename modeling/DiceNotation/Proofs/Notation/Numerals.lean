import Mathlib
import DiceNotation.Building
import DiceNotation.Proofs.Grammar.Tokens

/-!
# Written numerals

The decimal digits of a natural number are a whole number of the grammar, with no zero in front,
and they read back as that number. A count and an integer of 64 bits are read back from their own
digits.
-/

namespace DiceNotation

open Grammar

/-- Digits do not start with a sign. -/
theorem ne_cons_of_isDigit {digits : List Char} (h : ∀ c ∈ digits, c.isDigit = true) {sign : Char}
    (hsign : sign.isDigit = false) (rest : List Char) : digits ≠ sign :: rest := by
  rintro rfl
  rw [h sign List.mem_cons_self] at hsign
  cases hsign

/-- Digits are read as the number that they stand for. -/
theorem readDigits_of_isDigit {digits : List Char} (hne : digits ≠ [])
    (h : ∀ c ∈ digits, c.isDigit = true) :
    Decimal.readDigits digits = some (Nat.ofDigitChars 10 digits 0) := by
  rw [Decimal.readDigits, if_pos ⟨hne, List.all_eq_true.2 h⟩]

/-- The digits of a number above zero do not start with a zero. -/
theorem isPositive_toDigits {n : Nat} (h : 0 < n) : IsPositive (Nat.toDigits 10 n) := by
  induction n using Nat.strongRecOn with
  | ind n ih =>
    by_cases hn : n < 10
    · rw [Nat.toDigits_of_lt_base hn]
      refine ⟨by rw [Nat.isDigit_digitChar]; exact decide_eq_true hn, ?_, List.forall_mem_nil _⟩
      rw [ne_eq, Nat.digitChar_eq_zero]
      omega
    · have hquotient : 0 < n / 10 := by omega
      have hprefix := ih (n / 10) (by omega) hquotient
      rw [Nat.toDigits_of_base_le (by decide) (by omega)]
      cases hdigits : Nat.toDigits 10 (n / 10) with
      | nil => exact absurd hdigits Nat.toDigits_ne_nil
      | cons first more =>
        rw [hdigits] at hprefix
        obtain ⟨hfirst, hzero, hmore⟩ := hprefix
        refine ⟨hfirst, hzero, fun c hc => ?_⟩
        rcases List.mem_append.1 hc with hc | hc
        · exact hmore c hc
        · rw [List.mem_singleton.1 hc, Nat.isDigit_digitChar]
          exact decide_eq_true (by omega)

/-- The digits of every number are those of a whole number. -/
theorem isWhole_toDigits (n : Nat) : IsWhole (Nat.toDigits 10 n) := by
  cases n with
  | zero => exact .inl (Nat.toDigits_zero 10)
  | succ n => exact .inr (isPositive_toDigits (Nat.succ_pos n))

/-- A number is written with digits only. -/
theorem isDigit_of_mem_digits {n : Nat} {c : Char} (h : c ∈ Nat.toDigits 10 n) :
    c.isDigit = true :=
  Nat.isDigit_of_mem_toDigits (by decide) (by decide) h

/-- The digits of a number are read as the number. -/
theorem readDigits_toDigits (n : Nat) : Decimal.readDigits (Nat.toDigits 10 n) = some n := by
  rw [readDigits_of_isDigit Nat.toDigits_ne_nil fun _ => isDigit_of_mem_digits,
    Nat.ofDigitChars_ten_toDigits]

/-- No sign stands in front of digits. -/
theorem toDigits_ne_cons {n : Nat} {c : Char} {rest : List Char} (hc : c.isDigit = false) :
    Nat.toDigits 10 n ≠ c :: rest :=
  ne_cons_of_isDigit (fun _ => isDigit_of_mem_digits) hc rest

/-- A count is written as its digits. -/
theorem toList_toString (n : UInt32) : (toString n).toList = Nat.toDigits 10 n.toNat :=
  Nat.toList_repr

/-- The digits of a count are read back. -/
theorem readCount_toString (n : UInt32) : readCount (toString n) = .ok n := by
  have hread : Decimal.readUInt32 (Nat.toDigits 10 n.toNat) = some n := by
    rw [Decimal.readUInt32]
    · rw [readDigits_toDigits, Option.bind_some, if_pos (UInt32.toNat_lt n), UInt32.ofNat_toNat]
    · exact fun rest h => toDigits_ne_cons rfl h
  rw [readCount, toList_toString, hread]

/-- So they are where a sign could stand in front. -/
theorem readSigned_toDigits (n : Nat) :
    Decimal.readSigned (Nat.toDigits 10 n) = some (n : Int) := by
  rw [Decimal.readSigned]
  · rw [readDigits_toDigits, Option.map_some]
    rfl
  · exact fun rest h => toDigits_ne_cons rfl h
  · exact fun rest h => toDigits_ne_cons rfl h

/-- The digits of an integer that is not negative are read back. -/
theorem readInt64_toDigits {n : Nat} (h : n < 2 ^ 63) :
    Decimal.readInt64 (Nat.toDigits 10 n) = some (Int64.ofInt n) := by
  have hfits : -Int.pow 2 63 ≤ (n : Int) ∧ (n : Int) < Int.pow 2 63 := by
    change -2 ^ 63 ≤ (n : Int) ∧ (n : Int) < 2 ^ 63
    omega
  rw [Decimal.readInt64, readSigned_toDigits, Option.bind_some, if_pos hfits]

end DiceNotation
