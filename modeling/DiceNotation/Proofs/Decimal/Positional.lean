import DiceNotation.Decimal.Layout
import DiceNotation.Proofs.Decimal.Nearest
import DiceNotation.Proofs.Notation.Numerals

/-!
# Positional decimals read back

Significant digits that are laid out around the decimal point are a whole number and a fraction of
the grammar, and stand for the number that they came from. So the positional text of a
floating-point number is read as this number again.
-/

namespace DiceNotation

namespace Grammar

/-- A positive number is written with digits only. -/
theorem IsPositive.all_isDigit {digits : List Char} (h : IsPositive digits) :
    ∀ c ∈ digits, c.isDigit = true := by
  cases digits with
  | nil => exact List.forall_mem_nil _
  | cons first more => exact List.forall_mem_cons.2 ⟨h.1, h.2.2⟩

/-- A positive number has a digit. -/
theorem IsPositive.ne_nil {digits : List Char} (h : IsPositive digits) : digits ≠ [] := by
  rintro rfl
  exact h

/-- More digits behind a positive number make another one. -/
theorem IsPositive.append {digits more : List Char} (h : IsPositive digits)
    (hmore : ∀ c ∈ more, c.isDigit = true) : IsPositive (digits ++ more) := by
  cases digits with
  | nil => exact h.elim
  | cons first rest =>
    refine ⟨h.1, h.2.1, fun c hc => ?_⟩
    rcases List.mem_append.1 hc with hc | hc
    · exact h.2.2 c hc
    · exact hmore c hc

/-- The first digits of a positive number are a positive number. -/
theorem IsPositive.of_append {digits : List Char} (more : List Char)
    (h : IsPositive (digits ++ more)) (hne : digits ≠ []) : IsPositive digits := by
  cases digits with
  | nil => exact absurd rfl hne
  | cons first rest => exact ⟨h.1, h.2.1, fun c hc => h.2.2 c (List.mem_append_left more hc)⟩

/-- Zeros are digits. -/
theorem all_isDigit_replicate (n : ℕ) : ∀ c ∈ List.replicate n '0', c.isDigit = true := by
  intro c hc
  rw [List.eq_of_mem_replicate hc]
  rfl

/-- A whole number has a digit. -/
theorem IsWhole.ne_nil {digits : List Char} (h : IsWhole digits) : digits ≠ [] := by
  obtain ⟨first, more, rfl, -⟩ := h.exists_cons
  exact List.cons_ne_nil first more

/-- A whole number is written with digits only. -/
theorem IsWhole.all_isDigit {digits : List Char} (h : IsWhole digits) :
    ∀ c ∈ digits, c.isDigit = true := by
  rcases h with rfl | hpositive
  · exact all_isDigit_replicate 1
  · exact IsPositive.all_isDigit hpositive

end Grammar

namespace Decimal

open Grammar

/-! ## Significant digits -/

/-- A text without the zeros at its end, and these zeros. -/
theorem exists_zeros (text : List Char) :
    ∃ zeros, text = (text.reverse.dropWhile (· == '0')).reverse ++ List.replicate zeros '0' := by
  refine ⟨(text.reverse.takeWhile (· == '0')).length, ?_⟩
  have hzeros : text.reverse.takeWhile (· == '0') =
      List.replicate (text.reverse.takeWhile (· == '0')).length '0' := by
    refine List.eq_replicate_of_mem fun c hc => ?_
    have hzero := List.mem_takeWhile_imp (p := (· == '0')) hc
    exact beq_iff_eq.1 hzero
  have hsplit := List.takeWhile_append_dropWhile (p := (· == '0')) (l := text.reverse)
  rw [hzeros] at hsplit
  have hreverse := congrArg List.reverse hsplit
  rw [List.reverse_append, List.reverse_replicate, List.reverse_reverse] at hreverse
  exact hreverse.symm

/-- The significant digits of a number are its digits without zeros at the end. -/
theorem exists_significant {number : Scaled} (h : 0 < number.digits) :
    ∃ digits leading, significant number = (digits, leading) ∧ IsPositive digits ∧
      (Nat.ofDigitChars 10 digits 0 * 10 ^ (leading + 1 - digits.length) : ℚ) =
        number.digits * 10 ^ number.exponent := by
  have hpositive := isPositive_toDigits h
  have hvalue : Nat.ofDigitChars 10 (Nat.toDigits 10 number.digits) 0 = number.digits :=
    Nat.ofDigitChars_ten_toDigits
  obtain ⟨zeros, hsplit⟩ := exists_zeros (Nat.toDigits 10 number.digits)
  rw [significant]
  generalize ((Nat.toDigits 10 number.digits).reverse.dropWhile (· == '0')).reverse = kept
    at hsplit ⊢
  rw [hsplit] at hpositive hvalue ⊢
  cases kept with
  | nil =>
    -- There is another digit than zero.
    cases zeros with
    | zero => exact hpositive.elim
    | succ zeros => exact absurd rfl hpositive.2.1
  | cons first more =>
    refine ⟨first :: more, _, rfl, .of_append _ hpositive (List.cons_ne_nil _ _), ?_⟩
    rw [Nat.ofDigitChars_append, Nat.ofDigitChars_replicate_zero] at hvalue
    have hexponent : number.exponent + ((first :: more) ++ List.replicate zeros '0').length - 1 +
        1 - (first :: more).length = zeros + number.exponent := by
      rw [List.length_append, List.length_replicate]
      push_cast
      ring
    rw [hexponent, zpow_add₀ (by norm_num), zpow_natCast, ← hvalue]
    push_cast
    ring

/-! ## Positions -/

/-- A text is a whole number and a fraction around a decimal point, with some value. -/
def IsDecimalOf (value : ℚ) (text : List Char) : Prop :=
  ∃ whole fraction, text = whole ++ '.' :: fraction ∧ IsWhole whole ∧ IsFraction fraction ∧
    (Nat.ofDigitChars 10 (whole ++ fraction) 0 / (10 ^ fraction.length : ℕ) : ℚ) = value

/-- The scale of digits with a fraction is a quotient of two powers of ten. -/
theorem scale_natCast (places length : ℕ) :
    (10 : ℚ) ^ ((places : ℤ) + 1 - length) = 10 ^ (places + 1) / 10 ^ length := by
  rw [zpow_sub₀ (by norm_num), zpow_natCast, ← zpow_natCast]
  norm_cast

/-- If all digits stand before the point, zeros fill the places up to it. -/
theorem isDecimalOf_positional_of_length_le {digits : List Char} {places : ℕ}
    (h : IsPositive digits) (hshort : digits.length ≤ places + 1) :
    IsDecimalOf (Nat.ofDigitChars 10 digits 0 * 10 ^ ((places : ℤ) + 1 - digits.length))
      (positional digits places) := by
  obtain ⟨zeros, hzeros⟩ := Nat.exists_eq_add_of_le hshort
  have hfraction : IsFraction ['0'] := ⟨List.cons_ne_nil _ _, all_isDigit_replicate 1⟩
  have hlayout : positional digits places =
      (digits ++ List.replicate zeros '0') ++ '.' :: ['0'] := by
    rw [positional, if_pos (Int.natCast_nonneg places), Int.toNat_natCast]
    dsimp only
    rw [if_pos hshort, List.take_of_length_le hshort, hzeros, Nat.add_sub_cancel_left]
  refine ⟨_, _, hlayout, .inr (IsPositive.append h (all_isDigit_replicate _)), hfraction, ?_⟩
  rw [scale_natCast, hzeros, List.append_assoc, ← List.replicate_succ', Nat.ofDigitChars_append,
    Nat.ofDigitChars_replicate_zero, List.length_singleton, pow_add (10 : ℚ)]
  push_cast
  field_simp
  ring

/-- Otherwise the point divides the digits. -/
theorem isDecimalOf_positional_of_lt_length {digits : List Char} {places : ℕ}
    (h : IsPositive digits) (hlong : places + 1 < digits.length) :
    IsDecimalOf (Nat.ofDigitChars 10 digits 0 * 10 ^ ((places : ℤ) + 1 - digits.length))
      (positional digits places) := by
  obtain ⟨behind, hbehind⟩ := Nat.exists_eq_add_of_le hlong.le
  have hzeros : places + 1 - digits.length = 0 := by omega
  have hne : digits.take (places + 1) ≠ [] := by
    rw [← List.length_pos_iff, List.length_take]
    omega
  have hne' : digits.drop (places + 1) ≠ [] := by
    rw [← List.length_pos_iff, List.length_drop]
    omega
  have hwhole : IsPositive (digits.take (places + 1)) := by
    refine .of_append (digits.drop (places + 1)) ?_ hne
    rwa [List.take_append_drop]
  have hfraction : IsFraction (digits.drop (places + 1)) :=
    ⟨hne', fun c hc => IsPositive.all_isDigit h c (List.mem_of_mem_drop hc)⟩
  have hlayout : positional digits places =
      digits.take (places + 1) ++ '.' :: digits.drop (places + 1) := by
    rw [positional, if_pos (Int.natCast_nonneg places), Int.toNat_natCast]
    dsimp only
    rw [if_neg (Nat.not_le.2 hlong), hzeros, List.replicate_zero, List.append_nil]
  refine ⟨_, _, hlayout, .inr hwhole, hfraction, ?_⟩
  rw [scale_natCast, List.take_append_drop, List.length_drop, hbehind, Nat.add_sub_cancel_left,
    pow_add (10 : ℚ) (places + 1)]
  push_cast
  field_simp

/-- All digits of a number below one stand behind the point, after zeros. -/
theorem isDecimalOf_positional_of_neg {digits : List Char} {leading : ℤ} (h : IsPositive digits)
    (hneg : leading < 0) :
    IsDecimalOf (Nat.ofDigitChars 10 digits 0 * 10 ^ (leading + 1 - digits.length))
      (positional digits leading) := by
  obtain ⟨zeros, rfl⟩ : ∃ zeros : ℕ, leading = -(zeros + 1 : ℕ) := ⟨(-leading).toNat - 1, by omega⟩
  have hzeros : (- -((zeros + 1 : ℕ) : ℤ)).toNat - 1 = zeros := by omega
  have hscale : (10 : ℚ) ^ (-((zeros + 1 : ℕ) : ℤ) + 1 - digits.length) =
      1 / 10 ^ (zeros + digits.length) := by
    rw [one_div, ← zpow_natCast, ← zpow_neg]
    congr 1
    push_cast
    ring
  have hfraction : IsFraction (List.replicate zeros '0' ++ digits) := by
    refine ⟨fun hnil => IsPositive.ne_nil h (List.append_eq_nil_iff.1 hnil).2, fun c hc => ?_⟩
    rcases List.mem_append.1 hc with hc | hc
    · exact all_isDigit_replicate zeros c hc
    · exact IsPositive.all_isDigit h c hc
  have hlayout : positional digits (-((zeros + 1 : ℕ) : ℤ)) =
      ['0'] ++ '.' :: (List.replicate zeros '0' ++ digits) := by
    rw [positional, if_neg hneg.not_ge, hzeros]
    rfl
  refine ⟨['0'], _, hlayout, .inl rfl, hfraction, ?_⟩
  change (Nat.ofDigitChars 10 (List.replicate (zeros + 1) '0' ++ digits) 0 / _ : ℚ) = _
  rw [hscale, Nat.ofDigitChars_append, Nat.ofDigitChars_replicate_zero, mul_zero, ← mul_one_div,
    List.length_append, List.length_replicate]
  norm_cast

/-- Digits around a decimal point are a whole number and a fraction with the same value. -/
theorem isDecimalOf_positional {digits : List Char} (leading : ℤ) (h : IsPositive digits) :
    IsDecimalOf (Nat.ofDigitChars 10 digits 0 * 10 ^ (leading + 1 - digits.length))
      (positional digits leading) := by
  rcases lt_or_ge leading 0 with hneg | hnonneg
  · exact isDecimalOf_positional_of_neg h hneg
  · obtain ⟨places, rfl⟩ := Int.eq_ofNat_of_zero_le hnonneg
    rcases lt_or_ge (places + 1) digits.length with hlong | hshort
    · exact isDecimalOf_positional_of_lt_length h hlong
    · exact isDecimalOf_positional_of_length_le h hshort

/-! ## Reading -/

/-- A whole number and a fraction are read as a fraction with a power of ten. -/
theorem readFloat_decimal {whole fraction : List Char} (hw : IsWhole whole)
    (hf : IsFraction fraction) :
    readFloat (whole ++ '.' :: fraction) =
      (some (nearest (Nat.ofDigitChars 10 (whole ++ fraction) 0) (-fraction.length))).filter
        Float.isFinite := by
  have hwhole := hw.all_isDigit
  have hpoint : Starts (fun c => c.isDigit = false) ('.' :: fraction) := by
    rintro c rest heq
    cases heq
    rfl
  have hend : Starts (fun c => c.isDigit = false) [] := nofun
  obtain ⟨htake, hdrop⟩ := takeWhile_isDigit_append hwhole hpoint
  obtain ⟨htake', hdrop'⟩ := takeWhile_isDigit_append hf.2 hend
  rw [List.append_nil] at htake' hdrop'
  have hne : whole ++ fraction ≠ [] := fun hnil => hf.1 (List.append_eq_nil_iff.1 hnil).2
  have hunsigned : readUnsigned (whole ++ '.' :: fraction) =
      some (nearest (Nat.ofDigitChars 10 (whole ++ fraction) 0) (-fraction.length)) := by
    unfold readUnsigned
    simp only [htake, hdrop, htake', hdrop', if_neg hne, Option.map_some, zero_sub]
  obtain ⟨first, more, hcons, hdigit⟩ := hw.exists_cons
  rw [hcons, List.cons_append] at hunsigned ⊢
  have hsign : ∀ sign rest, sign.isDigit = false →
      first :: (more ++ '.' :: fraction) ≠ sign :: rest := by
    rintro sign rest hsign heq
    cases heq
    rw [hdigit] at hsign
    cases hsign
  rw [readFloat, hunsigned]
  · exact fun rest => hsign '+' rest rfl
  · exact fun rest => hsign '-' rest rfl

end Decimal

end DiceNotation
