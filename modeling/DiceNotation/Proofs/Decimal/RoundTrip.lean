import DiceNotation.Proofs.Decimal.Positional

/-!
# Decimal numbers read back

A finite decimal number that is written without an exponent is a minus sign, if it has one, and
digits around a point. These digits are read as its magnitude, and negating it restores the sign.
-/

namespace DiceNotation.Decimal

open Float.Model Grammar

/-! ## Signs -/

/-- The magnitude of a number is unpacked from its encoding. -/
theorem unpack_abs {x : Float} {m : ℕ} {e : ℤ} (h : magnitude x = .finite m e) :
    x.abs.toModel.unpack = x.toModel.unpack.abs := by
  change UnpackedFloat.unpack .binary64
    (UnpackedFloat.pack .binary64 x.toModel.unpack.abs) = x.toModel.unpack.abs
  rcases (unpack_of_magnitude h).1 with ⟨-, hzero⟩ | ⟨hc, hfinite⟩
  · rw [hzero]
    exact unpack_pack_zero .positive
  · rw [hfinite]
    exact hc.unpack_pack .positive

theorem isFinite_abs {x : Float} {m : ℕ} {e : ℤ} (h : magnitude x = .finite m e) :
    x.abs.isFinite = true := by
  change x.abs.toModel.unpack.isFinite = true
  rw [unpack_abs h]
  rcases (unpack_of_magnitude h).1 with ⟨-, hzero⟩ | ⟨hc, hfinite⟩
  · rw [hzero]
    rfl
  · rw [hfinite]
    rfl

/-- A number is negated by its sign alone, so it stays finite. -/
theorem isFinite_neg {x : Float} {m : ℕ} {e : ℤ} (h : magnitude x = .finite m e) :
    (-x).isFinite = true := by
  change (UnpackedFloat.unpack .binary64
    (UnpackedFloat.pack .binary64 x.toModel.unpack.neg)).isFinite = true
  rcases (unpack_of_magnitude h).1 with ⟨-, hzero⟩ | ⟨hc, hfinite⟩
  · rw [hzero, UnpackedFloat.neg, unpack_pack_zero]
    rfl
  · rw [hfinite, UnpackedFloat.neg, hc.unpack_pack]
    rfl

/-- A number is its magnitude, negated if it has a sign. -/
theorem unpack_eq_signed {x : Float} {m : ℕ} {e : ℤ} (h : magnitude x = .finite m e) :
    x.toModel.unpack = if isSigned x then x.toModel.unpack.abs.neg else x.toModel.unpack.abs := by
  rcases (unpack_of_magnitude h).1 with ⟨-, hzero⟩ | ⟨hc, hfinite⟩
  · rw [hzero, signOf]
    cases isSigned x <;> rfl
  · rw [hfinite, signOf]
    cases isSigned x <;> rfl

theorem abs_eq_self {x : Float} {m : ℕ} {e : ℤ} (h : magnitude x = .finite m e)
    (hs : isSigned x = false) : x.abs = x := by
  have hsigned := unpack_eq_signed h
  rw [hs, if_neg Bool.false_ne_true] at hsigned
  have hpack := (unpack_of_magnitude h).2
  rw [hsigned] at hpack
  exact hpack

theorem neg_abs {x : Float} {m : ℕ} {e : ℤ} (h : magnitude x = .finite m e)
    (hs : isSigned x = true) : -x.abs = x := by
  have hsigned := unpack_eq_signed h
  rw [hs, if_pos rfl] at hsigned
  have hpack := (unpack_of_magnitude h).2
  rw [hsigned, ← unpack_abs h] at hpack
  exact hpack

/-! ## Reading -/

/-- The cell of a floating-point number other than zero holds positive numbers only. -/
theorem InCell.pos {m : ℕ} {e : ℤ} {q : ℚ} (hm : 0 < m) (h : InCell m e q) : 0 < q := by
  have hone : (1 : ℚ) ≤ m := by exact_mod_cast hm
  refine lt_of_lt_of_le ?_ h.low
  refine mul_pos ?_ (by positivity)
  split <;> linarith

/-- What is written without an exponent for a number other than zero is a whole number and a
fraction in its cell. -/
theorem exists_inCell_of_writeMagnitude {m : ℕ} {e : ℤ} (hc : Canonical m e)
    (hplain : 'e' ∉ Layout.plain.writeMagnitude (.finite m e)) :
    ∃ whole fraction, Layout.plain.writeMagnitude (.finite m e) = whole ++ '.' :: fraction ∧
      IsWhole whole ∧ IsFraction fraction ∧
      InCell m e (Nat.ofDigitChars 10 (whole ++ fraction) 0 / (10 ^ fraction.length : ℕ)) := by
  have hcell := shortest_inCell e hc.pos hc.fits
  have hdigits : 0 < (shortest m e).digits := by
    refine Nat.pos_of_ne_zero fun hzero => ?_
    have hpos := hcell.pos hc.pos
    rw [hzero, Nat.cast_zero, zero_mul] at hpos
    exact lt_irrefl _ hpos
  obtain ⟨digits, leading, hsignificant, hpositive, hvalue⟩ := exists_significant hdigits
  rw [← hvalue] at hcell
  have hwrite : Layout.plain.writeMagnitude (.finite m e) =
      if Layout.plain.positionalFrom ≤ leading ∧ leading < Layout.plain.exponentialFrom then
        positional digits leading
      else exponential Layout.plain.exponentWidth digits leading := by
    rw [Layout.writeMagnitude, if_neg hc.pos.ne', hsignificant]
  rw [hwrite] at hplain ⊢
  split at hplain
  · next hposition =>
    rw [if_pos hposition]
    obtain ⟨whole, fraction, htext, hwhole, hfraction, hvalue⟩ :=
      isDecimalOf_positional leading hpositive
    rw [← hvalue] at hcell
    exact ⟨whole, fraction, htext, hwhole, hfraction, hcell⟩
  · refine absurd ?_ hplain
    unfold exponential
    exact List.mem_append_right _ List.mem_cons_self

/-- A whole number and a fraction in the cell of a number are read as this number. -/
theorem readFloat_of_inCell {m : ℕ} {e : ℤ} (hc : Canonical m e) {x : Float}
    (hx : x = .ofModel (Float.Model.pack (.finite .positive m e hc.pos)))
    (hfinite : x.isFinite = true) {whole fraction : List Char} (hwhole : IsWhole whole)
    (hfraction : IsFraction fraction)
    (hcell : InCell m e
      (Nat.ofDigitChars 10 (whole ++ fraction) 0 / (10 ^ fraction.length : ℕ))) :
    readFloat (whole ++ '.' :: fraction) = some x := by
  have hnumerator : 0 < Nat.ofDigitChars 10 (whole ++ fraction) 0 := by
    refine Nat.pos_of_ne_zero fun hzero => ?_
    have hpos := hcell.pos hc.pos
    rw [hzero, Nat.cast_zero, zero_div] at hpos
    exact lt_irrefl _ hpos
  rw [readFloat_decimal hwhole hfraction,
    nearest_eq hc hnumerator (List.length_pos_iff.2 hfraction.1) hcell, ← hx,
    Option.filter_some, if_pos hfinite]

/-- What is written without an exponent is a whole number and a fraction, which are read as the
magnitude. -/
theorem readFloat_writeMagnitude {x : Float} {m : ℕ} {e : ℤ} (h : magnitude x = .finite m e)
    (hplain : 'e' ∉ Layout.plain.writeMagnitude (.finite m e)) :
    ∃ whole fraction, Layout.plain.writeMagnitude (.finite m e) = whole ++ '.' :: fraction ∧
      IsWhole whole ∧ IsFraction fraction ∧ readFloat (whole ++ '.' :: fraction) = some x.abs := by
  rcases (unpack_of_magnitude h).1 with ⟨rfl, hzero⟩ | ⟨hc, hfinite⟩
  · have habs : x.abs = .ofModel (Float.Model.pack (.zero .positive)) := by
      change Float.ofModel (Float.Model.pack x.toModel.unpack.abs) = _
      rw [hzero]
      rfl
    have hread : readFloat "0.0".toList =
        some (.ofModel (Float.Model.pack (.zero .positive))) := by
      decide +kernel
    refine ⟨['0'], ['0'], rfl, .inl rfl, ⟨List.cons_ne_nil _ _, all_isDigit_replicate 1⟩, ?_⟩
    rw [habs]
    exact hread
  · have habs : x.abs = .ofModel (Float.Model.pack (.finite .positive m e hc.pos)) := by
      change Float.ofModel (Float.Model.pack x.toModel.unpack.abs) = _
      rw [hfinite]
      rfl
    obtain ⟨whole, fraction, htext, hwhole, hfraction, hcell⟩ :=
      exists_inCell_of_writeMagnitude hc hplain
    exact ⟨whole, fraction, htext, hwhole, hfraction,
      readFloat_of_inCell hc habs (isFinite_abs h) hwhole hfraction hcell⟩

end DiceNotation.Decimal
