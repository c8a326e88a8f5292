import DiceNotation.Decimal.Layout
import DiceNotation.Proofs.Decimal.Operations

/-!
# The encoding of floating-point numbers

A finite floating-point number other than zero is its sign, mantissa and exponent, and is found
again from them. The magnitude that is read from the fields of an encoding is the same mantissa and
exponent.
-/

namespace DiceNotation.Decimal

open Float.Model
open Float.Model.UnpackedFloat (Sign packComponents unpackSign unpackExponent unpackMantissa)

/-! ## The fields of an encoding -/

/-- Bits that are put together are worth the high ones, shifted, and the low ones. -/
theorem toNat_append {n k : ℕ} (high : BitVec n) (low : BitVec k) :
    (high ++ low).toNat = high.toNat * 2 ^ k + low.toNat := by
  rw [BitVec.toNat_append, ← Nat.shiftLeft_add_eq_or_of_lt low.isLt, Nat.shiftLeft_eq]

/-- A packed number has the sign in its highest bit, then the exponent, then the mantissa. -/
theorem toNat_packComponents (s : Sign) (exponent : BitVec 11) (mantissa : BitVec 52) :
    (packComponents .binary64 s exponent mantissa).toNat =
      s.toBitVec.toNat * 2 ^ 63 + exponent.toNat * 2 ^ 52 + mantissa.toNat := by
  rw [packComponents, toNat_append, toNat_append]
  ring

/-- The mantissa is what the lowest 52 bits are worth. -/
theorem toNat_unpackMantissa (bits : BitVec Format.binary64.numBits) :
    (unpackMantissa bits).toNat = bits.toNat % 2 ^ 52 := by
  simp [unpackMantissa]

/-- The exponent is what the 11 bits above them are worth. -/
theorem toNat_unpackExponent (bits : BitVec Format.binary64.numBits) :
    (unpackExponent bits).toNat = bits.toNat / 2 ^ 52 % 2 ^ 11 := by
  simp [unpackExponent, Nat.shiftRight_eq_div_pow]

/-- The sign is the highest bit. -/
theorem toNat_unpackSign (bits : BitVec Format.binary64.numBits) :
    (unpackSign bits).toNat = bits.toNat / 2 ^ 63 := by
  have hlt : bits.toNat < 2 ^ 64 := bits.isLt
  simp [unpackSign, Nat.shiftRight_eq_div_pow]
  omega

/-- A bit is the bit of the sign that it stands for. -/
theorem toBitVec_ofBitVec (bit : BitVec 1) : (Sign.ofBitVec bit).toBitVec = bit := by
  revert bit
  decide

/-- A sign is the sign that its bit stands for. -/
theorem ofBitVec_toBitVec (s : Sign) : Sign.ofBitVec s.toBitVec = s := by
  cases s <;> rfl

/-- The sign that is packed is the one that is unpacked. -/
theorem unpackSign_packComponents (s : Sign) (exponent : BitVec 11) (mantissa : BitVec 52) :
    unpackSign (packComponents .binary64 s exponent mantissa) = s.toBitVec := by
  have hexponent : exponent.toNat < 2 ^ 11 := exponent.isLt
  have hmantissa : mantissa.toNat < 2 ^ 52 := mantissa.isLt
  refine BitVec.eq_of_toNat_eq ?_
  rw [toNat_unpackSign, toNat_packComponents]
  omega

/-- An encoding is made of its fields. -/
theorem packComponents_unpack (bits : BitVec Format.binary64.numBits) :
    packComponents .binary64 (Sign.ofBitVec (unpackSign bits)) (unpackExponent bits)
      (unpackMantissa bits) = bits := by
  have hlt : bits.toNat < 2 ^ 64 := bits.isLt
  refine BitVec.eq_of_toNat_eq ?_
  rw [toNat_packComponents, toBitVec_ofBitVec, toNat_unpackSign, toNat_unpackExponent,
    toNat_unpackMantissa]
  omega

/-! ## Finite numbers -/

/-- The field of the exponent of a floating-point number. -/
def exponentField (m : ℕ) (e : ℤ) : ℕ := if m < 2 ^ 52 then 0 else (e + 1075).toNat

theorem exponentBias_eq : Format.binary64.exponentBias = 1023 := rfl

theorem mantissaBits_eq : Format.binary64.mantissaBits = 53 := rfl

/-- A canonical number is packed into its sign and these fields. -/
theorem Canonical.pack_eq {m : ℕ} {e : ℤ} (hc : Canonical m e) (s : Sign) :
    UnpackedFloat.pack .binary64 (.finite s m e hc.pos) =
      packComponents .binary64 s (BitVec.ofNat 11 (exponentField m e)) (BitVec.ofNat 52 m) := by
  obtain ⟨hpos, hfits, hfull, hleast, hgreatest⟩ := hc
  have hbiased : (e + (1023 : ℕ) + (52 : ℕ)).toNat = (e + 1075).toNat := by omega
  have hsmall : ¬ 2 ^ 11 ≤ (e + 1075).toNat + 1 := by omega
  rw [UnpackedFloat.pack, exponentBias_eq, mantissaBits_eq, exponentField]
  dsimp only
  rw [hbiased, if_neg hsmall]
  by_cases hshort : m < 2 ^ 52
  · have hlog : ¬ m.log2 + 1 = 53 := by
      have hlt := (Nat.log2_lt hpos.ne').2 hshort
      omega
    rw [if_neg hlog, if_pos hshort]
  · have hlog : m.log2 + 1 = 53 := by
      have hlt := (Nat.log2_lt hpos.ne').2 hfits
      have hle := (Nat.le_log2 hpos.ne').2 (Nat.le_of_not_lt hshort)
      omega
    rw [if_pos hlog, if_neg hshort]

/-- A canonical number is unpacked from an encoding with its fields. -/
theorem Canonical.unpack_eq {m : ℕ} {e : ℤ} (hc : Canonical m e)
    {bits : BitVec Format.binary64.numBits}
    (hexponent : (unpackExponent bits).toNat = exponentField m e)
    (hmantissa : (unpackMantissa bits).toNat = m % 2 ^ 52) :
    UnpackedFloat.unpack .binary64 bits =
      .finite (Sign.ofBitVec (unpackSign bits)) m e hc.pos := by
  obtain ⟨hpos, hfits, hfull, hleast, hgreatest⟩ := hc
  rw [exponentField] at hexponent
  have hspecial : unpackExponent bits ≠ -1#_ := by
    intro heq
    have hfield : (unpackExponent bits).toNat = 2047 := by rw [heq]; rfl
    split at hexponent <;> omega
  rw [UnpackedFloat.unpack, exponentBias_eq]
  dsimp only
  rw [if_neg hspecial]
  by_cases hshort : m < 2 ^ 52
  · rw [if_pos hshort] at hexponent
    have hzero : unpackExponent bits = 0#_ := BitVec.eq_of_toNat_eq hexponent
    have hne : unpackMantissa bits ≠ 0#_ := by
      intro heq
      rw [heq, BitVec.toNat_zero, Nat.mod_eq_of_lt hshort] at hmantissa
      omega
    rw [if_pos hzero, dif_neg hne]
    congr 1
    · rw [hmantissa, Nat.mod_eq_of_lt hshort]
    · omega
  · rw [if_neg hshort] at hexponent
    have hne : unpackExponent bits ≠ 0#_ := by
      intro heq
      rw [heq, BitVec.toNat_zero] at hexponent
      omega
    rw [if_neg hne]
    congr 1
    · rw [toNat_append, hmantissa]
      change 1 * 2 ^ 52 + _ = _
      omega
    · omega

/-- Unpacking undoes packing. -/
theorem Canonical.unpack_pack {m : ℕ} {e : ℤ} (hc : Canonical m e) (s : Sign) :
    UnpackedFloat.unpack .binary64 (UnpackedFloat.pack .binary64 (.finite s m e hc.pos)) =
      .finite s m e hc.pos := by
  have hfield : exponentField m e < 2 ^ 11 := by
    obtain ⟨hpos, hfits, hfull, hleast, hgreatest⟩ := hc
    rw [exponentField]
    split <;> omega
  rw [hc.pack_eq, hc.unpack_eq, unpackSign_packComponents, ofBitVec_toBitVec]
  · rw [UnpackedFloat.unpackExponent_packComponents, BitVec.toNat_ofNat, Nat.mod_eq_of_lt hfield]
  · rw [UnpackedFloat.unpackMantissa_packComponents, BitVec.toNat_ofNat]

/-- An encoding without a magnitude is unpacked as a zero. -/
theorem unpack_zero {bits : BitVec Format.binary64.numBits} (hexponent : unpackExponent bits = 0#_)
    (hmantissa : unpackMantissa bits = 0#_) :
    UnpackedFloat.unpack .binary64 bits = .zero (Sign.ofBitVec (unpackSign bits)) := by
  have hspecial : unpackExponent bits ≠ -1#_ := by
    rw [hexponent]
    decide
  rw [UnpackedFloat.unpack]
  dsimp only
  rw [if_neg hspecial, if_pos hexponent, dif_pos hmantissa]

/-- Unpacking undoes packing, for zeros. -/
theorem unpack_pack_zero (s : Sign) :
    UnpackedFloat.unpack .binary64 (UnpackedFloat.pack .binary64 (.zero s)) = .zero s := by
  rw [UnpackedFloat.pack, UnpackedFloat.packedZero, unpack_zero, unpackSign_packComponents,
    ofBitVec_toBitVec]
  · exact UnpackedFloat.unpackExponent_packComponents
  · exact UnpackedFloat.unpackMantissa_packComponents

/-! ## Magnitudes -/

/-- The bits of a floating-point number. -/
def bitsOf (x : Float) : BitVec Format.binary64.numBits := x.toModel.toBits.toBitVec

/-- The sign of a floating-point number. -/
def signOf (x : Float) : Sign := if isSigned x then .negative else .positive

/-- The sign of a decimal number is that of its highest bit. -/
theorem ofBitVec_unpackSign (x : Float) :
    Sign.ofBitVec (unpackSign (bitsOf x)) = signOf x := by
  have hlt : x.toBits.toNat < 2 ^ 64 := x.toBits.toBitVec.isLt
  have hbit : (unpackSign (bitsOf x)).toNat = x.toBits.toNat / 2 ^ 63 := toNat_unpackSign _
  have hsign : isSigned x = decide (2 ^ 63 ≤ x.toBits.toNat) := rfl
  rw [Sign.ofBitVec, signOf, hsign]
  by_cases hsigned : 2 ^ 63 ≤ x.toBits.toNat
  · have hne : unpackSign (bitsOf x) ≠ 0#1 := by
      intro heq
      rw [heq, BitVec.toNat_zero] at hbit
      omega
    rw [if_neg hne, if_pos (decide_eq_true hsigned)]
  · have heq : unpackSign (bitsOf x) = 0#1 := by
      refine BitVec.eq_of_toNat_eq ?_
      rw [hbit, BitVec.toNat_zero]
      omega
    rw [if_pos heq, if_neg (by simpa using hsigned)]

/-- The magnitude of a floating-point number is read from the fields of its encoding. -/
theorem magnitude_eq (x : Float) :
    magnitude x =
      if (unpackExponent (bitsOf x)).toNat = 2 ^ 11 - 1 then
        if (unpackMantissa (bitsOf x)).toNat = 0 then .infinite else .notANumber
      else if (unpackExponent (bitsOf x)).toNat = 0 then
        .finite (unpackMantissa (bitsOf x)).toNat (-1074)
      else
        .finite (2 ^ 52 + (unpackMantissa (bitsOf x)).toNat)
          ((unpackExponent (bitsOf x)).toNat - 1075) := by
  rw [toNat_unpackExponent, toNat_unpackMantissa]
  rfl

/-- A finite magnitude is zero, or a canonical mantissa and exponent with these fields. -/
theorem fields_of_magnitude {x : Float} {m : ℕ} {e : ℤ} (h : magnitude x = .finite m e) :
    (m = 0 ∧ unpackExponent (bitsOf x) = 0#_ ∧ unpackMantissa (bitsOf x) = 0#_) ∨
      (Canonical m e ∧ (unpackExponent (bitsOf x)).toNat = exponentField m e ∧
        (unpackMantissa (bitsOf x)).toNat = m % 2 ^ 52) := by
  have hfield : (unpackExponent (bitsOf x)).toNat < 2 ^ 11 := BitVec.isLt _
  have hfraction : (unpackMantissa (bitsOf x)).toNat < 2 ^ 52 := BitVec.isLt _
  rw [magnitude_eq] at h
  split at h
  · split at h <;> cases h
  · split at h
    · next hzero =>
      cases h
      by_cases hm : (unpackMantissa (bitsOf x)).toNat = 0
      · exact .inl ⟨hm, BitVec.eq_of_toNat_eq hzero, BitVec.eq_of_toNat_eq hm⟩
      · refine .inr ⟨⟨by omega, by omega, .inr rfl, by omega, by omega⟩, ?_, ?_⟩
        · rw [hzero, exponentField, if_pos hfraction]
        · rw [Nat.mod_eq_of_lt hfraction]
    · cases h
      refine .inr ⟨⟨by omega, by omega, .inl (by omega), by omega, by omega⟩, ?_, ?_⟩
      · rw [exponentField, if_neg (by omega)]
        omega
      · omega

/-- A floating-point number is found again from its bits. -/
theorem ofModel_pack_eq {x : Float} {number : UnpackedFloat}
    (h : UnpackedFloat.pack .binary64 number = bitsOf x) :
    Float.ofModel (Float.Model.pack number) = x := by
  obtain ⟨⟨bits, hvalid⟩⟩ := x
  rw [Float.ofModel.injEq, Float.Model.pack, Float.Model.mk.injEq]
  exact UInt64.eq_of_toBitVec_eq h

/-- A floating-point number is unpacked into its sign and magnitude, and packed again. -/
theorem unpack_of_magnitude {x : Float} {m : ℕ} {e : ℤ} (h : magnitude x = .finite m e) :
    ((m = 0 ∧ x.toModel.unpack = .zero (signOf x)) ∨
      ∃ hc : Canonical m e, x.toModel.unpack = .finite (signOf x) m e hc.pos) ∧
    Float.ofModel (Float.Model.pack x.toModel.unpack) = x := by
  have hunpack : x.toModel.unpack = UnpackedFloat.unpack .binary64 (bitsOf x) := rfl
  have hbits := packComponents_unpack (bitsOf x)
  rw [ofBitVec_unpackSign] at hbits
  rcases fields_of_magnitude h with ⟨hm, hexponent, hmantissa⟩ | ⟨hc, hexponent, hmantissa⟩
  · have hzero := unpack_zero hexponent hmantissa
    rw [← hunpack, ofBitVec_unpackSign] at hzero
    rw [hexponent, hmantissa] at hbits
    refine ⟨.inl ⟨hm, hzero⟩, ?_⟩
    rw [hzero]
    exact ofModel_pack_eq hbits
  · have hfinite := hc.unpack_eq hexponent hmantissa
    rw [← hunpack, ofBitVec_unpackSign] at hfinite
    have hexponent' : unpackExponent (bitsOf x) = BitVec.ofNat 11 (exponentField m e) := by
      rw [← hexponent, BitVec.ofNat_toNat, BitVec.setWidth_eq]
    have hmantissa' : unpackMantissa (bitsOf x) = BitVec.ofNat 52 m := by
      refine BitVec.eq_of_toNat_eq ?_
      rw [hmantissa, BitVec.toNat_ofNat]
    rw [hexponent', hmantissa', ← hc.pack_eq] at hbits
    refine ⟨.inr ⟨hc, hfinite⟩, ?_⟩
    rw [hfinite]
    exact ofModel_pack_eq hbits

end DiceNotation.Decimal
