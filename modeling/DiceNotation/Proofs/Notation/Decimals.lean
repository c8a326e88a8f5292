import DiceNotation.Proofs.Decimal.RoundTrip
import DiceNotation.Proofs.Folding
import DiceNotation.Proofs.Notation.Leaves

/-!
# The notation of decimal numbers

A finite decimal number that is written without an exponent reads back, with its sign. It is not
changed either by the identity of a sum or product that it is combined with.
-/

namespace DiceNotation

open Decimal Grammar

/-- A finite number has a finite magnitude. -/
theorem exists_magnitude {x : Float} (h : x.isFinite = true) :
    ∃ m e, magnitude x = .finite m e := by
  by_cases hspecial :
      (Float.Model.UnpackedFloat.unpackExponent (bitsOf x)).toNat = 2 ^ 11 - 1
  · have hones : Float.Model.UnpackedFloat.unpackExponent (bitsOf x) = -1#_ :=
      BitVec.eq_of_toNat_eq hspecial
    have hfalse : x.isFinite = false := by
      change (Float.Model.UnpackedFloat.unpack .binary64 (bitsOf x)).isFinite = false
      rw [Float.Model.UnpackedFloat.unpack]
      dsimp only
      rw [if_pos hones]
      split <;> rfl
    rw [hfalse] at h
    cases h
  · rw [magnitude_eq, if_neg hspecial]
    split
    · exact ⟨_, _, rfl⟩
    · exact ⟨_, _, rfl⟩

/-- A decimal number that is written without an exponent reads back. -/
theorem readsAs_decimal {x : Float} (h : x.isFinite = true)
    (hplain : 'e' ∉ (Number.decimal x).text.toList) :
    ReadsAs .negation (Number.decimal x).text.toList (.ok (.number (.decimal x))) := by
  obtain ⟨m, e, hmagnitude⟩ := exists_magnitude h
  have htext : (Number.decimal x).text.toList =
      if isSigned x then '-' :: Layout.plain.writeMagnitude (.finite m e)
      else Layout.plain.writeMagnitude (.finite m e) := by
    rw [Number.text, Layout.write, String.toList_ofList, hmagnitude]
    simp
  have hplain' : 'e' ∉ Layout.plain.writeMagnitude (.finite m e) := by
    rw [htext] at hplain
    split at hplain
    · exact fun hmem => hplain (List.mem_cons_of_mem _ hmem)
    · exact hplain
  obtain ⟨whole, fraction, hwrite, hwhole, hfraction, hread⟩ :=
    readFloat_writeMagnitude hmagnitude hplain'
  have hdecimal := Derives.decimal hwhole hfraction
  have hbuild : (Node.decimal (String.ofList (whole ++ '.' :: fraction))).build =
      .ok (.number (.decimal x.abs)) := by
    rw [Node.build, String.toList_ofList, hread]
  rw [hwrite] at htext
  rw [htext]
  cases hsign : isSigned x with
  | false =>
    rw [abs_eq_self hmagnitude hsign] at hbuild
    exact ⟨_, _, .single _, .plain hdecimal, hbuild⟩
  | true =>
    refine ⟨['-'] :: [whole ++ '.' :: fraction], _, ?_, .negated hdecimal, ?_⟩
    · exact Spaced.append (.single ['-']) (.single _)
    · have hnegate : Expression.negate (.number (.decimal x.abs)) = .ok (.number (.decimal x)) :=
        negate_number (by rw [Number.negate, neg_abs hmagnitude hsign])
      rw [Node.build, hbuild]
      exact hnegate

theorem ofFloat_of_isFinite {x : Float} (h : x.isFinite = true) :
    Number.ofFloat x = .ok (.decimal x) := by
  have hunpack : x.toModel.unpack.isFinite = true := h
  have hnan : x.isNaN = false := by
    change x.toModel.unpack.isNaN = false
    cases hcases : x.toModel.unpack <;> rw [hcases] at hunpack <;> first | rfl | cases hunpack
  have hinf : x.isInf = false := by
    change x.toModel.unpack.isInf = false
    cases hcases : x.toModel.unpack <;> rw [hcases] at hunpack <;> first | rfl | cases hunpack
  rw [Number.ofFloat, hnan, hinf]
  rfl

theorem unpack_ofInt_zero : (Float.ofInt 0).toModel.unpack = .zero .positive := by
  rfl

theorem unpack_ofInt_one :
    (Float.ofInt 1).toModel.unpack = .finite .positive (2 ^ 52) (-52) (by decide) := by
  rfl

/-- Zero added to a number other than zero is this number. -/
theorem zero_add_decimal {x : Float} (h : x.isFinite = true) (hx : (x == Float.ofInt 0) = false) :
    Float.ofInt 0 + x = x := by
  obtain ⟨m, e, hmagnitude⟩ := exists_magnitude h
  obtain ⟨hunpack, hpack⟩ := unpack_of_magnitude hmagnitude
  rcases hunpack with ⟨-, hzero⟩ | ⟨hc, hfinite⟩
  · have hequal : (x == Float.ofInt 0) = true := by
      change x.toModel.unpack.beq (Float.ofInt 0).toModel.unpack = true
      rw [hzero, unpack_ofInt_zero]
      rfl
    rw [hequal] at hx
    cases hx
  · change Float.ofModel (Float.Model.pack (Float.Model.UnpackedFloat.add .binary64
      (Float.ofInt 0).toModel.unpack x.toModel.unpack)) = x
    rw [hfinite] at hpack ⊢
    rw [unpack_ofInt_zero]
    exact hpack

/-- One multiplied by a number is this number. -/
theorem one_mul_decimal {x : Float} (h : x.isFinite = true) : Float.ofInt 1 * x = x := by
  obtain ⟨m, e, hmagnitude⟩ := exists_magnitude h
  obtain ⟨hunpack, hpack⟩ := unpack_of_magnitude hmagnitude
  change Float.ofModel (Float.Model.pack (Float.Model.UnpackedFloat.mul .binary64
    (Float.ofInt 1).toModel.unpack x.toModel.unpack)) = x
  rw [unpack_ofInt_one]
  rcases hunpack with ⟨-, hzero⟩ | ⟨hc, hfinite⟩
  · rw [hzero] at hpack ⊢
    cases hsign : signOf x <;> rw [hsign] at hpack <;> exact hpack
  · have hproduct : Float.Model.UnpackedFloat.mul .binary64
        (.finite .positive (2 ^ 52) (-52) (by decide)) (.finite (signOf x) m e hc.pos) =
          .finite (signOf x) m e hc.pos := by
      have hsign : Float.Model.UnpackedFloat.Sign.positive * signOf x = signOf x := by
        cases signOf x <;> rfl
      rw [Float.Model.UnpackedFloat.mul, hsign, mul_comm]
      exact roundWithAccuracy_exact 52 hc (signOf x) (by push_cast; ring)
    rw [hfinite] at hpack ⊢
    rw [hproduct]
    exact hpack

/-- A finite decimal number is not changed by the identity of a sum or product. -/
theorem combine_identity_decimal (chain : Chain) {x : Float} (h : x.isFinite = true)
    (hx : (Number.decimal x == chain.identity) = false) :
    chain.combine chain.identity (.decimal x) = .ok (.decimal x) := by
  cases chain with
  | sum =>
    have hsum : Float.ofInt 0 + x = x := zero_add_decimal h hx
    change Number.ofFloat (Float.ofInt 0 + x) = _
    rw [hsum, ofFloat_of_isFinite h]
  | product =>
    change Number.ofFloat (Float.ofInt 1 * x) = _
    rw [one_mul_decimal h, ofFloat_of_isFinite h]

end DiceNotation
