import DiceNotation.Proofs.PartialResults

/-!
# Exactness of integer calculations

An operation on numbers of the integer kind gives a number of the integer kind, and the one that is
exact; the value of an evaluated expression is therefore exact whenever there is one. A result that
does not fit is an error and never a wrong number.
-/

namespace DiceNotation

namespace Number

/-- A number is worth the integer that it represents. -/
theorem Represents.exact {x : Number} {n : Int} (h : x.Represents n) : x.exact = n := by
  obtain ⟨z, rfl, rfl⟩ := h.exists_integer
  rfl

/-- The negation of a number represents the opposite integer. -/
theorem Represents.negate {x y : Number} {n : Int} (hx : x.Represents n)
    (h : x.negate = .ok y) : y.Represents (-n) := by
  obtain ⟨z, rfl, rfl⟩ := hx.exists_integer
  exact (settles_ofInt _).of_eq_ok h

/-- The power of a number represents that of its integer. -/
theorem Represents.power {x y r : Number} {n k : Int} (hx : x.Represents n) (hy : y.Represents k)
    (hk : 0 ≤ k) (h : x.power y = .ok r) : r.Represents (n ^ k.toNat) :=
  (settles_ofInt _).of_eq_ok ((hx.power_eq hy hk).symm.trans h)

end Number

/-- The result of an operation on integers is exact, if there is one. -/
theorem Operation.represents_of_combine {operation : Operation} {numbers : List Number}
    {values : List Int} (hnumbers : List.Forall₂ Number.Represents numbers values)
    (hpower : operation = .power → ∃ base exponent, values = [base, exponent] ∧ 0 ≤ exponent)
    {result : Number} (h : operation.combine numbers = .ok result) :
    result.Represents (operation.exact values) :=
  (settles_combine hnumbers hpower).of_eq_ok h

namespace Evaluated

/-- An integral expression is whole: an exponent that has a value has its exact one. -/
theorem Integral.whole {tree : Evaluated} (htree : tree.Integral) : tree.Whole := by
  induction htree with
  | number z => exact .number z
  | dice hsize => exact .dice hsize
  | check hsize => exact .check hsize
  | sum hterms ih => exact .sum ih
  | product hfactors ih => exact .product ih
  | power hbase hexponent hnatural ihbase ihexponent =>
    refine .power ihbase ihexponent fun z hz => ?_
    obtain ⟨x, hx, hexact⟩ := ihexponent.settled.of_eq_ok hz
    cases hx
    rw [hexact]
    exact hnatural
  | commented hbody ih => exact .commented ih

/-- An integral expression that has a value has its exact value, as a single integer. -/
theorem Integral.represents_of_value {tree : Evaluated} (htree : tree.Integral) {value : Value}
    (h : tree.value = .ok value) : ∃ x : Number, value = .number x ∧ x.Represents tree.exact :=
  htree.whole.settled.of_eq_ok h

end Evaluated

end DiceNotation
