import DiceNotation.Proofs.ExactRuns
import DiceNotation.Proofs.Outcomes

/-!
# The kind of a quotient

A quotient is a decimal number, and so is everything that is calculated with one. What becomes of a
written division depends on its constants all the same. If every divisor is a constant, the
constants of the product are combined into one decimal number, and if this number equals 1, it is
left out because it looks like the identity of integers. Only the other factors are left then, and
their product can be an integer. In every other case, the value of a division is a decimal number.
-/

namespace DiceNotation

open Rolling

namespace Number

theorem isInteger_ofInt {z : Int} {x : Number} (h : ofInt z = .ok x) : x.isInteger = true := by
  rw [ofInt] at h
  split at h
  · cases h
    rfl
  · cases h

theorem isInteger_ofFloat {y : Float} {x : Number} (h : ofFloat y = .ok x) :
    x.isInteger = false := by
  rw [ofFloat] at h
  split at h
  · cases h
  · split at h <;> cases h
    rfl

/-- A product is an integer exactly if both factors are. -/
theorem isInteger_multiply {x y z : Number} (h : x.multiply y = .ok z) :
    z.isInteger = (x.isInteger && y.isInteger) := by
  cases x <;> cases y
  · exact isInteger_ofInt h
  all_goals exact isInteger_ofFloat h

theorem isInteger_divide {x y z : Number} (h : x.divide y = .ok z) : z.isInteger = false := by
  rw [divide] at h
  split at h
  · cases h
  · exact isInteger_ofFloat h

theorem isInteger_inverse {x z : Number} (h : x.power (.integer (-1)) = .ok z) :
    z.isInteger = false := by
  rw [power.eq_def] at h
  split at h
  · cases h
  · cases x <;> exact isInteger_ofFloat h

/-- A product of several numbers is an integer exactly if all of them are. -/
theorem isInteger_foldlM {start z : Number} {numbers : List Number}
    (h : numbers.foldlM multiply start = .ok z) :
    z.isInteger = (start.isInteger && numbers.all isInteger) := by
  induction numbers generalizing start with
  | nil =>
    cases h
    exact (Bool.and_true _).symm
  | cons x numbers ih =>
    rw [List.foldlM_cons] at h
    obtain ⟨next, hnext, h⟩ := bind_eq_ok_iff.mp h
    rw [ih h, isInteger_multiply hnext, List.all_cons, Bool.and_assoc]

theorem isInteger_foldlM_of_mem {start x z : Number} {numbers : List Number} (hmem : x ∈ numbers)
    (hx : x.isInteger = false) (h : numbers.foldlM multiply start = .ok z) :
    z.isInteger = false := by
  rw [isInteger_foldlM h, List.all_eq_false.mpr ⟨x, hmem, Bool.eq_false_iff.mp hx⟩, Bool.and_false]

theorem exists_decimal {x : Number} (h : x.isInteger = false) : ∃ y, x = .decimal y := by
  cases x with
  | integer z => cases h
  | decimal y => exact ⟨y, rfl⟩

end Number

namespace Expression

/-- Whatever its dice show, an expression is worth a decimal number if it is worth anything. -/
def AlwaysDecimal (expression : Expression) : Prop :=
  ∀ value, expression.Worth value → ∃ x : Float, value = .number (.decimal x)

theorem alwaysDecimal_number {x : Number} (h : x.isInteger = false) :
    (Expression.number x).AlwaysDecimal := by
  rintro value ⟨shown, tree, hends, hvalue⟩
  obtain ⟨-, rfl⟩ := ends_pure_iff.mp hends
  obtain ⟨y, rfl⟩ := Number.exists_decimal h
  cases hvalue
  exact ⟨y, rfl⟩

/-- An inverted expression is a power of -1, and worth a decimal number. -/
theorem alwaysDecimal_inverse (body : Expression) :
    (Expression.power body (.number (.integer (-1)))).AlwaysDecimal := by
  rintro value ⟨shown, tree, hends, hvalue⟩
  obtain ⟨base, first, second, -, hrest, -⟩ := ends_bind_iff.mp hends
  obtain ⟨exponent, hexponent, rfl⟩ := ends_bind_pure_iff.mp hrest
  obtain ⟨-, rfl⟩ := ends_pure_iff.mp hexponent
  obtain ⟨numbers, z, hnumbers, hz, rfl⟩ := Evaluated.combine_of_value hvalue
  obtain ⟨x, others, -, hothers, rfl⟩ := List.forall₂_cons_left_iff.mp hnumbers
  obtain ⟨y, none, hy, hnone, rfl⟩ := List.forall₂_cons_left_iff.mp hothers
  cases hy
  cases hnone
  obtain ⟨w, rfl⟩ := Number.exists_decimal (Number.isInteger_inverse hz)
  exact ⟨w, rfl⟩

/-- A factor that is always a decimal number makes the product one. -/
theorem alwaysDecimal_product {factor : Expression} {factors : List Expression}
    (hmem : factor ∈ factors) (h : factor.AlwaysDecimal) :
    (Expression.product factors).AlwaysDecimal := by
  rintro value ⟨shown, tree, hends, hvalue⟩
  obtain ⟨trees, htrees, rfl⟩ := ends_bind_pure_iff.mp hends
  obtain ⟨numbers, z, hnumbers, hz, rfl⟩ := Evaluated.combine_of_value hvalue
  obtain ⟨tree, htree, shown, hfactor⟩ :=
    exists_of_forall₂_of_mem (forall₂_of_ends_evaluateAll htrees) hmem
  obtain ⟨x, hx, hvalue⟩ := exists_of_forall₂_of_mem hnumbers htree
  obtain ⟨y, hy⟩ := h (.number x) ⟨shown, tree, hfactor, hvalue⟩
  cases hy
  obtain ⟨w, rfl⟩ := Number.exists_decimal (Number.isInteger_foldlM_of_mem hx rfl hz)
  exact ⟨w, rfl⟩

/-- An integral expression is worth an integer if it is worth anything. -/
theorem Integral.worth_integer {expression : Expression} (h : expression.Integral) {value : Value}
    (hworth : expression.Worth value) : ∃ z : Int64, value = .number (.integer z) := by
  obtain ⟨shown, tree, hends, hvalue⟩ := hworth
  have htree := (h.exact_evaluate RollError.evaluation).1.of_ends hends
  obtain ⟨x, rfl, hx⟩ := htree.represents_of_value hvalue
  cases x with
  | integer z => exact ⟨z, rfl⟩
  | decimal y => exact hx.elim

end Expression

/-! ## Divisions -/

namespace Node

open Expression

/-- The constants of a product cancel each other out: every divisor is a constant, there are other
factors, and the constants combine to a number that equals 1. -/
structure ConstantsCancel (rest : List (FactorSign × Node)) (factors : List Expression) : Prop where
  /-- Every divisor is a constant. -/
  divisors : ∀ divisor, (.over, divisor) ∈ rest → ∃ x, divisor.build = .ok (.number x)
  /-- Some factor is no constant. -/
  kept : kept factors ≠ []
  /-- The constants combine to 1. -/
  one : ∃ residual, (constants factors).foldlM Number.multiply Number.one = .ok residual ∧
    (residual == Number.one) = true

/-- A divisor becomes a decimal constant or an inverted factor. -/
theorem divisor_cases {rest : List (FactorSign × Node)} {factors : List Expression}
    {divisor : Node} (h : buildFactors rest = .ok factors) (hmem : (.over, divisor) ∈ rest) :
    (∃ x y, divisor.build = .ok (.number x) ∧ y ∈ constants factors ∧ y.isInteger = false) ∨
      ∃ body, divisor.build = .ok body ∧ body.number? = none ∧
        Expression.power body (.number (.integer (-1))) ∈ kept factors := by
  rw [buildFactors_eq_mapM, mapM_eq_ok_iff] at h
  obtain ⟨factor, hfactor, hsigned⟩ := exists_of_forall₂_of_mem h hmem
  obtain ⟨body, hbody, hinvert⟩ := bind_eq_ok_iff.mp hsigned
  rcases invert_cases hinvert with ⟨x, y, rfl, hy, rfl⟩ | ⟨hnone, rfl⟩
  · exact .inl ⟨x, y, hbody, List.mem_filterMap.mpr ⟨_, hfactor, rfl⟩, Number.isInteger_divide hy⟩
  · exact .inr ⟨body, hbody, hnone, mem_kept.mpr ⟨hfactor, rfl⟩⟩

/-- What is built from a product with a divisor is always a decimal number, unless its constants
cancel. -/
theorem alwaysDecimal_of_divisor {first divisor : Node} {rest : List (FactorSign × Node)}
    {factors : List Expression} {built : Expression} (hmem : (.over, divisor) ∈ rest)
    (hfactors : buildFactors ((.times, first) :: rest) = .ok factors)
    (hfold : Chain.product.fold factors = .ok built) (hcancel : ¬ ConstantsCancel rest factors) :
    built.AlwaysDecimal := by
  obtain ⟨residual, hresidual, hcases⟩ := Chain.fold_cases hfold
  by_cases hinverse : ∃ body, Expression.power body (.number (.integer (-1))) ∈ kept factors
  · -- An inverted factor is kept, and makes the product decimal whatever the constants are.
    obtain ⟨body, hbody⟩ := hinverse
    have hdecimal := alwaysDecimal_inverse body
    rcases hcases with ⟨hnone, -⟩ | ⟨-, hsingle⟩ | ⟨-, -, rfl⟩ | ⟨-, -, rfl⟩
    · rw [hnone] at hbody
      cases hbody
    · rw [hsingle, List.mem_singleton] at hbody
      rwa [← hbody]
    · exact alwaysDecimal_product hbody hdecimal
    · exact alwaysDecimal_product (List.mem_append_left _ hbody) hdecimal
  · -- All divisors are constants, so the residual is decimal, and it is left out if it equals 1.
    have hconstant : ∀ divisor, (.over, divisor) ∈ rest →
        ∃ x y, divisor.build = .ok (.number x) ∧ y ∈ constants factors ∧ y.isInteger = false := by
      intro divisor hdivisor
      refine (divisor_cases hfactors (List.mem_cons_of_mem _ hdivisor)).resolve_right ?_
      rintro ⟨body, -, -, hbody⟩
      exact hinverse ⟨body, hbody⟩
    obtain ⟨x, y, -, hy, hdecimal⟩ := hconstant divisor hmem
    have hnumber : (Expression.number residual).AlwaysDecimal :=
      alwaysDecimal_number (Number.isInteger_foldlM_of_mem hy hdecimal hresidual)
    have hkeeps : (residual == Number.one) = true → kept factors = [] := by
      intro hone
      by_contra hkept
      refine hcancel ⟨fun divisor hdivisor => ?_, hkept, residual, hresidual, hone⟩
      obtain ⟨x, -, hx, -, -⟩ := hconstant divisor hdivisor
      exact ⟨x, hx⟩
    rcases hcases with ⟨-, rfl⟩ | ⟨hone, hsingle⟩ | ⟨hone, htwo, -⟩ | ⟨-, -, rfl⟩
    · exact hnumber
    · rw [hkeeps hone] at hsingle
      cases hsingle
    · rw [hkeeps hone] at htwo
      cases htwo
    · exact alwaysDecimal_product (List.mem_append_right _ (List.mem_singleton_self _)) hnumber

/-- If the constants of a product cancel, only the other factors are left. -/
theorem integral_of_constantsCancel {rest : List (FactorSign × Node)}
    {factors : List Expression} {built : Expression}
    (hfold : Chain.product.fold factors = .ok built) (hcancel : ConstantsCancel rest factors)
    (hkept : ∀ factor ∈ kept factors, factor.Integral) : built.Integral := by
  obtain ⟨residual, hresidual, hone⟩ := hcancel.one
  obtain ⟨other, hother, ⟨hnone, -⟩ | ⟨-, hsingle⟩ | ⟨-, -, rfl⟩ | ⟨hne, -, -⟩⟩ :=
    Chain.fold_cases hfold
  · exact absurd hnone hcancel.kept
  · exact hkept built (hsingle ▸ List.mem_singleton_self built)
  · exact .product hkept
  · rw [show residual = other from Except.ok.inj (hresidual.symm.trans hother)] at hone
    rw [show (other == Number.one) = false from hne] at hone
    cases hone

end Node

/-- The value of a division is a decimal number, unless the constants of the product cancel each
other out. Then it is what the other factors are worth, and an integer if these are integral. -/
theorem value_of_division {σ : Type} {source : Source σ} {state : σ} {text : String}
    {entries : List Entry} {outcome : Outcome} (hread : readEntries text = .ok entries)
    (hroll : ((rollText text).run source state).result = .ok outcome) :
    List.Forall₂ (fun entry rolled => ∀ first rest divisor, entry.node = .product first rest →
      (.over, divisor) ∈ rest →
      ∃ factors, Node.buildFactors ((.times, first) :: rest) = .ok factors ∧
        (¬ Node.ConstantsCancel rest factors → ∃ x, rolled.value = .number (.decimal x)) ∧
        (Node.ConstantsCancel rest factors →
          (∀ factor ∈ Expression.kept factors, factor.Integral) →
          ∃ z, rolled.value = .number (.integer z))) entries outcome.entries := by
  refine (worth_of_rollText hread hroll).imp fun entry rolled h => ?_
  rintro first rest divisor hnode hmem
  obtain ⟨built, hbuild, hworth⟩ := h
  rw [hnode, Node.build] at hbuild
  obtain ⟨operand, hoperand, hbuild⟩ := bind_eq_ok_iff.mp hbuild
  obtain ⟨others, hothers, hfold⟩ := bind_eq_ok_iff.mp hbuild
  have hfactors : Node.buildFactors ((.times, first) :: rest) = .ok (operand :: others) := by
    rw [Node.buildFactors, hoperand, hothers]
    rfl
  have hfold := mapError_eq_ok_iff.mp hfold
  refine ⟨operand :: others, hfactors, fun hcancel => ?_, fun hcancel hkept => ?_⟩
  · exact Node.alwaysDecimal_of_divisor hmem hfactors hfold hcancel rolled.value hworth
  · exact (Node.integral_of_constantsCancel hfold hcancel hkept).worth_integer hworth

/-- The quarter in `d6 / 4` stays, so a 3 is worth 0.75. -/
theorem value_of_division_quarter :
    let entry : Entry := ⟨none, .product (.dice ⟨none, "6", none⟩) [(.over, .integer "4")], none⟩
    let rolled : EntryOutcome :=
      ⟨none, none, "1d6 * 0.25", "(**3**) * 0.25", .number (.decimal 0.75)⟩
    let outcome : Outcome := ⟨rolled.text, rolled.trace, rolled.value, [rolled]⟩
    readEntries "d6 / 4" = .ok [entry] ∧
      ((rollText "d6 / 4").run Supply.source (.listed [3])).result = .ok outcome ∧
      ∃ x, rolled.value = .number (.decimal x) := by
  intro entry rolled outcome
  have hread : readEntries "d6 / 4" = .ok [entry] := by rfl
  have hroll : ((rollText "d6 / 4").run Supply.source (.listed [3])).result = .ok outcome := by rfl
  obtain ⟨hdivision, -⟩ := List.forall₂_cons.mp (value_of_division hread hroll)
  obtain ⟨factors, hfactors, hdecimal, -⟩ := hdivision _ _ _ rfl List.mem_cons_self
  refine ⟨hread, hroll, hdecimal fun hcancel => ?_⟩
  cases hfactors
  obtain ⟨residual, hresidual, hone⟩ := hcancel.one
  cases hresidual
  revert hone
  decide +kernel

/-- A division by one leaves no trace: `d6 / 1` is built into a single die, and its value is an
integer. -/
theorem division_of_one :
    readEntries "d6 / 1" =
        .ok [⟨none, .product (.dice ⟨none, "6", none⟩) [(.over, .integer "1")], none⟩] ∧
      ((rollText "d6 / 1").run Supply.source (.listed [4])).result =
        .ok ⟨"1d6", "(**4**)", .number (.integer 4),
          [⟨none, none, "1d6", "(**4**)", .number (.integer 4)⟩]⟩ :=
  ⟨rfl, rfl⟩

end DiceNotation
