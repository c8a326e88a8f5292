import DiceNotation.Proofs.Calculation

/-!
# What building refuses

If a written expression cannot be built, one part of it is to blame: a numeral that does not fit,
dice that cannot be rolled, a comparison that is unknown, a power with a wrong number of operands,
or a constant operation without a value. The error names that part and nothing else.
-/

namespace DiceNotation

open Decimal

/-- The numerals of written dice, from left to right. -/
def WrittenDice.counts (written : WrittenDice) : List String :=
  written.count.toList ++ written.sides :: (written.modifier.map Prod.snd).toList

namespace Node

/-- The counts, sides, arguments and thresholds of dice or a check, from left to right. -/
def counts : Node → List String
  | dice written => written.counts
  | check written _ threshold => written.counts ++ [threshold]
  | nb _ count => [count]
  | _ => []

/-- A part of a written expression. -/
inductive Within (part : Node) : Node → Prop where
  /-- Every expression is a part of itself. -/
  | itself : Within part part
  /-- A part of a negated expression. -/
  | negation {body : Node} (h : Within part body) : Within part (.negation body)
  /-- A part of an operand of a power. -/
  | power {operands : List Node} {operand : Node} (hmem : operand ∈ operands)
    (h : Within part operand) : Within part (.power operands)
  /-- A part of the first factor of a product. -/
  | firstFactor {first : Node} {rest : List (FactorSign × Node)} (h : Within part first) :
    Within part (.product first rest)
  /-- A part of another factor of a product. -/
  | factor {first : Node} {rest : List (FactorSign × Node)} {factor : FactorSign × Node}
    (hmem : factor ∈ rest) (h : Within part factor.2) : Within part (.product first rest)
  /-- A part of the first term of a sum. -/
  | firstTerm {first : Node} {rest : List (TermSign × Node)} (h : Within part first) :
    Within part (.sum first rest)
  /-- A part of another term of a sum. -/
  | term {first : Node} {rest : List (TermSign × Node)} {term : TermSign × Node}
    (hmem : term ∈ rest) (h : Within part term.2) : Within part (.sum first rest)

/-- A part of a written expression that is refused, and the error that is reported. -/
inductive Refused : Node → BuildError → Prop where
  /-- The digits do not stand for an integer of 64 bits. -/
  | integer {digits : String} (h : readInt64 digits.toList = none) :
    Refused (.integer digits) (.invalidNumber digits)
  /-- The digits do not stand for a finite decimal number. -/
  | decimal {digits : String} (h : readFloat digits.toList = none) :
    Refused (.decimal digits) (.invalidNumber digits)
  /-- A numeral of dice or a check does not stand for a count of 32 bits. -/
  | count {node : Node} {digits : String} (hmem : digits ∈ node.counts)
    (h : readUInt32 digits.toList = none) : Refused node (.invalidNumber digits)
  /-- The spelling of a comparison is unknown. -/
  | comparison {written : WrittenDice} {spelling threshold : String}
    (h : Comparison.ofSymbol? spelling = none) :
    Refused (.check written spelling threshold) (.dice (.unknownCondition spelling))
  /-- Dice cannot be rolled. -/
  | dice {node : Node} {leaf : Leaf} {error : DiceError} (hdenotes : node.Denotes leaf)
    (h : leaf.set.validate = .error error) : Refused node (.dice error)
  /-- A power has some other number of operands than two. -/
  | arity {operands : List Node} (h : operands.length ≠ 2) :
    Refused (.power operands) (.powerArity operands.length)
  /-- An operation on constants has no value. -/
  | calculation {node : Node} {cause : ArithmeticError} (h : cause.IsNumeric) :
    Refused node (.calculation cause)

end Node

/-! ## Numerals and dice -/

/-- A count is refused for a numeral that does not fit, which the error quotes. -/
theorem readUInt32_of_readCount_eq_error {digits : String} {cause : BuildError}
    (h : readCount digits = .error cause) :
    readUInt32 digits.toList = none ∧ cause = .invalidNumber digits := by
  rw [readCount] at h
  split at h
  · cases h
  · rename_i hnone
    cases h
    exact ⟨hnone, rfl⟩

/-- Dice are refused for the error with which they cannot be rolled. -/
theorem validate_of_validDice_eq_error {dice : Dice} {cause : BuildError}
    (h : validDice dice = .error cause) :
    ∃ error, dice.validate = .error error ∧ cause = .dice error := by
  rw [validDice] at h
  split at h
  · cases h
  · rename_i error hinvalid
    cases h
    exact ⟨error, hinvalid, rfl⟩

/-- The number of dice is the one that is written, or one if none is. -/
theorem WrittenDice.denoted_of_number {written : WrittenDice} {n : UInt32}
    (h : written.number = .ok n) :
    match written.count with
      | none => n = 1
      | some text => readUInt32 text.toList = some n := by
  obtain ⟨count, sides, modifier⟩ := written
  cases count with
  | none =>
    cases h
    rfl
  | some text => exact readUInt32_of_readCount h

/-- Written dice are refused for a numeral, or because what they denote cannot be rolled. -/
theorem WrittenDice.refused_of_build {written : WrittenDice} {cause : BuildError}
    (h : written.build = .error cause) :
    (∃ digits ∈ written.counts, readUInt32 digits.toList = none ∧ cause = .invalidNumber digits) ∨
      ∃ set error, written.Denotes set ∧ set.validate = .error error ∧ cause = .dice error := by
  obtain ⟨count, sides, modifier⟩ := written
  rw [build_eq] at h
  rcases bind_eq_error_iff.1 h with hcount | ⟨n, hcount, h⟩
  · cases count with
    | none => cases hcount
    | some digits =>
      obtain ⟨hnone, rfl⟩ := readUInt32_of_readCount_eq_error hcount
      exact .inl ⟨digits, List.mem_cons_self, hnone, rfl⟩
  rcases bind_eq_error_iff.1 h with hsides | ⟨faces, hsides, h⟩
  · obtain ⟨hnone, rfl⟩ := readUInt32_of_readCount_eq_error hsides
    exact .inl ⟨sides, List.mem_append_right _ List.mem_cons_self, hnone, rfl⟩
  have hnumber := denoted_of_number hcount
  have hfaces := readUInt32_of_readCount hsides
  cases modifier with
  | none =>
    obtain ⟨error, hinvalid, rfl⟩ := validate_of_validDice_eq_error h
    exact .inr ⟨_, error, ⟨hnumber, hfaces, rfl⟩, hinvalid, rfl⟩
  | some pair =>
    obtain ⟨word, digits⟩ := pair
    rcases bind_eq_error_iff.1 h with hargument | ⟨argument, hargument, h⟩
    · obtain ⟨hnone, rfl⟩ := readUInt32_of_readCount_eq_error hargument
      refine .inl ⟨digits, List.mem_append_right _ ?_, hnone, rfl⟩
      exact List.mem_cons_of_mem sides (List.mem_singleton_self digits)
    · obtain ⟨error, hinvalid, rfl⟩ := validate_of_validDice_eq_error h
      exact .inr ⟨_, error, ⟨hnumber, hfaces, argument, readUInt32_of_readCount hargument, rfl⟩,
        hinvalid, rfl⟩

/-! ## Constant operations -/

namespace Number

/-- Negating a number fails for a reason of arithmetic. -/
theorem isNumeric_negate {x : Number} {cause : ArithmeticError} (h : x.negate = .error cause) :
    cause.IsNumeric := by
  cases x with
  | integer z => exact isNumeric_ofInt h
  | decimal x => cases h

/-- Dividing numbers fails for a reason of arithmetic. -/
theorem isNumeric_divide {x y : Number} {cause : ArithmeticError} (h : x.divide y = .error cause) :
    cause.IsNumeric := by
  rw [divide] at h
  split at h
  · cases h
    exact .divisionByZero
  · exact isNumeric_ofFloat h

end Number

namespace Expression

/-- A calculation of a number is refused for its cause. -/
theorem isNumeric_of_calculated {calculation : Except ArithmeticError Number} {cause : BuildError}
    (hnumeric : ∀ {inner}, calculation = .error inner → inner.IsNumeric)
    (h : (do return Expression.number (← calculated calculation)) = Except.error cause) :
    ∃ inner, inner.IsNumeric ∧ cause = .calculation inner := by
  rcases bind_eq_error_iff.1 h with h | ⟨_, -, h⟩
  · obtain ⟨inner, hinner, rfl⟩ := mapError_eq_error_iff.1 h
    exact ⟨inner, hnumeric hinner, rfl⟩
  · cases h

/-- A negation is refused because that of a constant has no value. -/
theorem isNumeric_of_negate {body : Expression} {cause : BuildError}
    (h : body.negate = .error cause) : ∃ inner, inner.IsNumeric ∧ cause = .calculation inner := by
  cases body with
  | number x => exact isNumeric_of_calculated Number.isNumeric_negate h
  | _ => cases h

/-- An inverse is refused because that of a constant has no value. -/
theorem isNumeric_of_invert {body : Expression} {cause : BuildError}
    (h : body.invert = .error cause) : ∃ inner, inner.IsNumeric ∧ cause = .calculation inner := by
  cases body with
  | number x => exact isNumeric_of_calculated Number.isNumeric_divide h
  | _ => cases h

/-- Folding is refused because the constants of the chain have no value together. -/
theorem isNumeric_of_fold {chain : Chain} {operands : List Expression} {cause : BuildError}
    (h : calculated (chain.fold operands) = .error cause) :
    ∃ inner, inner.IsNumeric ∧ cause = .calculation inner := by
  obtain ⟨inner, hinner, rfl⟩ := mapError_eq_error_iff.1 h
  rw [Chain.fold_eq] at hinner
  rcases bind_eq_error_iff.1 hinner with hfold | ⟨_, -, hpure⟩
  · exact ⟨inner, Number.isNumeric_foldlM hfold, rfl⟩
  · cases hpure

/-- A power is refused because it has no value or a wrong number of operands. -/
theorem cases_of_raise {operands : List Expression} {cause : BuildError}
    (h : raise operands = .error cause) :
    (∃ inner, inner.IsNumeric ∧ cause = .calculation inner) ∨
      (operands.length ≠ 2 ∧ cause = .powerArity operands.length) := by
  rw [raise.eq_def] at h
  split at h
  · exact .inl (isNumeric_of_calculated Number.isNumeric_power h)
  · rcases operands with _ | ⟨base, _ | ⟨exponent, _ | ⟨third, rest⟩⟩⟩ <;> cases h
    all_goals exact .inr ⟨by simp, rfl⟩

end Expression

/-- A signed term is refused because the negation of a constant has no value. -/
theorem TermSign.isNumeric_of_signed {sign : TermSign} {body : Expression} {cause : BuildError}
    (h : sign.signed body = .error cause) :
    ∃ inner, inner.IsNumeric ∧ cause = .calculation inner := by
  match sign, h with
  | .plus, h => cases h
  | .minus, h => exact Expression.isNumeric_of_negate h

/-- A signed factor is refused because the inverse of a constant has no value. -/
theorem FactorSign.isNumeric_of_signed {sign : FactorSign} {body : Expression} {cause : BuildError}
    (h : sign.signed body = .error cause) :
    ∃ inner, inner.IsNumeric ∧ cause = .calculation inner := by
  match sign, h with
  | .times, h => cases h
  | .over, h => exact Expression.isNumeric_of_invert h

/-! ## Written expressions -/

namespace Node

/-- A check is refused for its threshold, its comparison or its dice. -/
theorem refused_of_check {written : WrittenDice} {spelling threshold : String} {cause : BuildError}
    (h : (Node.check written spelling threshold).build = .error cause) :
    (Node.check written spelling threshold).Refused cause := by
  rw [build] at h
  rcases bind_eq_error_iff.1 h with hthreshold | ⟨value, hvalue, h⟩
  · obtain ⟨hnone, rfl⟩ := readUInt32_of_readCount_eq_error hthreshold
    exact .count (List.mem_append_right _ (List.mem_singleton_self threshold)) hnone
  cases hsymbol : Comparison.ofSymbol? spelling with
  | none =>
    rcases bind_eq_error_iff.1 h with hcondition | ⟨_, hcondition, -⟩ <;>
      rw [Condition.ofSymbol, hsymbol] at hcondition <;> cases hcondition
    exact .comparison hsymbol
  | some comparison =>
    rcases bind_eq_error_iff.1 h with hcondition | ⟨condition, -, h⟩
    · rw [Condition.ofSymbol, hsymbol] at hcondition
      cases hcondition
    rcases bind_eq_error_iff.1 h with hdice | ⟨_, -, h⟩
    · rcases WrittenDice.refused_of_build hdice with
        ⟨digits, hmem, hnone, rfl⟩ | ⟨set, error, hset, hinvalid, rfl⟩
      · exact .count (List.mem_append_left _ hmem) hnone
      · exact .dice (.check hset hsymbol (readUInt32_of_readCount hvalue)) hinvalid
    · cases h

/-- A short check is refused for its count, or because its dice cannot be rolled. -/
theorem refused_of_nb {difficulty : Difficulty} {count : String} {cause : BuildError}
    (h : (Node.nb difficulty count).build = .error cause) :
    (Node.nb difficulty count).Refused cause := by
  rw [build] at h
  rcases bind_eq_error_iff.1 h with hcount | ⟨value, hvalue, h⟩
  · obtain ⟨hnone, rfl⟩ := readUInt32_of_readCount_eq_error hcount
    exact .count (List.mem_singleton_self count) hnone
  rcases bind_eq_error_iff.1 h with hdice | ⟨_, -, h⟩
  · obtain ⟨error, hinvalid, rfl⟩ := validate_of_validDice_eq_error hdice
    exact .dice (.nb (readUInt32_of_readCount hvalue)) hinvalid
  · cases h

/-- A chain is refused for its first operand, for another one, or because a sign or the constants of
it have no value. -/
theorem cases_of_buildChain_eq_error {σ : Type} {chain : Chain}
    {signed : σ → Expression → Except BuildError Expression} {first : Node}
    {rest : List (σ × Node)} {cause : BuildError}
    (hsigned : ∀ {sign body}, signed sign body = .error cause →
      ∃ inner, inner.IsNumeric ∧ cause = .calculation inner)
    (h : buildChain chain signed first rest = .error cause) :
    first.build = .error cause ∨ (∃ other ∈ rest, other.2.build = .error cause) ∨
      ∃ inner, inner.IsNumeric ∧ cause = .calculation inner := by
  rcases bind_eq_error_iff.1 h with hfirst | ⟨operand, -, h⟩
  · exact .inl hfirst
  rcases bind_eq_error_iff.1 h with hothers | ⟨others, -, hfold⟩
  · obtain ⟨other, hmem, hother⟩ := exists_of_mapM_eq_error hothers
    rcases bind_eq_error_iff.1 hother with hbuild | ⟨body, -, hbody⟩
    · exact .inr (.inl ⟨other, hmem, hbuild⟩)
    · exact .inr (.inr (hsigned hbody))
  · exact .inr (.inr (Expression.isNumeric_of_fold hfold))

/-- If building fails, a part of the written expression is refused for that cause. -/
theorem exists_refused_of_build (node : Node) {cause : BuildError} (h : node.build = .error cause) :
    ∃ part : Node, part.Within node ∧ part.Refused cause := by
  induction node using Node.induction generalizing cause with
  | integer digits =>
    rw [build] at h
    split at h <;> cases h
    rename_i hnone
    exact ⟨_, .itself, .integer hnone⟩
  | decimal digits =>
    rw [build] at h
    split at h <;> cases h
    rename_i hnone
    exact ⟨_, .itself, .decimal hnone⟩
  | dice written =>
    rw [build] at h
    rcases bind_eq_error_iff.1 h with hdice | ⟨_, -, h⟩
    · rcases WrittenDice.refused_of_build hdice with
        ⟨digits, hmem, hnone, rfl⟩ | ⟨set, error, hset, hinvalid, rfl⟩
      · exact ⟨_, .itself, .count hmem hnone⟩
      · exact ⟨_, .itself, .dice (.dice hset) hinvalid⟩
    · cases h
  | check written comparison threshold => exact ⟨_, .itself, refused_of_check h⟩
  | nb difficulty count => exact ⟨_, .itself, refused_of_nb h⟩
  | negation body ih =>
    rw [build] at h
    rcases bind_eq_error_iff.1 h with hbody | ⟨operand, -, hnegate⟩
    · obtain ⟨part, hwithin, hrefused⟩ := ih hbody
      exact ⟨part, .negation hwithin, hrefused⟩
    · obtain ⟨inner, hinner, rfl⟩ := Expression.isNumeric_of_negate hnegate
      exact ⟨_, .itself, .calculation hinner⟩
  | power nodes ih =>
    rw [build, buildAll_eq_mapM] at h
    rcases bind_eq_error_iff.1 h with hnodes | ⟨operands, hoperands, hraise⟩
    · obtain ⟨node, hmem, hnode⟩ := exists_of_mapM_eq_error hnodes
      obtain ⟨part, hwithin, hrefused⟩ := ih node hmem hnode
      exact ⟨part, .power hmem hwithin, hrefused⟩
    · rcases Expression.cases_of_raise hraise with ⟨inner, hinner, rfl⟩ | ⟨hlength, rfl⟩
      · exact ⟨_, .itself, .calculation hinner⟩
      · rw [← (mapM_eq_ok_iff.1 hoperands).length_eq] at hlength ⊢
        exact ⟨_, .itself, .arity hlength⟩
  | product first rest hfirst hrest =>
    rw [build_product_eq_chain] at h
    rcases cases_of_buildChain_eq_error FactorSign.isNumeric_of_signed h with
      hbuild | ⟨factor, hmem, hbuild⟩ | ⟨inner, hinner, rfl⟩
    · obtain ⟨part, hwithin, hrefused⟩ := hfirst hbuild
      exact ⟨part, .firstFactor hwithin, hrefused⟩
    · obtain ⟨part, hwithin, hrefused⟩ := hrest factor hmem hbuild
      exact ⟨part, .factor hmem hwithin, hrefused⟩
    · exact ⟨_, .itself, .calculation hinner⟩
  | sum first rest hfirst hrest =>
    rw [build_sum_eq_chain] at h
    rcases cases_of_buildChain_eq_error TermSign.isNumeric_of_signed h with
      hbuild | ⟨term, hmem, hbuild⟩ | ⟨inner, hinner, rfl⟩
    · obtain ⟨part, hwithin, hrefused⟩ := hfirst hbuild
      exact ⟨part, .firstTerm hwithin, hrefused⟩
    · obtain ⟨part, hwithin, hrefused⟩ := hrest term hmem hbuild
      exact ⟨part, .term hmem hwithin, hrefused⟩
    · exact ⟨_, .itself, .calculation hinner⟩

end Node

end DiceNotation
