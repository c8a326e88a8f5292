import DiceNotation.Proofs.Canonical
import DiceNotation.Proofs.Notation.Rebuilding

/-!
# Flat expressions

An expression is flat if folding has nothing left to do in it: only the last operand of a sum or
product may be a number, and then it changes something, no sum is a term of a sum, no product is a
factor of a product, and no power is one of two numbers. The notation of a flat expression is
derivable as something that is built into the same expression.
-/

namespace DiceNotation

open Grammar

/-! ## Folding -/

/-- Operands of which none is a number have no constants. -/
theorem constants_eq_nil {operands : List Expression}
    (h : ∀ operand ∈ operands, operand.number? = none) : Expression.constants operands = [] :=
  List.filterMap_eq_nil_iff.2 h

/-- Of operands of which none is a number, all are kept. -/
theorem kept_eq_self {operands : List Expression}
    (h : ∀ operand ∈ operands, operand.number? = none) : Expression.kept operands = operands :=
  List.filter_eq_self.2 fun operand hoperand => by rw [h operand hoperand]; rfl

/-- The identity of a chain equals itself, so folding drops it. -/
theorem Chain.identity_beq (chain : Chain) : (chain.identity == chain.identity) = true := by
  cases chain <;> decide

/-- At least two settled operands are folded into the operation on them. -/
theorem Chain.Settled.fold {chain : Chain} {operands : List Expression} (h : chain.Settled operands)
    (htwo : 2 ≤ operands.length)
    (hcombine : ∀ x, operands.getLast? = some (.number x) →
      chain.combine chain.identity x = .ok x) :
    chain.fold operands = .ok (chain.toExpression operands) := by
  obtain ⟨hothers, hlast⟩ := h
  have hne : operands ≠ [] := by
    rintro rfl
    exact absurd htwo (by decide)
  obtain ⟨front, last, rfl⟩ : ∃ front last, operands = front ++ [last] :=
    ⟨_, _, (List.dropLast_concat_getLast hne).symm⟩
  rw [List.dropLast_concat] at hothers
  rw [List.getLast?_concat] at hlast hcombine
  have hconstants : Expression.constants (front ++ [last]) = Expression.constants [last] := by
    rw [Expression.constants, List.filterMap_append, ← Expression.constants,
      constants_eq_nil hothers, List.nil_append]
    rfl
  have hkept : Expression.kept (front ++ [last]) = front ++ Expression.kept [last] := by
    rw [Expression.kept, List.filter_append, ← Expression.kept, kept_eq_self hothers]
    rfl
  have hfront : front ≠ [] := by
    rintro rfl
    simp only [List.nil_append, List.length_singleton] at htwo
    omega
  obtain ⟨first, rest, rfl⟩ := List.exists_cons_of_ne_nil hfront
  rw [Chain.fold_eq, hconstants, hkept]
  cases hnumber : last.number? with
  | some x =>
    rw [Expression.number?_eq_some_iff] at hnumber
    subst hnumber
    have hchanges : ¬ (x == chain.identity) = true := by rw [hlast x rfl]; exact Bool.false_ne_true
    rw [Expression.constants_number_cons, List.foldlM_cons, hcombine x rfl,
      Expression.kept_number_cons, Expression.kept_nil, List.append_nil]
    change Except.ok (chain.assemble x (first :: rest)) = _
    cases rest with
    | nil => rw [Chain.assemble, if_neg hchanges]; rfl
    | cons second rest => rw [Chain.assemble, if_neg hchanges]
  | none =>
    rw [Expression.constants_cons hnumber, Expression.kept_cons hnumber]
    change Except.ok (chain.assemble chain.identity (first :: (rest ++ [last]))) = _
    cases rest with
    | nil => rw [List.nil_append, Chain.assemble, if_pos chain.identity_beq]; rfl
    | cons second rest => rw [List.cons_append, Chain.assemble, if_pos chain.identity_beq]; rfl

/-! ## Flat expressions -/

/-- Expressions that are flat, with numbers of some kind. -/
abbrev Expression.Flat (allowed : Number → Prop) : Expression → Prop :=
  Expression.Shaped allowed fun chain operands =>
    chain.Unnested operands ∧ chain.Settled operands

/-- A power with an operand that is no number is left as it is. -/
theorem raise_eq {base exponent : Expression}
    (h : base.number? = none ∨ exponent.number? = none) :
    Expression.raise [base, exponent] = .ok (.power base exponent) := by
  rw [Expression.raise]
  · rfl
  · rintro x y hoperands
    cases hoperands
    simp only [Expression.number?, reduceCtorEq, or_self] at h

/-- Operands that are rebuilt as themselves are so together. -/
theorem rebuildAll_eq_self {operands : List Expression}
    (h : ∀ operand ∈ operands, operand.rebuild = .ok operand) :
    Expression.rebuildAll operands = .ok operands := by
  induction operands with
  | nil => rfl
  | cons operand operands ih =>
    obtain ⟨hoperand, hothers⟩ := List.forall_mem_cons.1 h
    rw [Expression.rebuildAll, hoperand, ih hothers]
    rfl

/-- A flat expression is rebuilt as itself, if folding leaves its numbers alone. -/
theorem Expression.Flat.rebuild {allowed : Number → Prop} {expression : Expression}
    (h : expression.Flat allowed)
    (hcombine : ∀ (chain : Chain) x, allowed x → (x == chain.identity) = false →
      chain.combine chain.identity x = .ok x) :
    expression.rebuild = .ok expression := by
  induction h with
  | number => rfl
  | dice => rfl
  | check => rfl
  | @chain chain operands hfits hoperands ih =>
    obtain ⟨hunnested, hsettled⟩ := hfits
    have hfold : chain.fold operands = .ok (chain.toExpression operands) :=
      hsettled.fold hunnested.two fun x hlast => hcombine chain x
        (hoperands _ (List.mem_of_getLast? hlast)).allowed_number (hsettled.last x hlast)
    rw [rebuild_toExpression, rebuildAll_eq_self ih]
    change calculated (chain.fold operands) = _
    rw [hfold]
    rfl
  | power hnumbers _ _ ihbase ihexponent =>
    rw [Expression.rebuild, ihbase, ihexponent]
    exact raise_eq hnumbers

end DiceNotation
