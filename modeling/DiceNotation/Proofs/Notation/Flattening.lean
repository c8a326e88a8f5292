import DiceNotation.Proofs.Notation.Built

/-!
# Flattening

A sum that is a term of a sum stands without parentheses, and so does a product that is a factor of
a product. Opening such operands changes an expression, but not its notation, and afterwards no
operand is of the same kind as the operation around it.
-/

namespace DiceNotation

/-- The operands of an operation of this kind; anything else stands for itself. -/
def Chain.opened : Chain → Expression → List Expression
  | .sum, .sum terms => terms
  | .product, .product factors => factors
  | _, operand => [operand]

namespace Expression

mutual

/-- The expression with the sums among terms and the products among factors opened. -/
def flatten : Expression → Expression
  | .number x => .number x
  | .dice leaf => .dice leaf
  | .check leaf => .check leaf
  | .sum terms => .sum ((flattenAll terms).flatMap Chain.sum.opened)
  | .product factors => .product ((flattenAll factors).flatMap Chain.product.opened)
  | .power base exponent => .power base.flatten exponent.flatten
  | .list entries => .list (flattenAll entries)
  | .commented body before after => .commented body.flatten before after

/-- Expressions with the sums among terms and the products among factors opened. -/
def flattenAll : List Expression → List Expression
  | [] => []
  | operand :: operands => operand.flatten :: flattenAll operands

end

/-- Operands are flattened one by one. -/
theorem flattenAll_eq_map (operands : List Expression) :
    flattenAll operands = operands.map flatten := by
  induction operands with
  | nil => rfl
  | cons operand operands ih => rw [flattenAll, ih, List.map_cons]

/-- A sum or product is flattened by opening its flattened operands. -/
theorem flatten_toExpression (chain : Chain) (operands : List Expression) :
    (chain.toExpression operands).flatten =
      chain.toExpression ((operands.map flatten).flatMap chain.opened) := by
  cases chain <;> rw [Chain.toExpression, flatten, flattenAll_eq_map] <;> rfl

@[simp] theorem operation?_flatten (expression : Expression) :
    expression.flatten.operation? = expression.operation? := by
  cases expression <;> rw [flatten] <;> rfl

@[simp] theorem number?_flatten (expression : Expression) :
    expression.flatten.number? = expression.number? := by
  cases expression <;> rw [flatten] <;> rfl

end Expression

/-- An operation of a kind is opened, and nothing else. -/
theorem Chain.opened_cases (chain : Chain) (operand : Expression) :
    operand = chain.toExpression (chain.opened operand) ∨
      (operand.operation? ≠ some chain.operation ∧ chain.opened operand = [operand]) := by
  cases chain <;> cases operand <;> simp [opened, toExpression, Expression.operation?, operation]

/-! ## Notation -/

/-- An operand behind the symbol of the operation around it, with a space on each side. -/
def Expression.joined (around : Operation) (operand : Expression) : List Char :=
  " ".toList ++ (around.symbol.toList ++
    (" ".toList ++ (operandText around operand.operation? operand.text).toList))

/-- The notation of a sum or product behind its own symbol is that of its operands, each of them
behind the symbol. -/
theorem joined_toExpression (chain : Chain) {operands : List Expression} (hne : operands ≠ []) :
    " ".toList ++ (chain.operation.symbol.toList ++
        (" ".toList ++ (chain.toExpression operands).text.toList)) =
      operands.flatMap (Expression.joined chain.operation) := by
  obtain ⟨first, rest, rfl⟩ := List.exists_cons_of_ne_nil hne
  have htext : (chain.toExpression (first :: rest)).text =
      operationText chain.operation (Expression.operandTexts chain.operation (first :: rest)) := by
    cases chain <;> rw [Chain.toExpression, Expression.text] <;> rfl
  rw [htext, Expression.operandTexts_eq_map, List.map_cons, toList_operationText, List.flatMap_map,
    List.flatMap_cons, Expression.joined]
  simp only [List.append_assoc]
  rfl

/-- Opening an operand does not change its notation. -/
theorem flatMap_joined_opened (chain : Chain) {operand : Expression}
    (hne : chain.opened operand ≠ []) :
    (chain.opened operand).flatMap (Expression.joined chain.operation) =
      operand.joined chain.operation := by
  rcases chain.opened_cases operand with hopened | ⟨-, hopened⟩
  · rw [← joined_toExpression chain hne, ← hopened, Expression.joined]
    have hkind : operand.operation? = some chain.operation := by
      rw [hopened]
      cases chain <;> rfl
    have hplain : operandText chain.operation (some chain.operation) operand.text =
        operand.text := by
      cases chain <;> rfl
    rw [hkind, hplain]
  · rw [hopened, List.flatMap_singleton]

/-- An expression with all operands of the same kind opened. -/
abbrev Expression.Opened (allowed : Number → Prop) : Expression → Prop :=
  Expression.Shaped allowed fun chain operands =>
    chain.Unnested operands ∧ chain.Effective operands

/-- Opening operands does not make them fewer. -/
theorem length_le_length_flatMap {operands : List Expression}
    {opened : Expression → List Expression} (h : ∀ operand ∈ operands, opened operand ≠ []) :
    operands.length ≤ (operands.flatMap opened).length := by
  induction operands with
  | nil => exact Nat.zero_le _
  | cons operand operands ih =>
    obtain ⟨hoperand, hothers⟩ := List.forall_mem_cons.1 h
    have hfirst := List.length_pos_of_ne_nil hoperand
    have hrest := ih hothers
    rw [List.flatMap_cons, List.length_append, List.length_cons]
    omega

/-- The operands of a flat operand, if it is opened, and the operand itself otherwise. -/
theorem Expression.Opened.opened {allowed : Number → Prop} {operand : Expression}
    (h : operand.Opened allowed) (chain : Chain) :
    chain.opened operand ≠ [] ∧ ∀ inner ∈ chain.opened operand, inner.Opened allowed ∧
      inner.operation? ≠ some chain.operation ∧
      ∀ x, inner = .number x → operand = .number x ∨ (x == chain.identity) = false := by
  rcases chain.opened_cases operand with hopened | ⟨hkind, hopened⟩
  · rw [hopened] at h
    obtain ⟨⟨hunnested, heffective⟩, hoperands⟩ := h.operands
    refine ⟨List.ne_nil_of_length_pos (by have htwo := hunnested.two; omega), ?_⟩
    refine fun inner hinner => ⟨hoperands inner hinner, hunnested.kinds inner hinner, ?_⟩
    rintro x rfl
    exact .inr (heffective.changes x hinner)
  · rw [hopened]
    exact ⟨List.cons_ne_nil _ _, List.forall_mem_singleton.2 ⟨h, hkind, fun x hx => .inl hx⟩⟩

/-- Opening the flat operands of an operation leaves none of the same kind and no number that
changes nothing. -/
theorem Chain.Effective.opened {allowed : Number → Prop} {chain : Chain}
    {operands : List Expression} (heffective : chain.Effective operands)
    (hflat : ∀ operand ∈ operands, operand.flatten.Opened allowed) :
    (chain.toExpression operands).flatten.Opened allowed := by
  have hopened : ∀ operand ∈ operands.map Expression.flatten, operand.Opened allowed :=
    List.forall_mem_map.2 hflat
  have htwo : 2 ≤ ((operands.map Expression.flatten).flatMap chain.opened).length := by
    have hlength := length_le_length_flatMap fun operand hoperand =>
      ((hopened operand hoperand).opened chain).1
    rw [List.length_map] at hlength
    exact Nat.le_trans heffective.two hlength
  have hinner : ∀ inner ∈ (operands.map Expression.flatten).flatMap chain.opened,
      inner.Opened allowed ∧ inner.operation? ≠ some chain.operation ∧
        ∀ x, inner = .number x → (x == chain.identity) = false := by
    intro inner hinner
    obtain ⟨operand, hoperand, hmem⟩ := List.mem_flatMap.1 hinner
    obtain ⟨hinside, hkind, hnumber⟩ := ((hopened operand hoperand).opened chain).2 inner hmem
    refine ⟨hinside, hkind, fun x hx => (hnumber x hx).elim (fun heq => ?_) id⟩
    obtain ⟨source, hsource, rfl⟩ := List.mem_map.1 hoperand
    have hsame : source.number? = some x := by
      rw [← Expression.number?_flatten, heq]
      rfl
    rw [Expression.number?_eq_some_iff] at hsame
    rw [hsame] at hsource
    exact heffective.changes x hsource
  rw [Expression.flatten_toExpression]
  exact .chain chain ⟨⟨htwo, fun inner hmem => (hinner inner hmem).2.1⟩,
    ⟨htwo, fun x hx => (hinner _ hx).2.2 x rfl⟩⟩ fun inner hmem => (hinner inner hmem).1

/-- Flattening keeps the notation of an operation, if it keeps that of the operands. -/
theorem text_flatten_toExpression {chain : Chain} {operands : List Expression}
    (hoperands : operands ≠ []) (hne : ∀ operand ∈ operands, chain.opened operand.flatten ≠ [])
    (htext : ∀ operand ∈ operands, operand.flatten.text = operand.text) :
    (chain.toExpression operands).flatten.text = (chain.toExpression operands).text := by
  have hjoined : ((operands.map Expression.flatten).flatMap chain.opened).flatMap
      (Expression.joined chain.operation) =
        operands.flatMap (Expression.joined chain.operation) := by
    rw [List.flatMap_assoc, List.flatMap_map]
    refine List.flatMap_congr fun operand hoperand => ?_
    rw [flatMap_joined_opened chain (hne operand hoperand), Expression.joined,
      Expression.operation?_flatten, htext operand hoperand, Expression.joined]
  have hinner : (operands.map Expression.flatten).flatMap chain.opened ≠ [] := by
    obtain ⟨operand, hoperand⟩ := List.exists_mem_of_ne_nil operands hoperands
    obtain ⟨inner, hinside⟩ := List.exists_mem_of_ne_nil _ (hne operand hoperand)
    exact List.ne_nil_of_mem (List.mem_flatMap.2 ⟨_, List.mem_map_of_mem hoperand, hinside⟩)
  rw [← joined_toExpression chain hinner, ← joined_toExpression chain hoperands] at hjoined
  have hsame := List.append_cancel_left
    (List.append_cancel_left (List.append_cancel_left hjoined))
  rw [Expression.flatten_toExpression]
  exact String.toList_inj.1 hsame

/-- Flattening opens all operands of the same kind, and keeps the notation. -/
theorem opened_flatten {allowed : Number → Prop} {expression : Expression}
    (h : expression.Shaped allowed Chain.Effective) :
    expression.flatten.Opened allowed ∧ expression.flatten.text = expression.text := by
  induction h with
  | number hx => exact ⟨.number hx, rfl⟩
  | dice hleaf => exact ⟨.dice hleaf, rfl⟩
  | check hleaf => exact ⟨.check hleaf, rfl⟩
  | @chain chain operands heffective _ ih =>
    have hoperands : operands ≠ [] :=
      List.ne_nil_of_length_pos (Nat.lt_of_lt_of_le Nat.zero_lt_two heffective.two)
    exact ⟨heffective.opened fun operand hoperand => (ih operand hoperand).1,
      text_flatten_toExpression hoperands
        (fun operand hoperand => ((ih operand hoperand).1.opened chain).1)
        fun operand hoperand => (ih operand hoperand).2⟩
  | power hnone _ _ ihbase ihexponent =>
    rw [Expression.flatten]
    refine ⟨.power ?_ ihbase.1 ihexponent.1, ?_⟩
    · rw [Expression.number?_flatten, Expression.number?_flatten]
      exact hnone
    · rw [Expression.text, Expression.text, Expression.operation?_flatten,
        Expression.operation?_flatten, ihbase.2, ihexponent.2]

end DiceNotation
