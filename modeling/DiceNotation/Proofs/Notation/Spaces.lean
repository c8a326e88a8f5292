import DiceNotation.Proofs.Notation.Flattening

/-!
# Words and spaces

The notation of a number is a single word, without any space, parenthesis or letter of dice. The
notation of anything else has such a mark in its first word. So the spaces of a notation, with two
more for the expression itself, are counted operand by operand.
-/

namespace DiceNotation

open Decimal

/-! ## Numbers -/

/-- The characters that may stand in a number, apart from digits. -/
def numberMarks : List Char := ['.', 'e', '+', '-', 'i', 'n', 'f', 'N', 'a']

theorem isDigit_of_mem_significant {number : Scaled} {c : Char}
    (h : c ∈ (significant number).1) : c.isDigit = true := by
  rw [significant] at h
  split at h
  · rw [List.mem_singleton.1 h]
    rfl
  · have hreversed := (List.dropWhile_sublist _).subset (List.mem_reverse.1 h)
    exact isDigit_of_mem_digits (List.mem_reverse.1 hreversed)

/-- Digits are laid out around a point with zeros. -/
theorem mem_positional {digits : List Char} {leading : Int} {c : Char}
    (hd : ∀ c ∈ digits, c.isDigit = true) (h : c ∈ positional digits leading) :
    c.isDigit = true ∨ c ∈ numberMarks := by
  have hpoint : '.' ∈ numberMarks := by decide
  rw [positional] at h
  split at h
  · dsimp only at h
    rcases List.mem_append.1 h with h | h
    · rcases List.mem_append.1 h with h | h
      · exact .inl (hd c (List.mem_of_mem_take h))
      · exact .inl (Grammar.all_isDigit_replicate _ c h)
    · rcases List.mem_cons.1 h with rfl | h
      · exact .inr hpoint
      · split at h
        · exact .inl (Grammar.all_isDigit_replicate 1 c h)
        · exact .inl (hd c (List.mem_of_mem_drop h))
  · rcases List.mem_cons.1 h with rfl | h
    · exact .inl rfl
    · rcases List.mem_append.1 h with h | h
      · rcases List.mem_cons.1 h with rfl | h
        · exact .inr hpoint
        · exact .inl (Grammar.all_isDigit_replicate _ c h)
      · exact .inl (hd c h)

/-- Digits are laid out with a point, an exponent and its sign. -/
theorem mem_exponential {width : Nat} {digits : List Char} {leading : Int} {c : Char}
    (hd : ∀ c ∈ digits, c.isDigit = true) (h : c ∈ exponential width digits leading) :
    c.isDigit = true ∨ c ∈ numberMarks := by
  have hmarks : '.' ∈ numberMarks ∧ 'e' ∈ numberMarks ∧ '-' ∈ numberMarks ∧ '+' ∈ numberMarks := by
    decide
  unfold exponential at h
  dsimp only at h
  rcases List.mem_append.1 h with h | h
  · split at h
    · rename_i first second rest
      rcases List.mem_cons.1 h with rfl | h
      · exact .inl (hd c List.mem_cons_self)
      · rcases List.mem_cons.1 h with rfl | h
        · exact .inr hmarks.1
        · exact .inl (hd c (List.mem_cons_of_mem _ h))
    · exact .inl (hd c h)
  · rcases List.mem_cons.1 h with rfl | h
    · exact .inr hmarks.2.1
    · rcases List.mem_cons.1 h with rfl | h
      · split
        · exact .inr hmarks.2.2.1
        · exact .inr hmarks.2.2.2
      · rcases List.mem_append.1 h with h | h
        · exact .inl (Grammar.all_isDigit_replicate _ c h)
        · exact .inl (isDigit_of_mem_digits h)

/-- The magnitude of a decimal number is written with digits and a few other characters. -/
theorem mem_writeMagnitude {magnitude : Magnitude} {c : Char}
    (h : c ∈ Layout.plain.writeMagnitude magnitude) : c.isDigit = true ∨ c ∈ numberMarks := by
  cases magnitude with
  | notANumber =>
    have hword : ∀ c ∈ ['N', 'a', 'N'], c ∈ numberMarks := by simp [numberMarks]
    exact .inr (hword c h)
  | infinite =>
    have hword : ∀ c ∈ ['i', 'n', 'f'], c ∈ numberMarks := by simp [numberMarks]
    exact .inr (hword c h)
  | finite m e =>
    rw [Layout.writeMagnitude] at h
    obtain ⟨digits, leading, hpair, hdigits⟩ : ∃ digits leading,
        (if m = 0 then (['0'], 0) else significant (shortest m e)) = (digits, leading) ∧
          ∀ c ∈ digits, c.isDigit = true := by
      by_cases hm : m = 0
      · exact ⟨_, _, if_pos hm, Grammar.all_isDigit_replicate 1⟩
      · exact ⟨_, _, if_neg hm, fun c hc => isDigit_of_mem_significant hc⟩
    rw [hpair] at h
    dsimp only at h
    split at h
    · exact mem_positional hdigits h
    · exact mem_exponential hdigits h

/-- So is a number. -/
theorem Number.mem_text {x : Number} {c : Char} (h : c ∈ x.text.toList) :
    c.isDigit = true ∨ c ∈ numberMarks := by
  have hminus : '-' ∈ numberMarks := by decide
  cases x with
  | integer z =>
    have htext : (Number.integer z).text =
        if 0 ≤ z.toInt then z.toInt.toNat.repr else "-" ++ (-z.toInt).toNat.repr :=
      Int.repr_eq_if
    have hdigits : ∀ n : Nat, c ∈ n.repr.toList → c.isDigit = true := by
      intro n hmem
      rw [Nat.toList_repr] at hmem
      exact isDigit_of_mem_digits hmem
    rw [htext] at h
    split at h
    · exact .inl (hdigits _ h)
    · rw [String.toList_append] at h
      rcases List.mem_append.1 h with h | h
      · rw [List.mem_singleton.1 h]
        exact .inr hminus
      · exact .inl (hdigits _ h)
  | decimal x =>
    rw [Number.text, Layout.write, String.toList_ofList] at h
    split at h
    · rcases List.mem_cons.1 h with rfl | h
      · exact .inr hminus
      · exact mem_writeMagnitude h
    · exact mem_writeMagnitude h

/-- A number is a single word without any mark of dice or operations. -/
theorem Number.not_mem_text (x : Number) {c : Char} (hc : c ∈ [' ', 'd', '(']) :
    c ∉ x.text.toList := by
  intro hmem
  have hmarks : ∀ c ∈ [' ', 'd', '('], c.isDigit = false ∧ c ∉ numberMarks := by
    simp [numberMarks]
  obtain ⟨hdigit, hmark⟩ := hmarks c hc
  rcases Number.mem_text hmem with h | h
  · rw [hdigit] at h
    exact Bool.false_ne_true h
  · exact hmark h

/-! ## Weights -/

/-- The number of spaces in the notation of an expression, and two more. -/
def Expression.weight (expression : Expression) : Nat := expression.text.toList.count ' ' + 2

theorem weight_number (x : Number) : (Expression.number x).weight = 2 := by
  have hspace : (Expression.number x).text.toList.count ' ' = 0 :=
    List.count_eq_zero.2 (x.not_mem_text (by simp))
  rw [Expression.weight, hspace]

theorem two_le_weight (expression : Expression) : 2 ≤ expression.weight := Nat.le_add_left 2 _

/-- Parentheses are no spaces. -/
theorem count_operandText (around : Operation) (own : Option Operation) (text : String) :
    (operandText around own text).toList.count ' ' = text.toList.count ' ' := by
  have hclosed : ("(" ++ text ++ ")").toList.count ' ' = text.toList.count ' ' := by
    rw [String.toList_append, String.toList_append, List.count_append, List.count_append]
    exact (Nat.add_zero _).trans (Nat.zero_add _)
  cases own with
  | none => rfl
  | some operation =>
    rw [operandText]
    split
    · exact hclosed
    · rfl

/-- Behind a symbol stand the two spaces around it. -/
theorem count_symbol_append (operation : Operation) (text : List Char) :
    (" ".toList ++ (operation.symbol.toList ++ (" ".toList ++ text))).count ' ' =
      text.count ' ' + 2 := by
  have hsymbol : operation.symbol.toList.count ' ' = 0 := by cases operation <;> rfl
  have hspace : " ".toList.count ' ' = 1 := by rfl
  rw [List.count_append, List.count_append, List.count_append, hsymbol, hspace]
  omega

theorem count_joined (around : Operation) (operand : Expression) :
    (operand.joined around).count ' ' = operand.weight := by
  rw [Expression.joined, count_symbol_append, count_operandText, Expression.weight]

theorem count_flatMap_joined (around : Operation) (operands : List Expression) :
    (operands.flatMap (Expression.joined around)).count ' ' =
      (operands.map Expression.weight).sum := by
  rw [List.count_flatMap]
  exact congrArg List.sum (List.map_congr_left fun operand _ => count_joined around operand)

/-- A sum or product weighs as much as its operands. -/
theorem weight_toExpression (chain : Chain) {operands : List Expression} (hne : operands ≠ []) :
    (chain.toExpression operands).weight = (operands.map Expression.weight).sum := by
  rw [← count_flatMap_joined chain.operation, ← joined_toExpression chain hne, count_symbol_append,
    Expression.weight]

/-- The notation of a power, with both operands spelled out. -/
theorem toList_power (base exponent : Expression) :
    (Expression.power base exponent).text.toList =
      (operandText .power base.operation? base.text).toList ++ exponent.joined .power := by
  rw [Expression.text, toList_operationText, List.flatMap_singleton, Expression.joined]

/-- A power weighs as much as its operands. -/
theorem weight_power (base exponent : Expression) :
    (Expression.power base exponent).weight = base.weight + exponent.weight := by
  rw [Expression.weight, toList_power, List.count_append, count_joined, count_operandText,
    Expression.weight, Expression.weight]
  omega

/-- The operands that are no numbers weigh what the numbers leave. -/
theorem sum_weight (operands : List Expression) :
    (operands.map Expression.weight).sum =
      ((Expression.kept operands).map Expression.weight).sum +
        2 * (Expression.constants operands).length := by
  induction operands with
  | nil => rfl
  | cons operand operands ih =>
    cases hnumber : operand.number? with
    | none =>
      rw [Expression.kept_cons hnumber, Expression.constants_cons hnumber, List.map_cons,
        List.map_cons, List.sum_cons, List.sum_cons, ih, Nat.add_assoc]
    | some x =>
      rw [Expression.number?_eq_some_iff.1 hnumber, Expression.kept_number_cons,
        Expression.constants_number_cons, List.map_cons, List.sum_cons, ih, weight_number,
        List.length_cons]
      omega

end DiceNotation
