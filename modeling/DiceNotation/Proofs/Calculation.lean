import DiceNotation.Proofs.IntegerPowers
import DiceNotation.Proofs.Outcomes
import DiceNotation.Proofs.RollOrder
import DiceNotation.Proofs.SureRolls

/-!
# Calculations that end in a number

What is built from a text can always be evaluated, and its tree is made for calculation: every set
of dice has a total, no list stands where a number is needed, and a power has two operands. So the
only reasons for which it has no value are those of arithmetic itself, which are an overflow, a
division by zero, and a result that is not real.
-/

namespace DiceNotation

open Rolling

/-! ## Numbers -/

/-- A calculation with numbers fails because it overflows, divides by zero or has no real result. -/
inductive ArithmeticError.IsNumeric : ArithmeticError → Prop where
  /-- The result lies outside the range of its kind of number. -/
  | overflow : IsNumeric .overflow
  /-- The divisor is zero. -/
  | divisionByZero : IsNumeric .divisionByZero
  /-- The result is not a real number. -/
  | notReal : IsNumeric .notReal

namespace Number

/-- An integer that does not fit is an overflow. -/
theorem isNumeric_ofInt {z : Int} {cause : ArithmeticError} (h : ofInt z = .error cause) :
    cause.IsNumeric := by
  rw [ofInt] at h
  split at h
  · cases h
  · cases h
    exact .overflow

/-- A decimal result that is refused is infinite or not real. -/
theorem isNumeric_ofFloat {x : Float} {cause : ArithmeticError} (h : ofFloat x = .error cause) :
    cause.IsNumeric := by
  rw [ofFloat] at h
  split at h
  · cases h
    exact .notReal
  · split at h <;> cases h
    exact .overflow

/-- Adding and multiplying numbers fail for a reason of arithmetic. -/
theorem isNumeric_combine {chain : Chain} {x y : Number} {cause : ArithmeticError}
    (h : chain.combine x y = .error cause) : cause.IsNumeric := by
  cases chain <;> cases x <;> cases y
  all_goals first | exact isNumeric_ofInt h | exact isNumeric_ofFloat h

/-- A power of integers fails because it does not fit. -/
theorem isNumeric_integerPower {base : Int} {exponent : Nat} {cause : ArithmeticError}
    (h : integerPower base exponent = .error cause) : cause.IsNumeric := by
  rw [integerPower_eq] at h
  exact isNumeric_ofInt h

/-- A power of numbers fails for a reason of arithmetic. -/
theorem isNumeric_power {x y : Number} {cause : ArithmeticError} (h : x.power y = .error cause) :
    cause.IsNumeric := by
  rw [power.eq_def] at h
  split at h
  · cases h
    exact .divisionByZero
  · split at h
    · split at h
      · exact isNumeric_integerPower h
      · exact isNumeric_ofFloat h
    · exact isNumeric_ofFloat h

/-- The first step of a sum or product that fails does so for a reason of arithmetic. -/
theorem isNumeric_foldlM {chain : Chain} {start : Number} {numbers : List Number}
    {cause : ArithmeticError} (h : numbers.foldlM chain.combine start = .error cause) :
    cause.IsNumeric := by
  induction numbers generalizing start with
  | nil => cases h
  | cons x numbers ih =>
    rw [List.foldlM_cons] at h
    rcases bind_eq_error_iff.1 h with h | ⟨next, -, h⟩
    · exact isNumeric_combine h
    · exact ih h

end Number

/-- An operation on numbers can only fail as arithmetic does, if a power has two operands. -/
theorem Operation.isNumeric_combine {operation : Operation} {numbers : List Number}
    {cause : ArithmeticError} (hpower : operation = .power → numbers.length = 2)
    (h : operation.combine numbers = .error cause) : cause.IsNumeric := by
  cases operation with
  | sum => exact @Number.isNumeric_foldlM .sum _ _ _ h
  | product => exact @Number.isNumeric_foldlM .product _ _ _ h
  | power =>
    obtain ⟨base, exponent, rfl⟩ := List.length_eq_two.1 (hpower rfl)
    exact Number.isNumeric_power h

/-! ## Trees -/

namespace Evaluated

/-- A tree that can be calculated, up to faults of arithmetic. -/
structure Calculable (tree : Evaluated) : Prop where
  /-- Every set of dice has a total. -/
  totals : ∀ rolled ∈ tree.leaves, rolled.total?.isSome = true
  /-- The value is a single number. -/
  number : ∀ value, tree.value = .ok value → ∃ x, value = .number x
  /-- If there is no value, arithmetic is the reason. -/
  cause : ∀ cause, tree.value = .error cause → cause.IsNumeric

/-- Dice that have a total are only worth nothing if it does not fit a number. -/
theorem isNumeric_totalOf {rolled : Rolled} (htotal : rolled.total?.isSome = true)
    {cause : ArithmeticError} (h : totalOf rolled = .error cause) : cause.IsNumeric := by
  obtain ⟨total, hsome⟩ := Option.isSome_iff_exists.1 htotal
  rw [totalOf, hsome] at h
  exact Number.isNumeric_ofInt h

namespace Calculable

/-- A tree whose value is a calculated number. -/
theorem of_single {tree : Evaluated} (calculation : Except ArithmeticError Number)
    (htotals : ∀ rolled ∈ tree.leaves, rolled.total?.isSome = true)
    (hvalue : tree.value = calculation >>= fun x => pure (.number x))
    (hcause : ∀ cause, calculation = .error cause → cause.IsNumeric) : tree.Calculable := by
  refine ⟨htotals, fun value h => ?_, fun cause h => ?_⟩
  · rw [hvalue] at h
    obtain ⟨x, -, h⟩ := bind_eq_ok_iff.1 h
    exact ⟨x, (pure_eq_ok_iff.1 h).symm⟩
  · rw [hvalue] at h
    rcases bind_eq_error_iff.1 h with h | ⟨x, -, h⟩
    · exact hcause cause h
    · cases h

/-- A number is its own value. -/
theorem of_number (x : Number) : (Evaluated.number x).Calculable := by
  refine of_single (.ok x) (List.forall_mem_nil _) rfl fun cause h => ?_
  cases h

/-- Dice of bounded size are worth their total. -/
theorem of_dice {rolled : Rolled} (h : rolled.rolls.length ≤ maxRolls) :
    (Evaluated.dice rolled).Calculable :=
  of_single (totalOf rolled) (List.forall_mem_singleton.2 (Rolled.total?_isSome h)) (by rw [value])
    fun _ => isNumeric_totalOf (Rolled.total?_isSome h)

/-- A check of bounded size is worth its hits. -/
theorem of_check {check : RolledCheck} (h : check.rolled.rolls.length ≤ maxRolls) :
    (Evaluated.check check).Calculable :=
  of_single (Number.ofInt check.count) (List.forall_mem_singleton.2 (Rolled.total?_isSome h))
    (by rw [value]) fun _ => Number.isNumeric_ofInt

/-- Comments change neither the value nor the leaves. -/
theorem of_commented {body : Evaluated} (h : body.Calculable) (before after : Option String) :
    (Evaluated.commented body before after).Calculable := by
  refine ⟨h.totals, fun value hvalue => ?_, fun cause hcause => ?_⟩
  · rw [Evaluated.value] at hvalue
    exact h.number value hvalue
  · rw [Evaluated.value] at hcause
    exact h.cause cause hcause

/-- The leaves of several trees are the leaves of each of them. -/
theorem mem_leavesOfAll {operands : List Evaluated} {rolled : Rolled} :
    rolled ∈ leavesOfAll operands ↔ ∃ operand ∈ operands, rolled ∈ operand.leaves := by
  induction operands with
  | nil => simp [leavesOfAll]
  | cons operand operands ih => simp [leavesOfAll, ih]

/-- The numbers of operands fail to exist only as arithmetic does. -/
theorem isNumeric_numbers {operands : List Evaluated}
    (h : ∀ operand ∈ operands, operand.Calculable) {cause : ArithmeticError}
    (hcause : numbers operands = .error cause) : cause.IsNumeric := by
  induction operands with
  | nil => cases hcause
  | cons operand operands ih =>
    obtain ⟨hoperand, hoperands⟩ := List.forall_mem_cons.1 h
    rw [numbers] at hcause
    rcases bind_eq_error_iff.1 hcause with hvalue | ⟨value, hvalue, hrest⟩
    · exact hoperand.cause cause hvalue
    · obtain ⟨x, rfl⟩ := hoperand.number value hvalue
      rcases bind_eq_error_iff.1 hrest with hnumber | ⟨y, -, hrest⟩
      · cases hnumber
      · rcases bind_eq_error_iff.1 hrest with hnumbers | ⟨others, -, hpure⟩
        · exact ih hoperands hnumbers
        · cases hpure

/-- An operation on trees that can be calculated, if a power has two operands. -/
theorem of_arithmetic {operation : Operation} {operands : List Evaluated}
    (hpower : operation = .power → operands.length = 2)
    (h : ∀ operand ∈ operands, operand.Calculable) :
    (Evaluated.arithmetic operation operands).Calculable := by
  refine of_single (numbers operands >>= operation.combine) ?_ ?_ ?_
  · intro rolled hmem
    obtain ⟨operand, hoperand, hrolled⟩ := mem_leavesOfAll.1 hmem
    exact (h operand hoperand).totals rolled hrolled
  · rw [value]
    cases numbers operands <;> rfl
  · intro cause hcause
    rcases bind_eq_error_iff.1 hcause with hnumbers | ⟨numbers, hnumbers, hcombine⟩
    · exact isNumeric_numbers h hnumbers
    · refine operation.isNumeric_combine (fun heq => ?_) hcombine
      rw [← (forall₂_of_numbers hnumbers).length_eq, hpower heq]

end Calculable

end Evaluated

/-! ## Expressions -/

namespace Expression

/-- Evaluating the expression never fails, and results in a tree that can be calculated. -/
def Calculable (expression : Expression) : Prop := expression.evaluate.Surely Evaluated.Calculable

/-- Operands that can be calculated are evaluated one after another without fail. -/
theorem surely_evaluateAll {operands : List Expression}
    (h : ∀ operand ∈ operands, operand.Calculable) :
    (evaluateAll operands).Surely fun trees => ∀ tree ∈ trees, tree.Calculable := by
  induction operands with
  | nil => exact List.forall_mem_nil _
  | cons operand operands ih =>
    obtain ⟨hoperand, hoperands⟩ := List.forall_mem_cons.1 h
    rw [evaluateAll]
    apply hoperand.bind
    intro tree htree
    apply (ih hoperands).bind
    intro trees htrees
    exact List.forall_mem_cons.2 ⟨htree, htrees⟩

namespace Calculable

/-- A number needs no dice. -/
theorem of_number (x : Number) : (Expression.number x).Calculable :=
  Evaluated.Calculable.of_number x

/-- Dice that can be rolled are rolled to a set of bounded size. -/
theorem of_dice {set : Dice} (h : set.validate = .ok ()) : (Expression.dice set).Calculable :=
  ((Dice.surely_roll h).mapError _).bind fun _ hsize => Evaluated.Calculable.of_dice hsize

/-- A check of dice that can be rolled is rolled to a set of bounded size. -/
theorem of_check {set : Check} (h : set.dice.validate = .ok ()) :
    (Expression.check set).Calculable := by
  have hroll : set.roll.Surely fun rolled => rolled.rolled.rolls.length ≤ maxRolls :=
    (Dice.surely_roll h).bind fun _ hsize => hsize
  exact (hroll.mapError _).bind fun _ hsize => Evaluated.Calculable.of_check hsize

/-- A sum or product can be calculated if its operands can. -/
theorem of_chain {chain : Chain} {operands : List Expression}
    (h : ∀ operand ∈ operands, operand.Calculable) : (chain.toExpression operands).Calculable := by
  cases chain <;>
  · apply (surely_evaluateAll h).bind
    intro trees htrees
    exact Evaluated.Calculable.of_arithmetic (fun hpower => by cases hpower) htrees

/-- A power has its two operands, so it can be calculated if they can. -/
theorem of_power {base exponent : Expression} (hbase : base.Calculable)
    (hexponent : exponent.Calculable) : (Expression.power base exponent).Calculable := by
  apply Surely.bind hbase
  intro left hleft
  apply Surely.bind hexponent
  intro right hright
  exact Evaluated.Calculable.of_arithmetic (fun _ => rfl)
    (List.forall_mem_cons.2 ⟨hleft, List.forall_mem_singleton.2 hright⟩)

/-- An expression with comments can be calculated if it can without them. -/
theorem withComments {body : Expression} (h : body.Calculable) (before after : Option String) :
    (body.withComments before after).Calculable := by
  have hcommented : ∀ before after, (Expression.commented body before after).Calculable := by
    intro before after
    apply Surely.bind h
    intro tree htree
    exact htree.of_commented before after
  cases before <;> cases after
  · exact h
  all_goals exact hcommented _ _

/-- Folding operands that can be calculated results in an expression that can. -/
theorem fold {chain : Chain} {operands : List Expression} {folded : Expression}
    (ho : ∀ operand ∈ operands, operand.Calculable) (h : chain.fold operands = .ok folded) :
    folded.Calculable := by
  have hkept : ∀ operand ∈ kept operands, operand.Calculable :=
    fun operand hoperand => ho operand (mem_kept.1 hoperand).1
  obtain ⟨residual, -, ⟨-, rfl⟩ | ⟨-, hsingle⟩ | ⟨-, -, rfl⟩ | ⟨-, -, rfl⟩⟩ :=
    Chain.fold_cases h
  · exact of_number residual
  · exact hkept folded (hsingle ▸ List.mem_singleton_self folded)
  · exact of_chain hkept
  · exact of_chain (List.forall_mem_append.2
      ⟨hkept, List.forall_mem_singleton.2 (of_number residual)⟩)

/-- The negation of what can be calculated can be calculated. -/
theorem negate {body negated : Expression} (hb : body.Calculable) (h : body.negate = .ok negated) :
    negated.Calculable := by
  rcases negate_cases h with ⟨x, y, -, -, rfl⟩ | ⟨-, rfl⟩
  · exact of_number y
  · exact @of_chain .product _
      (List.forall_mem_cons.2 ⟨of_number _, List.forall_mem_singleton.2 hb⟩)

/-- The inverse of what can be calculated can be calculated. -/
theorem invert {body inverted : Expression} (hb : body.Calculable)
    (h : body.invert = .ok inverted) : inverted.Calculable := by
  rcases invert_cases h with ⟨x, y, -, -, rfl⟩ | ⟨-, rfl⟩
  · exact of_number y
  · exact of_power hb (of_number _)

/-- A power that is built of operands that can be calculated can be calculated. -/
theorem raise {operands : List Expression} {raised : Expression}
    (ho : ∀ operand ∈ operands, operand.Calculable) (h : Expression.raise operands = .ok raised) :
    raised.Calculable := by
  obtain ⟨base, exponent, rfl, ⟨x, y, z, -, -, -, rfl⟩ | ⟨-, rfl⟩⟩ := raise_cases h
  · exact of_number z
  · obtain ⟨hbase, hexponent⟩ := List.forall_mem_cons.1 ho
    exact of_power hbase (List.forall_mem_singleton.1 hexponent)

end Calculable

end Expression

/-- What is built can be evaluated and calculated. -/
theorem Node.calculable_of_build (node : Node) {built : Expression} (h : node.build = .ok built) :
    built.Calculable := by
  refine of_build Expression.Calculable (fun x _ => .of_number x) ?_ ?_ ?_ ?_ ?_ ?_ node h
  · exact fun _ hvalid => .of_dice hvalid
  · exact fun _ hvalid => .of_check hvalid
  · exact fun _ _ hbody hnegate => hbody.negate hnegate
  · exact fun _ _ hbody hinvert => hbody.invert hinvert
  · exact fun _ _ hoperands hraise => .raise hoperands hraise
  · exact fun _ _ _ hoperands hfold => .fold hoperands hfold

/-- Numbers are folded into a number. -/
theorem Expression.exists_number_of_fold {chain : Chain} {operands : List Expression}
    {folded : Expression} (h : chain.fold operands = .ok folded)
    (hoperands : ∀ operand ∈ operands, ∃ x, operand = .number x) : ∃ x, folded = .number x := by
  have hkept : kept operands = [] := by
    refine List.eq_nil_iff_forall_not_mem.2 fun operand hmem => ?_
    obtain ⟨hoperand, hrandom⟩ := mem_kept.1 hmem
    obtain ⟨x, rfl⟩ := hoperands operand hoperand
    cases hrandom
  obtain ⟨residual, -, ⟨-, rfl⟩ | ⟨-, hsingle⟩ | ⟨-, htwo, -⟩ | ⟨-, hne, -⟩⟩ := Chain.fold_cases h
  · exact ⟨residual, rfl⟩
  · rw [hkept] at hsingle
    cases hsingle
  · rw [hkept] at htwo
    cases htwo
  · exact absurd hkept hne

/-- Without leaves, everything is folded into a number. -/
theorem Node.number_of_build (node : Node) {built : Expression} (h : node.build = .ok built)
    (hleaves : node.leaves = []) : ∃ x, built = .number x := by
  have hbuilt : built.leaves = [] := by
    have hall := node.becomes_leaves h
    rw [hleaves] at hall
    exact List.forall₂_nil_left_iff.1 hall
  refine of_build (fun built => built.leaves = [] → ∃ x, built = .number x) (fun x _ _ => ⟨x, rfl⟩)
    ?_ ?_ ?_ ?_ ?_ ?_ node h hbuilt
  · intro set _ hnone
    cases hnone
  · intro set _ hnone
    cases hnone
  · intro body negated hbody hnegate hnone
    rw [Expression.leaves_negate hnegate] at hnone
    obtain ⟨x, rfl⟩ := hbody hnone
    obtain ⟨_, y, -, -, rfl⟩ | ⟨hrandom, -⟩ := Expression.negate_cases hnegate
    · exact ⟨y, rfl⟩
    · cases hrandom
  · intro body inverted hbody hinvert hnone
    rw [Expression.leaves_invert hinvert] at hnone
    obtain ⟨x, rfl⟩ := hbody hnone
    obtain ⟨_, y, -, -, rfl⟩ | ⟨hrandom, -⟩ := Expression.invert_cases hinvert
    · exact ⟨y, rfl⟩
    · cases hrandom
  · intro operands raised hoperands hraise hnone
    rw [Expression.leaves_raise hraise, List.flatMap_eq_nil_iff] at hnone
    obtain ⟨base, exponent, rfl, ⟨x, y, z, -, -, -, rfl⟩ | ⟨hrandom, -⟩⟩ :=
      Expression.raise_cases hraise
    · exact ⟨z, rfl⟩
    · obtain ⟨x, rfl⟩ := hoperands base List.mem_cons_self (hnone base List.mem_cons_self)
      have hlast : exponent ∈ [Expression.number x, exponent] :=
        List.mem_cons_of_mem _ (List.mem_singleton_self exponent)
      obtain ⟨y, rfl⟩ := hoperands exponent hlast (hnone exponent hlast)
      rcases hrandom with hrandom | hrandom <;> cases hrandom
  · intro chain operands folded hoperands hfold hnone
    rw [Expression.leaves_fold hfold, List.flatMap_eq_nil_iff] at hnone
    exact Expression.exists_number_of_fold hfold fun operand hmem =>
      hoperands operand hmem (hnone operand hmem)

/-- An entry that can be worth nothing has leaves, and arithmetic is the reason. -/
theorem Entry.leaves_of_worthless {entry : Entry} {expression : Expression}
    {cause : ArithmeticError} (hbuild : entry.build = .ok expression)
    (h : expression.Worthless cause) : entry.node.leaves ≠ [] ∧ cause.IsNumeric := by
  obtain ⟨body, hbody, rfl⟩ := Entry.exists_of_build hbuild
  obtain ⟨shown, tree, hends, hvalue⟩ := h
  obtain ⟨inner, hinner, rfl⟩ := Expression.ends_evaluate_withComments_iff.1 hends
  rw [Evaluated.value_withComments] at hvalue
  have hcalculable := (entry.node.calculable_of_build hbody).of_ends hinner
  refine ⟨fun hnone => ?_, hcalculable.cause cause hvalue⟩
  obtain ⟨x, rfl⟩ := entry.node.number_of_build hbody hnone
  obtain ⟨-, rfl⟩ := ends_pure_iff.1 hinner
  cases hvalue

/-- The expression of some entries can be evaluated, and every set of dice has a total. -/
theorem Expression.surely_evaluate {entries : List Entry} {expression : Expression}
    (h : ofEntries entries = .ok expression) :
    expression.evaluate.Surely fun tree => ∀ rolled ∈ tree.leaves, rolled.total?.isSome = true := by
  have hentries : ∀ entry ∈ expression.entries, entry.Calculable := by
    refine forall_mem_of_forall₂ (forall₂_of_ofEntries h).flip fun built entry _ hentry => ?_
    obtain ⟨body, hbody, rfl⟩ := Entry.exists_of_build hentry
    exact (entry.node.calculable_of_build hbody).withComments _ _
  cases expression with
  | list expressions =>
    apply (surely_evaluateAll hentries).bind
    intro trees htrees rolled hmem
    obtain ⟨tree, htree, hrolled⟩ := Evaluated.Calculable.mem_leavesOfAll.1 hmem
    exact (htrees tree htree).totals rolled hrolled
  | _ => exact (hentries _ (List.mem_singleton_self _)).imp fun tree htree => htree.totals

end DiceNotation
