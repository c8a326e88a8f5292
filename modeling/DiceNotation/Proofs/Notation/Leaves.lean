import DiceNotation.Proofs.Fallible
import DiceNotation.Proofs.Notation.Numerals

/-!
# The notation of leaves

The notation of a number, of dice and of a check is derivable, and what it is derivable as is built
into the same number, dice or check. A number may have a minus sign in front, and a check stands in
parentheses. The least integer is left out, since its digits without the sign fit no integer.
-/

namespace DiceNotation

open Grammar

/-- A text is derivable at a level as something with a property. -/
def Reads (lvl : Level) (text : List Char) (property : Node → Prop) : Prop :=
  ∃ tokens node, Spaced tokens text ∧ Derives lvl tokens node ∧ property node

/-- What is read with a property is read with every weaker one. -/
theorem Reads.imp {lvl : Level} {text : List Char} {property other : Node → Prop}
    (h : Reads lvl text property) (himp : ∀ node, property node → other node) :
    Reads lvl text other := by
  obtain ⟨tokens, node, hspaced, hnode, hproperty⟩ := h
  exact ⟨tokens, node, hspaced, hnode, himp node hproperty⟩

/-- What is an atom is also a negation. -/
theorem Reads.plain {text : List Char} {property : Node → Prop} (h : Reads .atom text property) :
    Reads .negation text property := by
  obtain ⟨tokens, node, hspaced, hnode, hproperty⟩ := h
  exact ⟨tokens, node, hspaced, .plain hnode, hproperty⟩

/-- A text is derivable at a level as something whose building has an outcome. -/
def ReadsAs (lvl : Level) (text : List Char) (outcome : Except BuildError Expression) : Prop :=
  ∃ tokens node, Spaced tokens text ∧ Derives lvl tokens node ∧ node.build = outcome

/-! ## Integers -/

/-- An integer as notation writes it: the digits of its absolute value, with a minus sign in front
if it is negative. -/
def writtenInteger (z : Int) : Node :=
  if 0 ≤ z then .integer z.natAbs.repr else .negation (.integer z.natAbs.repr)

/-- The digits of a number are derived as an integer. -/
theorem derives_digits (n : Nat) : Derives .atom [Nat.toDigits 10 n] (.integer n.repr) :=
  .integer (isWhole_toDigits n)

/-- An integer is derivable as it is written. -/
theorem reads_integer (z : Int64) :
    Reads .negation (Number.integer z).text.toList (· = writtenInteger z.toInt) := by
  have htext : (Number.integer z).text =
      if 0 ≤ z.toInt then z.toInt.toNat.repr else "-" ++ (-z.toInt).toNat.repr :=
    Int.repr_eq_if
  by_cases hsign : 0 ≤ z.toInt
  · have habs : z.toInt.toNat = z.toInt.natAbs := by omega
    refine ⟨_, _, ?_, .plain (derives_digits z.toInt.natAbs), (if_pos hsign).symm⟩
    rw [htext, if_pos hsign, Nat.toList_repr, habs]
    exact .single _
  · have habs : (-z.toInt).toNat = z.toInt.natAbs := by omega
    refine ⟨_, _, ?_, .negated (derives_digits z.toInt.natAbs), (if_neg hsign).symm⟩
    rw [htext, if_neg hsign, String.toList_append, Nat.toList_repr, habs]
    exact Spaced.append (.single _) (.single _)

/-- An integer that fits is built of its digits. -/
theorem build_integer_repr {n : Nat} (h : n < 2 ^ 63) :
    (Node.integer n.repr).build = .ok (.number (.integer (Int64.ofInt n))) := by
  rw [Node.build, Nat.toList_repr, readInt64_toDigits h]

/-- The negation of a number is built as a number. -/
theorem negate_number {x y : Number} (h : x.negate = .ok y) :
    Expression.negate (.number x) = .ok (.number y) := by
  rw [Expression.negate, h]
  rfl

/-- An integer is built from what it is written as, unless it is the least one. -/
theorem build_writtenInteger {z : Int64} (h : z ≠ Int64.minValue) :
    (writtenInteger z.toInt).build = .ok (.number (.integer z)) := by
  have hlow := z.le_toInt
  have hhigh := z.toInt_lt
  have hmin : z.toInt ≠ -2 ^ 63 := fun heq => h (Int64.toInt_inj.1 heq)
  rw [writtenInteger]
  split
  · have habs : (z.toInt.natAbs : Int) = z.toInt := by omega
    rw [build_integer_repr (by omega), habs, Int64.ofInt_toInt]
  · have habs : (z.toInt.natAbs : Int) = -z.toInt := by omega
    rw [Node.build, build_integer_repr (by omega), habs]
    refine negate_number ?_
    rw [Number.negate, Int64.toInt_ofInt_of_le (by omega) (by omega), Int.neg_neg, Number.ofInt,
      if_pos ⟨hlow, hhigh⟩, Int64.ofInt_toInt]

/-- An integer reads back, with its sign. -/
theorem readsAs_integer {z : Int64} (h : z ≠ Int64.minValue) :
    ReadsAs .negation (Number.integer z).text.toList (.ok (.number (.integer z))) :=
  (reads_integer z).imp fun node hnode => by rw [hnode, build_writtenInteger h]

/-! ## Dice -/

/-- The word of a modifier. -/
def Modifier.kind : Modifier → ModifierWord
  | explode _ _ => .explode
  | keepHighest _ => .highest
  | keepLowest _ => .lowest
  | rerollLowest _ => .reroll

/-- The argument of a modifier. -/
def Modifier.argument : Modifier → UInt32
  | explode threshold _ => threshold
  | keepHighest count => count
  | keepLowest count => count
  | rerollLowest count => count

/-- A modifier that notation can express: its argument is positive, and exploding dice have the
usual cap. -/
structure Modifier.Expressible (modifier : Modifier) : Prop where
  /-- The argument is not zero. -/
  positive : 0 < modifier.argument
  /-- The word and the argument say all. -/
  complete : modifier.kind.modifier modifier.argument = modifier

/-- Dice that notation can express: there is a die, it has a side, and the dice can be rolled. -/
structure Dice.Expressible (dice : Dice) : Prop where
  /-- There is a die. -/
  count : 0 < dice.count
  /-- A die has a side. -/
  sides : 0 < dice.sides
  /-- The modifier can be expressed. -/
  modifier : ∀ modifier ∈ dice.modifier, modifier.Expressible
  /-- The dice can be rolled. -/
  valid : dice.validate = .ok ()

/-- Dice as notation writes them. -/
def Dice.written (dice : Dice) : WrittenDice where
  count := some (toString dice.count)
  sides := toString dice.sides
  modifier := dice.modifier.map fun modifier => (modifier.kind, toString modifier.argument)

/-- The notation of a modifier is its word and its argument. -/
theorem Modifier.text_eq (modifier : Modifier) :
    modifier.text = modifier.kind.word ++ " " ++ toString modifier.argument := by
  cases modifier <;> rfl

/-- A count above zero is written as a positive number. -/
theorem isPositive_toString {n : UInt32} (h : 0 < n) : IsPositive (toString n).toList := by
  rw [toList_toString]
  exact isPositive_toDigits (UInt32.lt_iff_toNat_lt.1 h)

theorem isBlank_space : ∀ c ∈ " ".toList, Text.isBlank c = true := by
  decide

/-- Dice are derivable as they are written. -/
theorem Dice.Expressible.derives {dice : Dice} (h : dice.Expressible) :
    ∃ tokens, Spaced tokens dice.text.toList ∧ DerivesDice tokens dice.written := by
  obtain ⟨count, sides, modifier⟩ := dice
  have hcount := DerivesCount.written (isPositive_toString h.count)
  have hsides := isPositive_toString h.sides
  have hplain : Spaced [(toString count).toList, ['d'], (toString sides).toList]
      (toString count ++ "d" ++ toString sides).toList := by
    rw [String.toList_append, String.toList_append, List.append_assoc]
    exact (Spaced.single _).append (Spaced.append (.single ['d']) (.single _))
  cases modifier with
  | none =>
    have hdice := DerivesDice.roll hcount (.inl rfl) hsides .missing
    rw [String.ofList_toList, String.ofList_toList] at hdice
    exact ⟨_, hplain, hdice⟩
  | some modifier =>
    have hargument := isPositive_toString (h.modifier modifier rfl).positive
    have hdice := DerivesDice.roll hcount (.inl rfl) hsides (.written modifier.kind hargument)
    rw [String.ofList_toList, String.ofList_toList, String.ofList_toList] at hdice
    refine ⟨_, ?_, hdice⟩
    have hmodifier : Spaced [modifier.kind.word.toList, (toString modifier.argument).toList]
        (" " ++ modifier.text).toList := by
      rw [modifier.text_eq, String.toList_append, String.toList_append, String.toList_append,
        List.append_assoc]
      refine Spaced.blanks_append isBlank_space ?_
      exact (Spaced.single _).append (Spaced.blanks_append isBlank_space (.single _))
    have hspaced := hplain.append hmodifier
    rw [← String.toList_append, ← String.append_assoc] at hspaced
    exact hspaced

/-- Dice that can be rolled are accepted as they are. -/
theorem validDice_of_valid {dice : Dice} (h : dice.validate = .ok ()) :
    validDice dice = .ok dice := by
  rw [validDice, h]

/-- Dice are built from what they are written as. -/
theorem Dice.Expressible.build {dice : Dice} (h : dice.Expressible) :
    dice.written.build = .ok dice := by
  obtain ⟨count, sides, modifier⟩ := dice
  cases modifier with
  | none =>
    simp only [Dice.written, WrittenDice.build, readCount_toString, Option.map_none]
    exact validDice_of_valid h.valid
  | some modifier =>
    have hcomplete := (h.modifier modifier rfl).complete
    have hvalid := validDice_of_valid h.valid
    rw [← hcomplete] at hvalid
    simp only [Dice.written, WrittenDice.build, readCount_toString, Option.map_some]
    change validDice ⟨count, sides, some (modifier.kind.modifier modifier.argument)⟩ = _
    rw [hvalid, hcomplete]

/-- The notation of dice is read as these dice. -/
theorem reads_dice {dice : Dice} (h : dice.Expressible) :
    Reads .atom dice.text.toList (· = .dice dice.written) := by
  obtain ⟨tokens, hspaced, hdice⟩ := h.derives
  exact ⟨tokens, _, hspaced, .dice hdice, rfl⟩

/-- Dice are built of what their notation is read as. -/
theorem build_writtenDice {dice : Dice} (h : dice.Expressible) :
    (Node.dice dice.written).build = .ok (.dice dice) := by
  rw [Node.build, h.build]
  rfl

/-! ## Checks -/

/-- The symbol of every comparison is one that the grammar knows. -/
theorem symbol_mem_comparisons (comparison : Comparison) : comparison.symbol ∈ comparisons := by
  cases comparison <;> decide

/-- A count is written as a whole number. -/
theorem isWhole_toString (n : UInt32) : IsWhole (toString n).toList := by
  rw [toList_toString]
  exact isWhole_toDigits n.toNat

/-- A check as notation writes it, but for the parentheses around it. -/
def Check.written (check : Check) : Node :=
  .check check.dice.written check.condition.comparison.symbol (toString check.condition.value)

/-- A check is derivable as it is written, from between its parentheses. -/
theorem reads_check {check : Check} (h : check.dice.Expressible) :
    Reads .atom check.text.toList (· = check.written) := by
  obtain ⟨dice, comparison, threshold⟩ := check
  obtain ⟨tokens, hspaced, hdice⟩ := h.derives
  have hcheck := Derives.check hdice (symbol_mem_comparisons comparison)
    (isWhole_toString threshold)
  rw [String.ofList_toList] at hcheck
  refine ⟨_, _, ?_, .parentheses (.term (.factor (.base (.plain hcheck)))), rfl⟩
  have hcondition : Spaced [comparison.symbol.toList, (toString threshold).toList]
      (" ".toList ++
        (comparison.symbol.toList ++ (" ".toList ++ (toString threshold).toList))) := by
    refine Spaced.blanks_append isBlank_space ?_
    exact (Spaced.single _).append (Spaced.blanks_append isBlank_space (.single _))
  have hclosed :=
    Spaced.append (.single ['(']) ((hspaced.append hcondition).append (.single [')']))
  simp only [Check.text, Condition.text, String.toList_append, List.append_assoc] at hclosed ⊢
  exact hclosed

/-- A check is built from what it is written as. -/
theorem build_writtenCheck {check : Check} (h : check.dice.Expressible) :
    check.written.build = .ok (.check check) := by
  obtain ⟨dice, comparison, threshold⟩ := check
  have hcondition : (Condition.ofSymbol comparison.symbol threshold).mapError BuildError.dice =
      .ok ⟨comparison, threshold⟩ := by
    rw [Condition.ofSymbol, Comparison.ofSymbol?_symbol]
    rfl
  exact bind_eq_ok_iff.2 ⟨threshold, readCount_toString threshold,
    bind_eq_ok_iff.2 ⟨⟨comparison, threshold⟩, hcondition, bind_eq_ok_iff.2 ⟨dice, h.build, rfl⟩⟩⟩

end DiceNotation
