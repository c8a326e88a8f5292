import DiceNotation.Proofs.Folding

/-!
# Leaves

The leaves of an expression are its dice and its checks, from left to right, and those of a written
expression are the parts that dice and checks are written as. A written leaf denotes the dice or the
check with the numbers that stand in it, and nothing else of the text around it counts.
-/

namespace DiceNotation

open Decimal

/-- Dice or a check in an expression. -/
inductive Leaf where
  /-- Dice, worth their total. -/
  | dice (set : Dice)
  /-- A check, worth its number of hits. -/
  | check (set : Check)
deriving DecidableEq, Repr

namespace Leaf

/-- The dice that are rolled for a leaf. -/
def set : Leaf → Dice
  | dice set => set
  | check set => set.dice

/-- The expression that consists of a leaf alone. -/
def expression : Leaf → Expression
  | dice set => .dice set
  | check set => .check set

end Leaf

namespace Expression

mutual

/-- The leaves of an expression, from left to right. -/
def leaves : Expression → List Leaf
  | number _ => []
  | dice set => [.dice set]
  | check set => [.check set]
  | sum terms => leavesOfAll terms
  | product factors => leavesOfAll factors
  | power base exponent => base.leaves ++ exponent.leaves
  | list entries => leavesOfAll entries
  | commented body _ _ => body.leaves

/-- The leaves of several expressions, one expression after the other. -/
def leavesOfAll : List Expression → List Leaf
  | [] => []
  | operand :: operands => operand.leaves ++ leavesOfAll operands

end

/-- The leaves of several expressions are the leaves of each of them. -/
theorem leavesOfAll_eq (operands : List Expression) :
    leavesOfAll operands = operands.flatMap leaves := by
  induction operands with
  | nil => rfl
  | cons operand operands ih => rw [leavesOfAll, ih, List.flatMap_cons]

/-- What holds of an expression if it holds of its operands holds of every one. -/
theorem induction {property : Expression → Prop} (number : ∀ x, property (.number x))
    (dice : ∀ set, property (.dice set)) (check : ∀ set, property (.check set))
    (sum : ∀ terms, (∀ term ∈ terms, property term) → property (.sum terms))
    (product : ∀ factors, (∀ factor ∈ factors, property factor) → property (.product factors))
    (power : ∀ base exponent, property base → property exponent →
      property (.power base exponent))
    (list : ∀ entries, (∀ entry ∈ entries, property entry) → property (.list entries))
    (commented : ∀ body before after, property body → property (.commented body before after))
    (expression : Expression) : property expression :=
  @Expression.rec property (fun operands => ∀ operand ∈ operands, property operand)
    number dice check sum product power list commented
    (List.forall_mem_nil _) (fun _ _ h hs => List.forall_mem_cons.2 ⟨h, hs⟩) expression

/-- The same with one case for the sums and the products. -/
theorem chain_induction {property : Expression → Prop} (number : ∀ x, property (.number x))
    (dice : ∀ set, property (.dice set)) (check : ∀ set, property (.check set))
    (chain : ∀ (chain : Chain) operands, (∀ operand ∈ operands, property operand) →
      property (chain.toExpression operands))
    (power : ∀ base exponent, property base → property exponent →
      property (.power base exponent))
    (list : ∀ entries, (∀ entry ∈ entries, property entry) → property (.list entries))
    (commented : ∀ body before after, property body → property (.commented body before after))
    (expression : Expression) : property expression :=
  induction number dice check (chain .sum) (chain .product) power list commented expression

/-- The independent expressions that an expression consists of; anything but a list is one. -/
def entries : Expression → List Expression
  | list entries => entries
  | expression => [expression]

/-! ## Notations of several expressions -/

/-- Entries are written one by one. -/
theorem texts_eq_map (entries : List Expression) : texts entries = entries.map text := by
  induction entries with
  | nil => rfl
  | cons entry entries ih => rw [texts, ih, List.map_cons]

/-- Operands are written one by one, each as its operation needs it. -/
theorem operandTexts_eq_map (around : Operation) (operands : List Expression) :
    operandTexts around operands =
      operands.map fun operand => operandText around operand.operation? operand.text := by
  induction operands with
  | nil => rfl
  | cons operand operands ih => rw [operandTexts, ih, List.map_cons]

end Expression

namespace Node

mutual

/-- The leaves of a written expression, from left to right. -/
def leaves : Node → List Node
  | integer _ => []
  | decimal _ => []
  | dice written => [dice written]
  | check written comparison threshold => [check written comparison threshold]
  | nb difficulty count => [nb difficulty count]
  | negation body => body.leaves
  | power operands => leavesOfAll operands
  | product first rest => first.leaves ++ leavesOfFactors rest
  | sum first rest => first.leaves ++ leavesOfTerms rest

/-- The leaves of several written expressions, one after the other. -/
def leavesOfAll : List Node → List Node
  | [] => []
  | node :: nodes => node.leaves ++ leavesOfAll nodes

/-- The leaves of the factors of a product. -/
def leavesOfFactors : List (FactorSign × Node) → List Node
  | [] => []
  | (_, node) :: rest => node.leaves ++ leavesOfFactors rest

/-- The leaves of the terms of a sum. -/
def leavesOfTerms : List (TermSign × Node) → List Node
  | [] => []
  | (_, node) :: rest => node.leaves ++ leavesOfTerms rest

end

/-- The leaves of several written expressions are the leaves of each of them. -/
theorem leavesOfAll_eq (nodes : List Node) : leavesOfAll nodes = nodes.flatMap leaves := by
  induction nodes with
  | nil => rfl
  | cons node nodes ih => rw [leavesOfAll, ih, List.flatMap_cons]

/-- The leaves of factors do not depend on their signs. -/
theorem leavesOfFactors_eq (rest : List (FactorSign × Node)) :
    leavesOfFactors rest = rest.flatMap fun factor => factor.2.leaves := by
  induction rest with
  | nil => rfl
  | cons factor rest ih => rw [leavesOfFactors, ih, List.flatMap_cons]

/-- The leaves of terms do not depend on their signs. -/
theorem leavesOfTerms_eq (rest : List (TermSign × Node)) :
    leavesOfTerms rest = rest.flatMap fun term => term.2.leaves := by
  induction rest with
  | nil => rfl
  | cons term rest ih => rw [leavesOfTerms, ih, List.flatMap_cons]

end Node

/-- Written dice denote the dice with their numbers; a missing count is one, and dice that explode
do so for the usual number of rounds. -/
structure WrittenDice.Denotes (written : WrittenDice) (dice : Dice) : Prop where
  /-- The number of dice is one if it is missing. -/
  count : match written.count with
    | none => dice.count = 1
    | some text => readUInt32 text.toList = some dice.count
  /-- The number of sides. -/
  sides : readUInt32 written.sides.toList = some dice.sides
  /-- The modifier with its argument. -/
  modifier : match written.modifier with
    | none => dice.modifier = none
    | some (word, text) => ∃ argument, readUInt32 text.toList = some argument ∧
        dice.modifier = some (word.modifier argument)

/-- A written leaf denotes dice or a check. -/
inductive Node.Denotes : Node → Leaf → Prop where
  /-- Dice denote dice. -/
  | dice {written : WrittenDice} {set : Dice} (h : written.Denotes set) :
    Denotes (.dice written) (.dice set)
  /-- Dice with a comparison and a threshold denote a check. -/
  | check {written : WrittenDice} {spelling threshold : String} {set : Dice}
    {comparison : Comparison} {value : UInt32} (hset : written.Denotes set)
    (hcomparison : Comparison.ofSymbol? spelling = some comparison)
    (hvalue : readUInt32 threshold.toList = some value) :
    Denotes (.check written spelling threshold) (.check ⟨set, ⟨comparison, value⟩⟩)
  /-- A short check denotes a check of six-sided dice. -/
  | nb {difficulty : Difficulty} {count : String} {value : UInt32}
    (h : readUInt32 count.toList = some value) :
    Denotes (.nb difficulty count) (.check ⟨⟨value, 6, none⟩, ⟨.atLeast, difficulty.threshold⟩⟩)

/-! ## What is built from a leaf -/

/-- Dice that are accepted can be rolled, and are left as they are. -/
theorem valid_of_validDice {dice valid : Dice} (h : validDice dice = .ok valid) :
    valid = dice ∧ dice.validate = .ok () := by
  rw [validDice] at h
  split at h
  · rename_i hvalid
    cases h
    exact ⟨rfl, hvalid⟩
  · cases h

/-- The number of dice that is written; a missing count is one. -/
def WrittenDice.number (written : WrittenDice) : Except BuildError UInt32 :=
  match written.count with
  | none => .ok 1
  | some text => readCount text

/-- The number is read first, then the sides, and then the argument of the modifier. -/
theorem WrittenDice.build_eq (written : WrittenDice) :
    written.build = written.number >>= fun count => readCount written.sides >>= fun sides =>
      match written.modifier with
        | none => validDice ⟨count, sides, none⟩
        | some (word, text) => readCount text >>= fun argument =>
          validDice ⟨count, sides, some (word.modifier argument)⟩ := by
  obtain ⟨count, sides, modifier⟩ := written
  cases count <;> cases modifier <;> rfl

/-- Everything that dice can be built from: numbers that are read, of which the first is one if it
is missing, and dice that are valid. -/
theorem WrittenDice.build_cases {written : WrittenDice} {dice : Dice}
    (h : written.build = .ok dice) :
    ∃ count sides, ((written.count = none ∧ count = 1) ∨
        ∃ text, written.count = some text ∧ readCount text = .ok count) ∧
      readCount written.sides = .ok sides ∧
      ((written.modifier = none ∧ validDice ⟨count, sides, none⟩ = .ok dice) ∨
        ∃ word text argument, written.modifier = some (word, text) ∧
          readCount text = .ok argument ∧
          validDice ⟨count, sides, some (word.modifier argument)⟩ = .ok dice) := by
  obtain ⟨counted, sided, modified⟩ := written
  rw [build_eq] at h
  obtain ⟨count, hcount, h⟩ := bind_eq_ok_iff.1 h
  obtain ⟨sides, hsides, h⟩ := bind_eq_ok_iff.1 h
  refine ⟨count, sides, ?_, hsides, ?_⟩
  · cases counted with
    | none =>
      cases hcount
      exact .inl ⟨rfl, rfl⟩
    | some text => exact .inr ⟨text, rfl, hcount⟩
  · cases modified with
    | none => exact .inl ⟨rfl, h⟩
    | some pair =>
      obtain ⟨argument, hargument, h⟩ := bind_eq_ok_iff.1 h
      exact .inr ⟨_, _, argument, rfl, hargument, h⟩

/-- A count that is accepted is the one that its digits stand for. -/
theorem readUInt32_of_readCount {text : String} {n : UInt32} (h : readCount text = .ok n) :
    readUInt32 text.toList = some n := by
  rw [readCount] at h
  split at h
  · rename_i value hread
    cases h
    exact hread
  · cases h

/-- Written dice denote what is built from them, and that can be rolled. -/
theorem WrittenDice.denotes_of_build {written : WrittenDice} {dice : Dice}
    (h : written.build = .ok dice) : written.Denotes dice ∧ dice.validate = .ok () := by
  obtain ⟨count, sides, hcount, hsides, hmodifier⟩ := build_cases h
  rcases hmodifier with ⟨hnone, hbuild⟩ | ⟨word, text, argument, hsome, hread, hbuild⟩
  all_goals
    obtain ⟨rfl, hvalid⟩ := valid_of_validDice hbuild
    refine ⟨⟨?_, readUInt32_of_readCount hsides, ?_⟩, hvalid⟩
    · rcases hcount with ⟨hmissing, rfl⟩ | ⟨digits, hdigits, hread⟩
      · rw [hmissing]
      · rw [hdigits]
        exact readUInt32_of_readCount hread
  · rw [hnone]
  · rw [hsome]
    exact ⟨argument, readUInt32_of_readCount hread, rfl⟩

/-- A check denotes what is built from it. -/
theorem Node.denotes_of_check {written : WrittenDice} {spelling threshold : String}
    {built : Expression} (h : (Node.check written spelling threshold).build = .ok built) :
    ∃ leaf, built = .check leaf ∧ (Node.check written spelling threshold).Denotes (.check leaf) ∧
      leaf.dice.validate = .ok () := by
  rw [build] at h
  obtain ⟨value, hvalue, h⟩ := bind_eq_ok_iff.1 h
  obtain ⟨condition, hcondition, h⟩ := bind_eq_ok_iff.1 h
  obtain ⟨set, hset, h⟩ := bind_eq_ok_iff.1 h
  obtain ⟨hdenotes, hvalid⟩ := WrittenDice.denotes_of_build hset
  have hcondition := mapError_eq_ok_iff.1 hcondition
  rw [Condition.ofSymbol] at hcondition
  split at hcondition
  · rename_i comparison hsymbol
    cases hcondition
    exact ⟨⟨set, ⟨comparison, value⟩⟩, (pure_eq_ok_iff.1 h).symm,
      .check hdenotes hsymbol (readUInt32_of_readCount hvalue), hvalid⟩
  · cases hcondition

/-- A short check denotes what is built from it. -/
theorem Node.denotes_of_nb {difficulty : Difficulty} {count : String} {built : Expression}
    (h : (Node.nb difficulty count).build = .ok built) :
    ∃ leaf, built = .check leaf ∧ (Node.nb difficulty count).Denotes (.check leaf) ∧
      leaf.dice.validate = .ok () := by
  rw [build] at h
  obtain ⟨value, hvalue, h⟩ := bind_eq_ok_iff.1 h
  obtain ⟨set, hset, h⟩ := bind_eq_ok_iff.1 h
  exact ⟨_, (pure_eq_ok_iff.1 h).symm, .nb (readUInt32_of_readCount hvalue),
    (valid_of_validDice hset).2⟩

/-! ## What is built -/

/-- Integers, and decimal numbers that are finite. -/
def Number.IsFinite : Number → Prop
  | integer _ => True
  | decimal x => x.isFinite = true

/-- What holds of finite numbers and of leaves that can be rolled, and is kept by the operations,
holds of everything that is built. -/
theorem Node.of_build (property : Expression → Prop)
    (number : ∀ x : Number, x.IsFinite → property (.number x))
    (dice : ∀ set : Dice, set.validate = .ok () → property (.dice set))
    (check : ∀ set : Check, set.dice.validate = .ok () → property (.check set))
    (negate : ∀ body negated, property body → body.negate = .ok negated → property negated)
    (invert : ∀ body inverted, property body → body.invert = .ok inverted → property inverted)
    (raise : ∀ operands raised, (∀ operand ∈ operands, property operand) →
      Expression.raise operands = .ok raised → property raised)
    (fold : ∀ (chain : Chain) operands folded, (∀ operand ∈ operands, property operand) →
      chain.fold operands = .ok folded → property folded)
    (node : Node) {built : Expression} (h : node.build = .ok built) : property built := by
  have hterm : ∀ (sign : TermSign) body signed, property body → sign.signed body = .ok signed →
      property signed := by
    intro sign body signed hbody hsigned
    match sign, hsigned with
    | .plus, hsigned =>
      cases hsigned
      exact hbody
    | .minus, hsigned => exact negate body signed hbody hsigned
  have hfactor : ∀ (sign : FactorSign) body signed, property body → sign.signed body = .ok signed →
      property signed := by
    intro sign body signed hbody hsigned
    match sign, hsigned with
    | .times, hsigned =>
      cases hsigned
      exact hbody
    | .over, hsigned => exact invert body signed hbody hsigned
  refine build_induction (fun _ built => property built) (fun _ _ _ => number _ trivial)
    ?decimal ?dice ?check ?nb ?negation ?power ?product ?sum node h
  case decimal =>
    -- Reading refuses every decimal number that is not finite.
    exact fun _ x hread => number (.decimal x) (Option.filter_eq_some_iff.1 hread).2
  case dice => exact fun _ set hset => dice set (WrittenDice.denotes_of_build hset).2
  case check =>
    intro written comparison threshold built h
    obtain ⟨leaf, rfl, -, hvalid⟩ := denotes_of_check h
    exact check leaf hvalid
  case nb =>
    intro difficulty count built h
    obtain ⟨leaf, rfl, -, hvalid⟩ := denotes_of_nb h
    exact check leaf hvalid
  case negation => exact fun _ operand negated hbody => negate operand negated hbody
  case power =>
    intro nodes operands raised hoperands
    exact raise operands raised (forall_mem_of_forall₂ hoperands.flip fun _ _ _ h => h)
  case product =>
    intro first rest operand factors folded hfirst hrest
    refine fold .product _ folded (List.forall_mem_cons.2 ⟨hfirst, ?_⟩)
    refine forall_mem_of_forall₂ hrest.flip fun signed factor _ h => ?_
    obtain ⟨body, hbody, hsigned⟩ := h
    exact hfactor factor.1 body signed hbody hsigned
  case sum =>
    intro first rest operand terms folded hfirst hrest
    refine fold .sum _ folded (List.forall_mem_cons.2 ⟨hfirst, ?_⟩)
    refine forall_mem_of_forall₂ hrest.flip fun signed term _ h => ?_
    obtain ⟨body, hbody, hsigned⟩ := h
    exact hterm term.1 body signed hbody hsigned

end DiceNotation
