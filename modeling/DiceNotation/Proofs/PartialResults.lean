import DiceNotation.Proofs.ExactValue
import DiceNotation.Proofs.Fallible
import DiceNotation.Proofs.IntegerPowers
import DiceNotation.Proofs.Totals

/-!
# Partial results of integer calculations

A calculation with integers goes through partial results: the running sums and products of its
operations, and its powers. If all of them fit, the calculation gives the exact integer, and if one
does not, the calculation overflows. How a power is found makes no difference to that.
-/

namespace DiceNotation

/-! ## Calculations that overflow exactly if something does not fit -/

/-- A calculation settles what it is for: it gives a right result if everything fits, and overflows
if not. -/
structure Settles {α : Type} (fits : Prop) (right : α → Prop)
    (calculation : Except ArithmeticError α) : Prop where
  /-- If everything fits, the calculation gives a right result. -/
  result : fits → ∃ a, calculation = .ok a ∧ right a
  /-- If not, it overflows. -/
  overflow : ¬ fits → calculation = .error .overflow

namespace Settles

variable {α β : Type} {fits fits' : Prop} {right : α → Prop}
  {calculation : Except ArithmeticError α}

/-- A calculation with a right result settles what it is for. -/
theorem of_ok (h : ∃ a, calculation = .ok a ∧ right a) : Settles True right calculation :=
  ⟨fun _ => h, fun hnot => absurd trivial hnot⟩

/-- Equivalent conditions settle the same. -/
theorem congr (h : Settles fits right calculation) (hfits : fits' ↔ fits) :
    Settles fits' right calculation :=
  ⟨fun hall => h.result (hfits.1 hall), fun hnot => h.overflow fun hall => hnot (hfits.2 hall)⟩

/-- The second of two steps is only taken if everything fits in the first. -/
theorem bind {second : β → Prop} {next : α → Except ArithmeticError β}
    (h : Settles fits right calculation)
    (hnext : fits → ∀ a, right a → Settles fits' second (next a)) :
    Settles (fits ∧ fits') second (calculation >>= next) := by
  by_cases hfits : fits
  · obtain ⟨a, ha, hright⟩ := h.result hfits
    have hsecond := hnext hfits a hright
    rw [ha]
    exact ⟨fun hall => hsecond.result hall.2,
      fun hnot => hsecond.overflow fun hrest => hnot ⟨hfits, hrest⟩⟩
  · rw [h.overflow hfits]
    exact ⟨fun hall => absurd hall.1 hfits, fun _ => rfl⟩

/-- A last step that cannot fail makes a result out of the one before. -/
theorem bind_pure {second : β → Prop} {f : α → β} (h : Settles fits right calculation)
    (hf : ∀ a, right a → second (f a)) :
    Settles fits second (calculation >>= fun a => pure (f a)) :=
  (h.bind fun _ a ha => of_ok ⟨f a, rfl, hf a ha⟩).congr (and_iff_left trivial).symm

/-- Whatever fits, a result is right. -/
theorem of_eq_ok (h : Settles fits right calculation) {a : α} (ha : calculation = .ok a) :
    right a := by
  by_cases hfits : fits
  · obtain ⟨b, hb, hright⟩ := h.result hfits
    rw [hb] at ha
    cases ha
    exact hright
  · rw [h.overflow hfits] at ha
    cases ha

end Settles

/-! ## Operations on numbers -/

namespace Number

/-- An integer result is settled by whether it fits. -/
theorem settles_ofInt (n : Int) : Settles (Fits n) (Represents · n) (ofInt n) := by
  refine ⟨fun hfits => ?_, fun hnot => if_neg hnot⟩
  obtain ⟨z, hz, hexact⟩ := exists_ofInt hfits
  exact ⟨.integer z, hz, hexact⟩

/-- A number that represents an integer is of the integer kind. -/
theorem Represents.exists_integer {x : Number} {n : Int} (h : x.Represents n) :
    ∃ z : Int64, x = .integer z ∧ z.toInt = n := by
  cases x with
  | integer z => exact ⟨z, rfl, h⟩
  | decimal y => exact h.elim

theorem represents_zero : zero.Represents 0 := rfl

theorem represents_one : one.Represents 1 := rfl

/-- Integers are added exactly, and the sum has to fit. -/
theorem Represents.add_eq {x y : Number} {n k : Int} (hx : x.Represents n) (hy : y.Represents k) :
    x.add y = ofInt (n + k) := by
  obtain ⟨a, rfl, rfl⟩ := hx.exists_integer
  obtain ⟨b, rfl, rfl⟩ := hy.exists_integer
  rfl

/-- Integers are multiplied exactly, and the product has to fit. -/
theorem Represents.multiply_eq {x y : Number} {n k : Int} (hx : x.Represents n)
    (hy : y.Represents k) : x.multiply y = ofInt (n * k) := by
  obtain ⟨a, rfl, rfl⟩ := hx.exists_integer
  obtain ⟨b, rfl, rfl⟩ := hy.exists_integer
  rfl

/-- An integer is raised to a natural power exactly, and the power has to fit. -/
theorem Represents.power_eq {x y : Number} {n k : Int} (hx : x.Represents n) (hy : y.Represents k)
    (hk : 0 ≤ k) : x.power y = ofInt (n ^ k.toNat) := by
  obtain ⟨a, rfl, rfl⟩ := hx.exists_integer
  obtain ⟨b, rfl, rfl⟩ := hy.exists_integer
  have hnatural : 0 ≤ b := Int64.le_iff_toInt_le.mpr hk
  have hnegative : (Number.integer b).isNegative = false :=
    decide_eq_false (Int64.not_lt.mpr hnatural)
  rw [Number.power, hnegative, Bool.and_false, if_neg Bool.false_ne_true]
  exact (if_pos hnatural).trans (integerPower_eq a.toInt b.toInt.toNat)

end Number

namespace Operation

/-- The partial results of an operation on integers: running sums from 0, running products from 1,
and a power. -/
def partials : Operation → List Int → List Int
  | .sum, values => values.scanl (· + ·) 0
  | .product, values => values.scanl (· * ·) 1
  | .power, [base, exponent] => [base ^ exponent.toNat]
  | .power, _ => []

/-- A running calculation settles its last result, and all running results have to fit. -/
theorem settles_foldlM {combine : Number → Number → Except ArithmeticError Number}
    {exact : Int → Int → Int}
    (hcombine : ∀ {x y : Number} {n k : Int}, x.Represents n → y.Represents k →
      combine x y = Number.ofInt (exact n k))
    {numbers : List Number} {values : List Int}
    (hnumbers : List.Forall₂ Number.Represents numbers values) {start : Number} {n : Int}
    (hstart : start.Represents n) (hfits : Number.Fits n) :
    Settles (∀ z ∈ values.scanl exact n, Number.Fits z) (Number.Represents · (values.foldl exact n))
      (numbers.foldlM combine start) := by
  induction hnumbers generalizing start n with
  | nil =>
    refine (Settles.of_ok ⟨start, rfl, hstart⟩).congr (iff_true_intro ?_)
    exact List.forall_mem_singleton.mpr hfits
  | @cons x k numbers values hx hrest ih =>
    rw [List.foldlM_cons, List.foldl_cons, hcombine hstart hx]
    refine ((Number.settles_ofInt (exact n k)).bind fun hnext next hrepresents =>
      ih hrepresents hnext).congr ?_
    have hhead : exact n k ∈ values.scanl exact (exact n k) := by cases values <;> simp
    rw [List.scanl_cons, List.forall_mem_cons]
    exact ⟨fun hall => ⟨hall.2 _ hhead, hall.2⟩, fun hall => ⟨hfits, hall.2⟩⟩

/-- An operation on integers settles its exact result. -/
theorem settles_combine {operation : Operation} {numbers : List Number} {values : List Int}
    (hnumbers : List.Forall₂ Number.Represents numbers values)
    (hpower : operation = .power → ∃ base exponent, values = [base, exponent] ∧ 0 ≤ exponent) :
    Settles (∀ z ∈ operation.partials values, Number.Fits z)
      (Number.Represents · (operation.exact values)) (operation.combine numbers) := by
  cases operation with
  | sum =>
    rw [exact, List.sum_eq_foldl]
    exact settles_foldlM Number.Represents.add_eq hnumbers Number.represents_zero (by decide)
  | product =>
    rw [exact, List.prod_eq_foldl]
    exact settles_foldlM Number.Represents.multiply_eq hnumbers Number.represents_one (by decide)
  | power =>
    obtain ⟨base, exponent, rfl, hexponent⟩ := hpower rfl
    obtain ⟨x, rest, hx, hrest, rfl⟩ := List.forall₂_cons_right_iff.mp hnumbers
    obtain ⟨y, last, hy, hlast, rfl⟩ := List.forall₂_cons_right_iff.mp hrest
    cases hlast
    rw [partials, List.forall_mem_singleton, combine, hx.power_eq hy hexponent]
    exact Number.settles_ofInt _

end Operation

/-! ## Evaluated expressions -/

namespace Evaluated

mutual

/-- The partial results of calculating an evaluated expression exactly: those of the operands, and
then those of the operation. -/
def partials : Evaluated → List Int
  | number _ => []
  | dice _ => []
  | check _ => []
  | arithmetic operation operands =>
    partialsOfAll operands ++ operation.partials (exactAll operands)
  | list _ => []
  | commented body _ _ => body.partials

/-- The partial results of calculating several evaluated expressions. -/
def partialsOfAll : List Evaluated → List Int
  | [] => []
  | operand :: operands => operand.partials ++ partialsOfAll operands

end

/-- An evaluated expression of integers and of dice and checks of bounded size, in which no exponent
has a negative value. -/
inductive Whole : Evaluated → Prop where
  | number (z : Int64) : Whole (.number (.integer z))
  | dice {rolled : Rolled} (hsize : rolled.rolls.length ≤ maxRolls) : Whole (.dice rolled)
  | check {rolled : RolledCheck} (hsize : rolled.rolled.rolls.length ≤ maxRolls) :
    Whole (.check rolled)
  | sum {terms : List Evaluated} (hterms : ∀ term ∈ terms, Whole term) :
    Whole (.arithmetic .sum terms)
  | product {factors : List Evaluated} (hfactors : ∀ factor ∈ factors, Whole factor) :
    Whole (.arithmetic .product factors)
  | power {base exponent : Evaluated} (hbase : Whole base) (hexponent : Whole exponent)
    (hnatural : ∀ z : Int64, exponent.value = .ok (.number (.integer z)) → 0 ≤ z.toInt) :
    Whole (.arithmetic .power [base, exponent])
  | commented {body : Evaluated} {before after : Option String} (hbody : Whole body) :
    Whole (.commented body before after)

/-- An evaluated expression is settled: its value is its exact one if all partial results fit, and
an overflow if one of them does not. -/
def Settled (tree : Evaluated) : Prop :=
  Settles (∀ z ∈ tree.partials, Number.Fits z)
    (fun value => ∃ x : Number, value = .number x ∧ x.Represents tree.exact) tree.value

/-- Operands that are settled have their exact numbers, or the first that overflows does. -/
theorem settles_numbers {operands : List Evaluated} (h : ∀ operand ∈ operands, operand.Settled) :
    Settles (∀ z ∈ partialsOfAll operands, Number.Fits z)
      (List.Forall₂ Number.Represents · (exactAll operands)) (Evaluated.numbers operands) := by
  induction operands with
  | nil => exact (Settles.of_ok ⟨[], rfl, .nil⟩).congr (iff_true_intro (List.forall_mem_nil _))
  | cons operand operands ih =>
    obtain ⟨hoperand, hoperands⟩ := List.forall_mem_cons.mp h
    rw [partialsOfAll, List.forall_mem_append, Evaluated.numbers, exactAll]
    refine hoperand.bind fun _ value hvalue => ?_
    obtain ⟨x, rfl, hx⟩ := hvalue
    exact (ih hoperands).bind_pure fun numbers hnumbers => .cons hx hnumbers

/-- An operation on settled operands is settled. -/
theorem settled_arithmetic {operation : Operation} {operands : List Evaluated}
    (hoperands : ∀ operand ∈ operands, operand.Settled)
    (hpower : operation = .power → (∀ z ∈ partialsOfAll operands, Number.Fits z) →
      ∃ base exponent, exactAll operands = [base, exponent] ∧ 0 ≤ exponent) :
    (arithmetic operation operands).Settled := by
  rw [Settled, partials, List.forall_mem_append, value, exact]
  refine (settles_numbers hoperands).bind fun hfits numbers hnumbers => ?_
  exact (Operation.settles_combine hnumbers fun h => hpower h hfits).bind_pure
    fun x hx => ⟨x, rfl, hx⟩

/-- What has a value and no partial results is settled. -/
theorem settled_of_value {tree : Evaluated} (hpartials : tree.partials = [])
    (h : ∃ z : Int64, tree.value = .ok (.number (.integer z)) ∧ z.toInt = tree.exact) :
    tree.Settled := by
  obtain ⟨z, hvalue, hz⟩ := h
  refine (Settles.of_ok ⟨_, hvalue, .integer z, rfl, hz⟩).congr (iff_true_intro ?_)
  rw [hpartials]
  exact List.forall_mem_nil _

/-- Every whole expression is settled. -/
theorem Whole.settled {tree : Evaluated} (h : tree.Whole) : tree.Settled := by
  induction h with
  | number z => exact settled_of_value rfl ⟨z, rfl, rfl⟩
  | dice hsize => exact settled_of_value rfl (exists_value_dice hsize)
  | check hsize => exact settled_of_value rfl (exists_value_check hsize)
  | sum hterms ih => exact settled_arithmetic ih fun hsum => by cases hsum
  | product hfactors ih => exact settled_arithmetic ih fun hproduct => by cases hproduct
  | @power base exponent hbase hexponent hnatural ihbase ihexponent =>
    refine settled_arithmetic
      (List.forall_mem_cons.mpr ⟨ihbase, List.forall_mem_singleton.mpr ihexponent⟩)
      fun _ hfits => ⟨base.exact, exponent.exact, rfl, ?_⟩
    -- The exponent is natural because it has a value, and has one because its partial results fit.
    rw [partialsOfAll, partialsOfAll, partialsOfAll, List.append_nil,
      List.forall_mem_append] at hfits
    obtain ⟨_, hvalue, x, rfl, hx⟩ := ihexponent.result hfits.2
    obtain ⟨z, rfl, hz⟩ := hx.exists_integer
    rw [← hz]
    exact hnatural z hvalue
  | commented hbody ih => exact ih

end Evaluated

open Number in
/-- The value of an evaluated expression of integers, dice and checks is its exact value if all
partial results fit, and an overflow if one does not, also if the exact value itself would fit.
Every power of an integer with a natural exponent is exact if it fits, and overflows if not. -/
theorem value_exact_or_overflow :
    (∀ tree : Evaluated, tree.Whole →
      ((∀ z ∈ tree.partials, Fits z) →
        ∃ z : Int64, tree.value = .ok (.number (.integer z)) ∧ z.toInt = tree.exact) ∧
      ((∃ z ∈ tree.partials, ¬ Fits z) → tree.value = .error .overflow)) ∧
    ∀ base exponent : Int64, 0 ≤ exponent.toInt →
      (Fits (base.toInt ^ exponent.toInt.toNat) →
        ∃ z : Int64, (integer base).power (integer exponent) = .ok (integer z) ∧
          z.toInt = base.toInt ^ exponent.toInt.toNat) ∧
      (¬ Fits (base.toInt ^ exponent.toInt.toNat) →
        (integer base).power (integer exponent) = .error .overflow) := by
  constructor
  · intro tree htree
    have hsettled := htree.settled
    constructor
    · intro hfits
      obtain ⟨_, hvalue, x, rfl, hx⟩ := hsettled.result hfits
      obtain ⟨z, rfl, hz⟩ := hx.exists_integer
      exact ⟨z, hvalue, hz⟩
    · rintro ⟨z, hz, hfits⟩
      exact hsettled.overflow fun hall => hfits (hall z hz)
  · intro base exponent hexponent
    have hpower : (integer base).power (integer exponent) =
        ofInt (base.toInt ^ exponent.toInt.toNat) :=
      Represents.power_eq (x := .integer base) (y := .integer exponent) rfl rfl hexponent
    rw [hpower]
    exact ⟨exists_ofInt, fun hnot => if_neg hnot⟩

/-- The 63rd power of -2 is the least integer. The greatest integer has no successor, also where 1
is subtracted from it again. -/
theorem value_exact_or_overflow_least :
    let power : Evaluated := .arithmetic .power [.number (.integer (-2)), .number (.integer 63)]
    let sum : Evaluated := .arithmetic .sum [.number (.integer 9223372036854775807),
      .number (.integer 1), .number (.integer (-1))]
    power.Whole ∧ sum.Whole ∧ power.partials = [-9223372036854775808] ∧
      sum.partials = [0, 9223372036854775807, 9223372036854775808, 9223372036854775807] ∧
      power.value = .ok (.number (.integer (-9223372036854775808))) ∧
      sum.value = .error .overflow ∧
      (Number.integer (-1)).power (.integer 9223372036854775807) = .ok (.integer (-1)) := by
  intro power sum
  have hpower : power.Whole := .power (.number (-2)) (.number 63) fun z hz => by
    cases hz
    decide
  have hsum : sum.Whole := .sum (List.forall_mem_cons.mpr ⟨.number _,
    List.forall_mem_cons.mpr ⟨.number 1, List.forall_mem_singleton.mpr (.number (-1))⟩⟩)
  have hleast : power.partials = [-9223372036854775808] := by decide
  have hgreatest :
      sum.partials = [0, 9223372036854775807, 9223372036854775808, 9223372036854775807] := by
    decide
  obtain ⟨htree, hexactPower⟩ := value_exact_or_overflow
  obtain ⟨least, hvalue, hexact⟩ := (htree power hpower).1 (by rw [hleast]; decide)
  obtain rfl : least = -9223372036854775808 := Int64.toInt_inj.mp (hexact.trans (by decide))
  have hoverflow := (htree sum hsum).2 ⟨9223372036854775808, by rw [hgreatest]; decide, by decide⟩
  have hodd : Odd (9223372036854775807 : Int64).toInt.toNat := ⟨4611686018427387903, rfl⟩
  have hminus : (-1 : Int64).toInt ^ (9223372036854775807 : Int64).toInt.toNat = -1 :=
    hodd.neg_one_pow
  obtain ⟨minus, hresult, hexact⟩ :=
    (hexactPower (-1) 9223372036854775807 (by decide)).1 (by rw [hminus]; decide)
  obtain rfl : minus = -1 := Int64.toInt_inj.mp (hexact.trans hminus)
  exact ⟨hpower, hsum, hleast, hgreatest, hvalue, hoverflow, hresult⟩

end DiceNotation
