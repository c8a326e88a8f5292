import DiceNotation.Expression.Evaluation
import DiceNotation.Proofs.Keeping
import DiceNotation.Proofs.RollOrder
import DiceNotation.Proofs.SureRolls

/-!
# Totals and hits of rolled sets

No set that dice are rolled to has more than ten thousand dice, so the sum of the kept values and
the number of hits fit wherever they are calculated: the total does not overflow, the total that is
shown and the number of hits are not cut off, and both are integers that an expression is worth.
This holds of every modifier and of every source, also of one that shows values above the number of
sides.
-/

namespace DiceNotation

open Rolling

/-! ## Values -/

namespace Number

/-- What fits is represented exactly. -/
theorem exists_ofInt {n : Int} (h : Fits n) :
    ∃ z : Int64, ofInt n = .ok (.integer z) ∧ z.toInt = n :=
  ⟨Int64.ofInt n, if_pos h, Int64.toInt_ofInt_of_le h.1 h.2⟩

theorem fits_natCast {n : Nat} (h : n < 2 ^ 63) : Fits n := by
  change -2 ^ 63 ≤ (n : Int) ∧ (n : Int) < 2 ^ 63
  omega

end Number

namespace Evaluated

/-- The dice of a set of bounded size are worth the sum of the kept ones. -/
theorem exists_value_dice {rolled : Rolled} (hsize : rolled.rolls.length ≤ maxRolls) :
    ∃ z : Int64, (dice rolled).value = .ok (.number (.integer z)) ∧
      z.toInt = keptSum rolled.rolls := by
  have hsum := keptSum_le rolled.rolls
  have hfits : keptSum rolled.rolls < 2 ^ 63 := by
    rw [maxRolls] at hsize
    omega
  obtain ⟨z, hz, hexact⟩ := Number.exists_ofInt (Number.fits_natCast hfits)
  have htotal : totalOf rolled = .ok (.integer z) := by
    rw [totalOf, Rolled.total?_eq hsize]
    exact hz
  refine ⟨z, ?_, hexact⟩
  rw [value, htotal]
  rfl

/-- No check of bounded size has more hits than can be counted. -/
theorem count_eq_countP {rolled : RolledCheck} (hsize : rolled.rolled.rolls.length ≤ maxRolls) :
    rolled.count = rolled.rolled.rolls.countP rolled.isHit := by
  have hhits : rolled.rolled.rolls.countP rolled.isHit ≤ rolled.rolled.rolls.length :=
    List.countP_le_length
  rw [maxRolls] at hsize
  apply Nat.min_eq_left
  change _ ≤ 2 ^ 32 - 1
  omega

/-- A check of bounded size is worth its hits. -/
theorem exists_value_check {rolled : RolledCheck}
    (hsize : rolled.rolled.rolls.length ≤ maxRolls) :
    ∃ z : Int64, (check rolled).value = .ok (.number (.integer z)) ∧
      z.toInt = rolled.rolled.rolls.countP rolled.isHit := by
  have hhits : rolled.rolled.rolls.countP rolled.isHit ≤ rolled.rolled.rolls.length :=
    List.countP_le_length
  have hfits : rolled.rolled.rolls.countP rolled.isHit < 2 ^ 63 := by
    rw [maxRolls] at hsize
    omega
  obtain ⟨z, hz, hexact⟩ := Number.exists_ofInt (Number.fits_natCast hfits)
  refine ⟨z, ?_, hexact⟩
  rw [value, count_eq_countP hsize, hz]
  rfl

end Evaluated

/-! ## Kept values -/

namespace Rolled

/-- The values of the kept dice, in the order rolled. -/
def keptValues (rolled : Rolled) : List UInt32 := (rolled.rolls.filter Die.isKept).map Die.value

theorem keptSum_eq_sum (rolled : Rolled) :
    keptSum rolled.rolls = (rolled.keptValues.map UInt32.toNat).sum := by
  rw [keptSum_eq, keptValues, List.map_map]
  rfl

/-- The hits of a check are the kept values that meet its condition. -/
theorem countP_isHit (rolled : Rolled) (condition : Condition) :
    rolled.rolls.countP (RolledCheck.isHit ⟨rolled, condition⟩) =
      rolled.keptValues.countP condition.holds := by
  rw [keptValues, List.countP_map, List.countP_filter]
  refine List.countP_congr fun die _ => ?_
  rw [RolledCheck.isHit, Function.comp_apply, Bool.and_comm]

/-- The total that is shown of a set of bounded size is not cut off. -/
theorem shownTotal_eq {rolled : Rolled} (hsize : rolled.rolls.length ≤ maxRolls) :
    rolled.shownTotal = keptSum rolled.rolls := by
  have hsum := keptSum_le rolled.rolls
  rw [maxRolls] at hsize
  apply Nat.min_eq_left
  change _ ≤ 2 ^ 64 - 1
  omega

/-- A description ends with the total that is shown; that of a lone kept die is its value. -/
theorem exists_describe_eq {rolled : Rolled} (hshown : rolled.shownTotal = keptSum rolled.rolls)
    (limit : Option Nat) :
    ∃ listed, rolled.describe limit =
      listed ++ "**" ++ toString (keptSum rolled.rolls) ++ "**)" := by
  have hlist : ∀ items : List String,
      ∃ listed, "(" ++ " + ".intercalate items ++ " => **" ++ toString rolled.shownTotal ++ "**)" =
        listed ++ "**" ++ toString (keptSum rolled.rolls) ++ "**)" := by
    intro items
    have harrow : " => **" = " => " ++ "**" := by decide
    refine ⟨"(" ++ " + ".intercalate items ++ " => ", ?_⟩
    rw [harrow, hshown, ← String.append_assoc]
  rw [describe]
  split
  · rename_i die hrolls
    split
    · rename_i hkept
      have hvalue : keptSum rolled.rolls = die.value.toNat := by
        rw [hrolls, keptSum, if_pos hkept, keptSum, Nat.add_zero]
      rw [hvalue]
      exact ⟨"(", rfl⟩
    · exact hlist _
  · exact hlist _

/-- A set of dice without gaps and without excess, whose total and whose hits are exact wherever
they are calculated. -/
structure Bounded (rolled : Rolled) : Prop where
  /-- There are at least the dice asked for. -/
  atLeast : rolled.dice.count.toNat ≤ rolled.rolls.length
  /-- There are at most ten thousand dice. -/
  atMost : rolled.rolls.length ≤ 10000
  /-- The sum of the kept values is at most that of so many of the greatest value. -/
  sum_le : (rolled.keptValues.map UInt32.toNat).sum ≤ 10000 * (2 ^ 32 - 1)
  /-- The total is that sum. -/
  total : rolled.total? = some (rolled.keptValues.map UInt32.toNat).sum
  /-- The total that is shown is that sum. -/
  shownTotal : rolled.shownTotal = (rolled.keptValues.map UInt32.toNat).sum
  /-- A description ends with that sum. -/
  describe : ∀ limit, ∃ listed, rolled.describe limit =
    listed ++ "**" ++ toString (rolled.keptValues.map UInt32.toNat).sum ++ "**)"
  /-- The dice are worth that sum. -/
  value : ∃ z : Int64, (Evaluated.dice rolled).value = .ok (.number (.integer z)) ∧
    z.toInt = (rolled.keptValues.map UInt32.toNat).sum
  /-- A check of the dice counts the kept values that meet its condition. -/
  count : ∀ condition, RolledCheck.count ⟨rolled, condition⟩ =
    rolled.keptValues.countP condition.holds
  /-- A check of the dice is worth that number. -/
  hits : ∀ condition, ∃ z : Int64,
    (Evaluated.check ⟨rolled, condition⟩).value = .ok (.number (.integer z)) ∧
      z.toInt = rolled.keptValues.countP condition.holds

/-- A set of a size that rolling can result in is bounded. -/
theorem bounded_of_length {rolled : Rolled} (hleast : rolled.dice.count.toNat ≤ rolled.rolls.length)
    (hmost : rolled.rolls.length ≤ maxRolls) : rolled.Bounded := by
  have hsum : keptSum rolled.rolls ≤ 10000 * (2 ^ 32 - 1) :=
    (keptSum_le rolled.rolls).trans (Nat.mul_le_mul_right _ hmost)
  refine ⟨hleast, hmost, ?_, ?_, ?_, fun limit => ?_, ?_, fun condition => ?_, fun condition => ?_⟩
  · rwa [← keptSum_eq_sum]
  · rw [← keptSum_eq_sum, total?_eq hmost]
  · rw [← keptSum_eq_sum, shownTotal_eq hmost]
  · rw [← keptSum_eq_sum]
    exact exists_describe_eq (shownTotal_eq hmost) limit
  · rw [← keptSum_eq_sum]
    exact Evaluated.exists_value_dice hmost
  · rw [Evaluated.count_eq_countP hmost, countP_isHit]
  · rw [← countP_isHit]
    exact Evaluated.exists_value_check hmost

end Rolled

/-! ## Rolling and evaluating -/

/-- Whatever dice show, they end up as a bounded set of the same dice. -/
theorem Dice.always_bounded_roll (dice : Dice) :
    dice.roll.Always fun rolled => rolled.dice = dice ∧ rolled.Bounded := by
  apply Always.of_forall_ends
  intro shown rolled hends
  obtain ⟨rfl, -⟩ := Dice.shown_roll hends
  obtain ⟨hleast, hmost⟩ := rolled.dice.always_length_roll.of_ends hends
  exact ⟨rfl, Rolled.bounded_of_length hleast hmost⟩

namespace Expression

variable {property : Rolled → Prop}

theorem always_leavesOfAll {entries : List Expression}
    (h : ∀ entry ∈ entries, entry.evaluate.Always fun tree => ∀ rolled ∈ tree.leaves,
      property rolled) :
    (evaluateAll entries).Always fun trees =>
      ∀ rolled ∈ Evaluated.leavesOfAll trees, property rolled := by
  induction entries with
  | nil => exact List.forall_mem_nil _
  | cons entry entries ih =>
    obtain ⟨hentry, hentries⟩ := List.forall_mem_cons.1 h
    apply hentry.bind
    intro tree htree
    apply (ih hentries).bind
    intro trees htrees
    exact List.forall_mem_append.2 ⟨htree, htrees⟩

/-- What holds of every set that dice are rolled to holds of every leaf of an evaluated
expression. -/
theorem always_leaves (hroll : ∀ dice : Dice, dice.roll.Always property) (expression : Expression) :
    expression.evaluate.Always fun tree => ∀ rolled ∈ tree.leaves, property rolled := by
  induction expression using Expression.induction with
  | number x => exact List.forall_mem_nil _
  | dice set =>
    apply ((hroll set).mapError _).bind
    intro rolled hrolled
    exact List.forall_mem_singleton.2 hrolled
  | check set =>
    have hcheck : set.roll.Always fun rolled => property rolled.rolled :=
      (hroll set.dice).bind fun rolled hrolled => hrolled
    apply (hcheck.mapError _).bind
    intro rolled hrolled
    exact List.forall_mem_singleton.2 hrolled
  | sum terms ih => exact (always_leavesOfAll ih).bind fun trees htrees => htrees
  | product factors ih => exact (always_leavesOfAll ih).bind fun trees htrees => htrees
  | power base exponent hbase hexponent =>
    apply hbase.bind
    intro left hleft
    apply hexponent.bind
    intro right hright
    refine List.forall_mem_append.2 ⟨hleft, ?_⟩
    exact List.forall_mem_append.2 ⟨hright, List.forall_mem_nil _⟩
  | list entries ih => exact (always_leavesOfAll ih).bind fun trees htrees => htrees
  | commented body before after ih => exact ih.bind fun tree htree => htree

end Expression

/-- Whatever the dice, their modifier and the values that a source shows: if rolling succeeds, the
set has at least the dice asked for and at most ten thousand, its total is the exact sum of the kept
values wherever it is calculated, and every check of it counts the exact number of hits. So no dice
and no check in an evaluated expression are without a value. -/
theorem bounded_of_rolled {σ : Type} (source : Source σ) (state : σ) :
    (∀ (dice : Dice) (rolled : Rolled), (dice.roll.run source state).result = .ok rolled →
      rolled.dice = dice ∧ rolled.Bounded) ∧
    ∀ (expression : Expression) (tree : Evaluated),
      (expression.evaluate.run source state).result = .ok tree →
      ∀ rolled ∈ tree.leaves, rolled.Bounded := by
  constructor
  · intro dice rolled hrolled
    exact dice.always_bounded_roll.run source state hrolled
  · intro expression tree htree
    have hbounded : ∀ dice : Dice, dice.roll.Always Rolled.Bounded := fun dice =>
      dice.always_bounded_roll.imp fun rolled hrolled => hrolled.2
    exact (Expression.always_leaves hbounded expression).run source state htree

/-- A source may show more than the number of sides. The greatest value explodes like a six, and
counts in full. -/
theorem bounded_of_rolled_beyond_sides :
    let dice : Dice := ⟨2, 6, some (.explode 6 100)⟩
    let values : Supply := .listed [4294967295, 2, 3]
    let rolled : Rolled := ⟨dice, [⟨4294967295, none, none⟩, ⟨2, none, none⟩,
      ⟨3, some (.explode 6 100), none⟩]⟩
    let check : Expression := .check ⟨dice, ⟨.atLeast, 3⟩⟩
    (dice.roll.run Supply.source values).result = .ok rolled ∧ rolled.Bounded ∧
      rolled.total? = some 4294967300 ∧
      (check.evaluate.run Supply.source values).result = .ok (.check ⟨rolled, ⟨.atLeast, 3⟩⟩) ∧
      ∃ z : Int64, (Evaluated.check ⟨rolled, ⟨.atLeast, 3⟩⟩).value =
        .ok (.number (.integer z)) ∧ z.toInt = 2 := by
  intro dice values rolled check
  have hrolled : (dice.roll.run Supply.source values).result = .ok rolled := by cbv
  have htree : (check.evaluate.run Supply.source values).result =
      .ok (.check ⟨rolled, ⟨.atLeast, 3⟩⟩) := by
    cbv
  obtain ⟨hroll, hevaluate⟩ := bounded_of_rolled Supply.source values
  have hbounded := (hroll dice rolled hrolled).2
  have hleaf := hevaluate check _ htree rolled (List.mem_singleton_self rolled)
  exact ⟨hrolled, hbounded, hbounded.total, htree, hleaf.hits ⟨.atLeast, 3⟩⟩

end DiceNotation
