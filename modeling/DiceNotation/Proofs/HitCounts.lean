import DiceNotation.Proofs.HigherRolls

/-!
# Counting hits

How many hits a check of kept or rerolled dice has follows from how many of the values that were
shown meet its condition; which dice are dropped, and how ties are broken, plays no part. A
condition from below is met first by the highest values, and one from above by the lowest. Whatever
the dice, a condition and its opposite share the kept dice out between them.
-/

namespace DiceNotation

open Rolling

/-! ## Conditions -/

/-- The comparison that holds exactly where another one does not. -/
def Comparison.opposite : Comparison → Comparison
  | .equal => .notEqual
  | .notEqual => .equal
  | .greater => .atMost
  | .atLeast => .less
  | .less => .atLeast
  | .atMost => .greater

namespace Condition

/-- The condition that is met exactly where another one is not. -/
def opposite (condition : Condition) : Condition := ⟨condition.comparison.opposite, condition.value⟩

/-- A condition from below, that values are greater than a number or at least as great. -/
def FromBelow (condition : Condition) : Prop :=
  condition.comparison = .atLeast ∨ condition.comparison = .greater

/-- A condition from above, that values are less than a number or at most as great. -/
def FromAbove (condition : Condition) : Prop :=
  condition.comparison = .atMost ∨ condition.comparison = .less

instance (condition : Condition) : Decidable condition.FromBelow :=
  inferInstanceAs (Decidable (_ ∨ _))

instance (condition : Condition) : Decidable condition.FromAbove :=
  inferInstanceAs (Decidable (_ ∨ _))

/-- The opposite of a condition holds of exactly the other values. -/
theorem holds_opposite (condition : Condition) (value : UInt32) :
    condition.opposite.holds value = !condition.holds value := by
  rcases condition with ⟨comparison, bound⟩
  cases comparison with
  | equal => rfl
  | notEqual => exact (Bool.not_not _).symm
  | greater => simp [opposite, Comparison.opposite, holds, ← UInt32.not_lt]
  | atLeast => simp [opposite, Comparison.opposite, holds, ← UInt32.not_le]
  | less => simp [opposite, Comparison.opposite, holds, ← UInt32.not_lt]
  | atMost => simp [opposite, Comparison.opposite, holds, ← UInt32.not_le]

/-- A condition with a bound from below holds of every greater value. -/
theorem FromBelow.isUpward {condition : Condition} (h : condition.FromBelow) :
    IsUpward condition.holds := by
  rcases condition with ⟨comparison, bound⟩
  rcases h with rfl | rfl
  · exact isUpward_atLeast bound
  · exact isUpward_greater bound

/-- A condition with a bound from above holds of every smaller value. -/
theorem FromAbove.isDownward {condition : Condition} (h : condition.FromAbove) :
    IsDownward condition.holds := by
  rcases condition with ⟨comparison, bound⟩
  intro x y hxy hy
  rcases h with rfl | rfl
  · exact decide_eq_true (UInt32.le_trans hxy (of_decide_eq_true hy))
  · exact decide_eq_true (UInt32.lt_of_le_of_lt hxy (of_decide_eq_true hy))

end Condition

/-! ## Opposite conditions -/

/-- A kept die is a hit of a condition or of its opposite, and a dropped one of neither. -/
theorem Rolled.countP_isHit_add_opposite (rolled : Rolled) (condition : Condition) :
    rolled.rolls.countP (RolledCheck.isHit ⟨rolled, condition⟩) +
        rolled.rolls.countP (RolledCheck.isHit ⟨rolled, condition.opposite⟩) =
      rolled.rolls.countP Die.isKept := by
  have hkept : rolled.rolls.countP Die.isKept = rolled.keptValues.length := by
    rw [keptValues, List.length_map, List.countP_eq_length_filter]
  have hopposite : rolled.keptValues.countP condition.opposite.holds =
      rolled.keptValues.countP fun value => !condition.holds value :=
    List.countP_congr fun value _ => by rw [condition.holds_opposite]
  rw [countP_isHit, countP_isHit, hopposite, hkept,
    List.length_eq_countP_add_countP condition.holds]
  simp only [Bool.not_eq_true, Bool.decide_eq_false]

/-- If the kept dice can be counted, so can the hits, and none of them is counted twice. -/
theorem Rolled.count_add_opposite {rolled : Rolled}
    (h : rolled.rolls.countP Die.isKept < 2 ^ 32) (condition : Condition) :
    RolledCheck.count ⟨rolled, condition⟩ + RolledCheck.count ⟨rolled, condition.opposite⟩ =
      rolled.rolls.countP Die.isKept := by
  have hshared := rolled.countP_isHit_add_opposite condition
  have hgreatest : Nat.pow 2 32 - 1 = 2 ^ 32 - 1 := rfl
  rw [RolledCheck.count, RolledCheck.count, hgreatest]
  dsimp only
  omega

/-! ## Hits among the values that are kept -/

/-- A check that ends was worth the hits among the values that its dice keep of those shown. -/
theorem Dice.count_of_ends {dice : Dice} {shown : List ShownDie} {rolled : Rolled}
    (h : dice.roll.Ends shown rolled) (condition : Condition) :
    RolledCheck.count ⟨rolled, condition⟩ =
      (dice.keeps (shown.map ShownDie.value)).countP condition.holds := by
  rw [(dice.always_bounded_roll.of_ends h).2.count, (Dice.kept_of_ends h).countP_eq]

/-- On a source that shows dice after which a set of dice ends, a check of the set ends, and counts
the hits among the values that the set keeps. -/
theorem Check.exists_run_of_ends {σ : Type} {source : Source σ} {state rest : σ} {dice : Dice}
    {shown : List ShownDie} (hends : ∃ rolled, dice.roll.Ends shown rolled)
    (hshows : source.Shows state shown rest) (condition : Condition) :
    ∃ check : RolledCheck,
      (Check.roll ⟨dice, condition⟩).run source state = ⟨.ok check, shown, rest⟩ ∧
        check.count = (dice.keeps (shown.map ShownDie.value)).countP condition.holds := by
  obtain ⟨rolled, hends⟩ := hends
  have hcheck : (Check.roll ⟨dice, condition⟩).Ends shown ⟨rolled, condition⟩ :=
    ends_bind_pure_iff.2 ⟨rolled, hends, rfl⟩
  exact ⟨⟨rolled, condition⟩, hcheck.run hshows, Dice.count_of_ends hends condition⟩

/-- A list of values shows them in order, whatever the number of sides. -/
theorem shows_listed (sides : UInt32) (values : List UInt32) :
    Supply.source.Shows (.listed values) (values.map (ShownDie.mk sides)) (.listed []) := by
  induction values with
  | nil => exact .nothing _
  | cons value values ih => exact .die rfl ih

/-- Rerolled dice end after any original values and any new ones. -/
theorem Dice.exists_ends_of_rerollLowest {count sides again : UInt32}
    {originals fresh : List UInt32} (hcount : count ≤ maxDice) (hagain : again ≤ count)
    (horiginals : originals.length = count.toNat) (hfresh : fresh.length = again.toNat) :
    ∃ rolled, (Dice.mk count sides (some (.rerollLowest again))).roll.Ends
      ((originals ++ fresh).map (ShownDie.mk sides)) rolled := by
  obtain ⟨rolled, hends⟩ := @ends_rerollLowest
    ⟨⟨count, sides, some (.rerollLowest again)⟩, originals.map Die.original⟩ again hagain _ hfresh
  rw [List.map_append]
  exact ⟨rolled, Dice.ends_roll_of_apply hcount rfl horiginals hends⟩

/-- The hits of a check follow from how many of the values shown meet its condition. Keeping the
highest dice keeps the values that meet a condition from below before the others, and those that
meet one from above behind the others; keeping the lowest dice does the reverse. Rerolling adds the
new values that meet the condition. A condition and its opposite share the kept dice of a set out
between them, and a set that was rolled for one would have been the same for the other. -/
theorem hits_of_values :
    (∀ (count sides best : UInt32) (values : List UInt32), count ≤ maxDice →
      values.length = count.toNat →
      ∀ {σ : Type} (source : Source σ) (state rest : σ),
        source.Shows state (values.map (ShownDie.mk sides)) rest →
        ∀ condition : Condition,
          let passing := values.countP condition.holds
          let missing := values.length - passing
          ∃ highest lowest : RolledCheck,
            (Check.roll ⟨⟨count, sides, some (.keepHighest best)⟩, condition⟩).run source state =
              ⟨.ok highest, values.map (ShownDie.mk sides), rest⟩ ∧
            (Check.roll ⟨⟨count, sides, some (.keepLowest best)⟩, condition⟩).run source state =
              ⟨.ok lowest, values.map (ShownDie.mk sides), rest⟩ ∧
            (condition.FromBelow → highest.count = min best.toNat passing ∧
              lowest.count = min best.toNat values.length - missing) ∧
            (condition.FromAbove → highest.count = min best.toNat values.length - missing ∧
              lowest.count = min best.toNat passing)) ∧
    (∀ (count sides again : UInt32) (originals fresh : List UInt32), count ≤ maxDice →
      again ≤ count → originals.length = count.toNat → fresh.length = again.toNat →
      ∀ {σ : Type} (source : Source σ) (state rest : σ),
        source.Shows state ((originals ++ fresh).map (ShownDie.mk sides)) rest →
        ∀ condition : Condition, condition.FromBelow →
          ∃ rerolled : RolledCheck,
            (Check.roll ⟨⟨count, sides, some (.rerollLowest again)⟩, condition⟩).run source state =
              ⟨.ok rerolled, (originals ++ fresh).map (ShownDie.mk sides), rest⟩ ∧
            rerolled.count =
              min (count.toNat - again.toNat) (originals.countP condition.holds) +
                fresh.countP condition.holds) ∧
    (∀ rolled : Rolled, rolled.rolls.countP Die.isKept < 2 ^ 32 → ∀ condition : Condition,
      RolledCheck.count ⟨rolled, condition⟩ + RolledCheck.count ⟨rolled, condition.opposite⟩ =
        rolled.rolls.countP Die.isKept) ∧
    ∀ (dice : Dice) {σ : Type} (source : Source σ) (state : σ) (rolled : Rolled),
      (dice.roll.run source state).result = .ok rolled → ∀ condition : Condition,
        ((Check.roll ⟨dice, condition⟩).run source state).result = .ok ⟨rolled, condition⟩ ∧
        RolledCheck.count ⟨rolled, condition⟩ + RolledCheck.count ⟨rolled, condition.opposite⟩ =
          rolled.rolls.countP Die.isKept := by
  refine ⟨?_, ?_, fun rolled => Rolled.count_add_opposite, ?_⟩
  · intro count sides best values hcount hlength σ source state rest hshows condition passing
      missing
    have hkeepHighest : ∃ rolled, (Dice.mk count sides (some (.keepHighest best))).roll.Ends
        (values.map (ShownDie.mk sides)) rolled :=
      Dice.exists_ends_of_keepFirst hcount rfl hlength fun _ => rfl
    have hkeepLowest : ∃ rolled, (Dice.mk count sides (some (.keepLowest best))).roll.Ends
        (values.map (ShownDie.mk sides)) rolled :=
      Dice.exists_ends_of_keepFirst hcount rfl hlength fun _ => rfl
    obtain ⟨highest, hhighest, hhigh⟩ := Check.exists_run_of_ends hkeepHighest hshows condition
    obtain ⟨lowest, hlowest, hlow⟩ := Check.exists_run_of_ends hkeepLowest hshows condition
    rw [map_value_shown] at hhigh hlow
    refine ⟨highest, lowest, hhighest, hlowest, fun hbelow => ?_, fun habove => ?_⟩
    · rw [hhigh, hlow]
      exact ⟨countP_take_descending hbelow.isUpward values best.toNat,
        countP_take_ascending hbelow.isUpward values best.toNat⟩
    · rw [hhigh, hlow]
      exact ⟨countP_take_descending_of_downward habove.isDownward values best.toNat,
        countP_take_ascending_of_downward habove.isDownward values best.toNat⟩
  · intro count sides again originals fresh hcount hagain horiginals hfresh σ source state rest
      hshows condition hbelow
    obtain ⟨rerolled, hrun, hhits⟩ := Check.exists_run_of_ends
      (Dice.exists_ends_of_rerollLowest hcount hagain horiginals hfresh) hshows condition
    have hkeeps : (Dice.mk count sides (some (.rerollLowest again))).keeps (originals ++ fresh) =
        (descending originals).take (count.toNat - again.toNat) ++ fresh :=
      Modifier.keeps_rerollLowest horiginals
    refine ⟨rerolled, hrun, ?_⟩
    rw [hhits, map_value_shown, hkeeps, List.countP_append,
      countP_take_descending hbelow.isUpward]
  · intro dice σ source state rolled hrolled condition
    have hsize : rolled.rolls.length ≤ maxRolls :=
      (dice.always_length_roll.run source state hrolled).2
    have hkept : rolled.rolls.countP Die.isKept < 2 ^ 32 :=
      Nat.lt_of_le_of_lt (List.countP_le_length.trans hsize) (by decide)
    exact ⟨Check.result_run hrolled condition, Rolled.count_add_opposite hkept condition⟩

/-- Of 5, 6, 5 and 2, three values are at least 5 and three are at most 5. The highest two are hits
of the first kind, of which there are no more than two, and the lowest two hold a single one; of the
second kind there is a single hit among the highest two. Where two of 3, 1, 5 and 3 are rerolled to
1 and 6, the values that are at least 3 are the two highest originals and the 6. -/
theorem hits_of_values_four :
    let kept : List UInt32 := [5, 6, 5, 2]
    let rerolled : List UInt32 := [3, 1, 5, 3, 1, 6]
    let hits (modifier : Modifier) (condition : Condition) (values : List UInt32) (hits : Nat) :=
      ∃ check : RolledCheck,
        (Check.roll ⟨⟨4, 6, some modifier⟩, condition⟩).run Supply.source (.listed values) =
          ⟨.ok check, values.map (ShownDie.mk 6), .listed []⟩ ∧ check.count = hits
    hits (.keepHighest 2) ⟨.atLeast, 5⟩ kept 2 ∧ hits (.keepLowest 2) ⟨.atLeast, 5⟩ kept 1 ∧
      hits (.keepHighest 2) ⟨.atMost, 5⟩ kept 1 ∧ hits (.keepLowest 2) ⟨.atMost, 5⟩ kept 2 ∧
      hits (.rerollLowest 2) ⟨.atLeast, 3⟩ rerolled 3 := by
  intro kept rerolled hits
  obtain ⟨hkeep, hreroll, -⟩ := hits_of_values
  have hkept := hkeep 4 6 2 kept (by decide) rfl Supply.source _ _ (shows_listed 6 kept)
  obtain ⟨highest, lowest, hhighest, hlowest, hbelow, -⟩ := hkept ⟨.atLeast, 5⟩
  obtain ⟨highest', lowest', hhighest', hlowest', -, habove⟩ := hkept ⟨.atMost, 5⟩
  obtain ⟨check, hcheck, hcount⟩ := hreroll 4 6 2 [3, 1, 5, 3] [1, 6] (by decide) (by decide) rfl
    rfl Supply.source _ _ (shows_listed 6 rerolled) ⟨.atLeast, 3⟩ (by decide)
  exact ⟨⟨highest, hhighest, (hbelow (by decide)).1.trans (by decide)⟩,
    ⟨lowest, hlowest, (hbelow (by decide)).2.trans (by decide)⟩,
    ⟨highest', hhighest', (habove (by decide)).1.trans (by decide)⟩,
    ⟨lowest', hlowest', (habove (by decide)).2.trans (by decide)⟩,
    ⟨check, hcheck, hcount.trans (by decide)⟩⟩

end DiceNotation
