import DiceNotation.Proofs.Keeping
import DiceNotation.Proofs.RollOrder
import DiceNotation.Proofs.Streams
import DiceNotation.Proofs.SureRolls

/-!
# Rerolling the lowest dice

Rerolling keeps the highest of the dice that are there, as many as are asked for less the rerolled
ones, and puts a new die behind them for each one that is rerolled. The new dice all stay, also
where they show less than a die that was dropped. Of dice that were just rolled, as many are kept in
the end as were rolled first, and their total is that of the highest first values and of all new
ones.
-/

namespace DiceNotation

open Rolling

/-! ## Applying a reroll -/

/-- If no more dice are rerolled than are asked for, the best dice stay, and then as many new ones
as are rerolled are asked for and put behind them. -/
theorem exists_apply_rerollLowest {rolled : Rolled} {count : UInt32}
    (h : count ≤ rolled.dice.count) :
    let modifier := Modifier.rerollLowest count
    ∃ left,
      KeepsBest (fun x y => y < x) modifier (rolled.dice.count.toNat - count.toNat) rolled
        { rolled with rolls := left } ∧
      modifier.apply rolled = .askMany rolled.dice.sides count.toNat fun values =>
        pure { rolled with rolls := left ++ values.map (Die.added modifier) } := by
  intro modifier
  obtain ⟨left, hkeep, hbest⟩ := ranks_higherFirst.keepsBest modifier
    (rolled.dice.count.toNat - count.toNat) rolled
  refine ⟨left, hbest, ?_⟩
  rw [Modifier.apply, if_neg (UInt32.not_lt.2 h), hkeep]
  change (rollAdded modifier rolled.dice.sides count.toNat >>= fun added =>
    pure { rolled with rolls := left ++ added }) = _
  simp only [rollAdded, addedDice_eq, askMany_bind]
  rfl

/-! ## Rolling dice and rerolling the lowest -/

/-- New dice count with their values. -/
theorem keptSum_added (modifier : Modifier) (values : List UInt32) :
    keptSum (values.map (Die.added modifier)) = (values.map UInt32.toNat).sum := by
  rw [keptSum_eq, List.filter_eq_self.2 (isKept_added modifier values), List.map_map]
  rfl

/-- A set of dice that shows some original values and some fresh ones, after its lowest dice were
rerolled and some number of the originals have stayed. -/
structure Rolled.Rerolled (rolled : Rolled) (modifier : Modifier) (stay : Nat)
    (originals fresh : List UInt32) : Prop where
  /-- The highest originals stay kept in their places, and the fresh values stand behind the
  originals on dice that the modifier added, all of them kept. -/
  rolls : ∃ left, rolled.rolls = left ++ fresh.map (Die.added modifier) ∧
    KeepsBest (fun x y => y < x) modifier stay ⟨rolled.dice, originals.map Die.original⟩
      ⟨rolled.dice, left⟩
  /-- The kept dice are the originals that stay and the fresh dice. -/
  kept : rolled.rolls.countP Die.isKept = stay + fresh.length
  /-- The total counts the highest originals and all fresh values. -/
  total : ∃ sorted : List UInt32, sorted.Perm originals ∧ sorted.Pairwise (fun x y => y ≤ x) ∧
    rolled.total? = some (((sorted.take stay).map UInt32.toNat).sum +
      (fresh.map UInt32.toNat).sum)

/-- Dice that stay as the best ones of the originals, and fresh dice behind them, make up a set with
the lowest dice rerolled. -/
theorem KeepsBest.rerolled {dice : Dice} {modifier : Modifier} {stay : Nat}
    {originals fresh : List UInt32} {left : List Die}
    (h : KeepsBest (fun x y => y < x) modifier stay ⟨dice, originals.map Die.original⟩ ⟨dice, left⟩)
    (hstay : stay ≤ originals.length)
    (hsize : (left ++ fresh.map (Die.added modifier)).length ≤ maxRolls) :
    (Rolled.mk dice (left ++ fresh.map (Die.added modifier))).Rerolled modifier stay originals
      fresh := by
  have hkept : left.countP Die.isKept = stay := by
    have hall : (originals.map Die.original).countP Die.isKept = originals.length := by
      rw [List.countP_eq_length.2 (isKept_original originals), List.length_map]
    have hbest : left.countP Die.isKept = min stay _ := h.kept
    rw [hbest, hall]
    exact Nat.min_eq_left hstay
  have hfresh : (fresh.map (Die.added modifier)).countP Die.isKept = fresh.length := by
    rw [List.countP_eq_length.2 (isKept_added modifier fresh), List.length_map]
  obtain ⟨sorted, hperm, hsorted, hsum, -⟩ := h.total (isKept_original originals)
  rw [map_value_original] at hperm
  refine ⟨⟨left, rfl, h⟩, ?_, sorted, hperm, hsorted.imp fun hbetter => ?_, ?_⟩
  · rw [List.countP_append, hkept, hfresh]
  · exact hbetter.elim UInt32.le_of_lt fun hsame => UInt32.le_of_eq hsame.symm
  · rw [Rolled.total?_eq hsize, keptSum_append, keptSum_added, hsum]

theorem Dice.rerolls_le_of_validate {dice : Dice} {count : UInt32}
    (hmodifier : dice.modifier = some (.rerollLowest count)) (hvalid : dice.validate = .ok ()) :
    count ≤ dice.count := by
  have hrule : (Modifier.rerollLowest count).brokenRule? dice = none :=
    (Dice.of_validate hvalid).2 _ hmodifier
  by_contra hmore
  rw [Modifier.brokenRule?, if_pos (UInt32.not_le.1 hmore)] at hrule
  cases hrule

/-- Dice that pass their check and reroll the lowest end with the lowest rerolled, after the first
values and the fresh ones. -/
theorem Dice.rerolled_of_ends {dice : Dice} {count : UInt32} {shown : List ShownDie}
    {rolled : Rolled} (hmodifier : dice.modifier = some (.rerollLowest count))
    (hvalid : dice.validate = .ok ()) (h : dice.roll.Ends shown rolled) :
    ∃ originals fresh : List UInt32, originals.length = dice.count.toNat ∧
      fresh.length = count.toNat ∧ shown = (originals ++ fresh).map (ShownDie.mk dice.sides) ∧
      rolled.dice = dice ∧
      rolled.Rerolled (.rerollLowest count) (dice.count.toNat - count.toNat) originals fresh := by
  have hmany : dice.count ≤ maxDice := UInt32.not_lt.1 (Dice.of_validate hvalid).1
  have hcount : count ≤ dice.count := Dice.rerolls_le_of_validate hmodifier hvalid
  have hsize : rolled.rolls.length ≤ maxRolls := (dice.always_length_roll.of_ends h).2
  rw [Dice.roll_eq hmany hmodifier, ends_askMany_iff] at h
  obtain ⟨originals, rest, horiginals, happly, rfl⟩ := h
  obtain ⟨left, hbest, hasks⟩ := @exists_apply_rerollLowest ⟨dice, originals.map _⟩ count hcount
  rw [hasks, ends_askMany_iff] at happly
  obtain ⟨fresh, _, hfresh, hdone, rfl⟩ := happly
  obtain ⟨rfl, rfl⟩ := ends_pure_iff.1 hdone
  refine ⟨originals, fresh, horiginals, hfresh, ?_, rfl, hbest.rerolled ?_ hsize⟩
  · rw [List.append_nil, List.map_append]
  · rw [horiginals]
    exact Nat.sub_le _ _

/-- Rerolling the lowest dice is refused exactly if more are rerolled than are asked for, before a
die is dropped or asked for. Otherwise the best of the kept dice stay, as many as are asked for less
the rerolled ones, and that many new dice of the same sides are asked for and kept behind them. So
dice that pass their check and reroll the lowest never fail, and end on every source that does not
run out. They have shown a die for each one that was asked for and each one that was rerolled, and
as many are kept as were asked for: the highest of the first values and all fresh ones. -/
theorem rerolled_of_rerollLowest (count : UInt32) :
    let modifier := Modifier.rerollLowest count
    (∀ rolled : Rolled,
      (modifier.apply rolled = .fail (.rule (.tooManyRerolls rolled.dice)) ↔
        rolled.dice.count < count) ∧
      (count ≤ rolled.dice.count → ∃ left,
        KeepsBest (fun x y => y < x) modifier (rolled.dice.count.toNat - count.toNat) rolled
          { rolled with rolls := left } ∧
        modifier.apply rolled = .askMany rolled.dice.sides count.toNat fun values =>
          pure { rolled with rolls := left ++ values.map (Die.added modifier) })) ∧
    ∀ dice : Dice, dice.modifier = some modifier → dice.validate = .ok () →
      ∀ {σ : Type} (source : Source σ) (state : σ),
        let run := dice.roll.run source state
        (∀ cause, run.result ≠ .error (.failed cause)) ∧
        (source.EndlessFrom state → ∃ rolled, run.result = .ok rolled) ∧
        ∀ rolled, run.result = .ok rolled →
          ∃ originals fresh : List UInt32, originals.length = dice.count.toNat ∧
            fresh.length = count.toNat ∧
            run.shown = (originals ++ fresh).map (ShownDie.mk dice.sides) ∧
            run.asked = List.replicate (dice.count.toNat + count.toNat) dice.sides ∧
            rolled.dice = dice ∧
            rolled.Rerolled modifier (dice.count.toNat - count.toNat) originals fresh ∧
            rolled.rolls.countP Die.isKept = dice.count.toNat := by
  intro modifier
  refine ⟨fun rolled => ⟨?_, exists_apply_rerollLowest⟩,
    fun dice hmodifier hvalid {σ} source state => ?_⟩
  · constructor
    · intro hfail
      by_contra hmany
      have hrule : modifier.brokenRule? rolled.dice = none := if_neg hmany
      have hsurely := Modifier.surely_apply hrule
      rw [hfail] at hsurely
      exact hsurely
    · intro hmany
      exact if_pos hmany
  · intro run
    have hsurely := Dice.surely_roll hvalid
    refine ⟨hsurely.result_ne_failed source state, hsurely.run, fun rolled hrolled => ?_⟩
    obtain ⟨originals, fresh, horiginals, hfresh, hshown, hdice, hrerolled⟩ :=
      Dice.rerolled_of_ends hmodifier hvalid (ends_of_run hrolled).1
    refine ⟨originals, fresh, horiginals, hfresh, hshown, ?_, hdice, hrerolled, ?_⟩
    · have hasked : run.asked = run.shown.map ShownDie.sides := asked_of_run hrolled
      rw [hasked, hshown, map_sides_shown, List.length_append, horiginals, hfresh]
    · have hfew : count.toNat ≤ dice.count.toNat :=
        UInt32.le_iff_toNat_le.1 (Dice.rerolls_le_of_validate hmodifier hvalid)
      rw [hrerolled.kept, hfresh]
      exact Nat.sub_add_cancel hfew

/-- Of four dice the two lowest are rerolled. The new ones are kept, also the one that shows less
than a die that was dropped. More than four cannot be rerolled. -/
theorem rerolled_of_rerollLowest_four :
    let stream : Nat → UInt32 := fun place => [3, 1, 5, 3, 1, 2].getD place 1
    let dice : Dice := ⟨4, 6, some (.rerollLowest 2)⟩
    let run := dice.roll.run (.iterating (nextOfStream stream)) 0
    (Modifier.rerollLowest 5).apply ⟨dice, []⟩ = .fail (.rule (.tooManyRerolls dice)) ∧
    (∃ left, KeepsBest (fun x y => y < x) (.rerollLowest 2) 2 ⟨dice, [⟨6, none, none⟩]⟩
      ⟨dice, left⟩) ∧
    ∃ rolled, run.result = .ok rolled ∧ rolled.total? = some 11 ∧
      rolled.Rerolled (.rerollLowest 2) 2 [3, 1, 5, 3] [1, 2] ∧ run.asked = [6, 6, 6, 6, 6, 6] := by
  intro stream dice run
  have hrefused := ((rerolled_of_rerollLowest 5).1 ⟨dice, []⟩).1.2 (by decide)
  obtain ⟨left, hbest, -⟩ :=
    ((rerolled_of_rerollLowest 2).1 ⟨dice, [⟨6, none, none⟩]⟩).2 (by decide)
  have hrun := (rerolled_of_rerollLowest 2).2 dice rfl (by decide)
    (.iterating (nextOfStream stream)) 0
  obtain ⟨rolled, hrolled⟩ := hrun.2.1 ((endless_stream stream).endlessFrom 0)
  obtain ⟨originals, fresh, horiginals, hfresh, hshown, hasked, -, hrerolled, -⟩ :=
    hrun.2.2 rolled hrolled
  have hfirst : (dice.roll.run (.iterating (nextOfStream stream)) 0).shown.map ShownDie.value =
      [3, 1, 5, 3] ++ [1, 2] := by
    cbv
  rw [hshown, map_value_shown] at hfirst
  obtain ⟨rfl, rfl⟩ := List.append_inj hfirst horiginals
  obtain ⟨sorted, hperm, hsorted, htotal⟩ := hrerolled.total
  have hsame : sorted.Perm [5, 3, 3, 1] := hperm.trans (by decide)
  have hvalues : sorted = [5, 3, 3, 1] :=
    List.Perm.eq_of_pairwise (fun _ _ _ _ h h' => UInt32.le_antisymm h' h) hsorted (by decide) hsame
  rw [hvalues] at htotal
  exact ⟨hrefused, ⟨left, hbest⟩, rolled, hrolled, htotal, hrerolled, hasked⟩

end DiceNotation
