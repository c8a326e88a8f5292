import Mathlib
import DiceNotation.Proofs.FairSources
import DiceNotation.Proofs.HigherRolls

/-!
# Rolls on fair sources

On a fair source every die of a set shows one of its sides, be it an original die, an exploded or a
rerolled one. So the total of a set lies between the number of its kept dice and so many times the
number of sides, and how many dice are kept is known from the modifier: all, or those that it picks,
or for dice that explode at least the original ones and at most as many as a set can hold.
-/

namespace DiceNotation

open Rolling

/-! ## Values within the sides -/

/-- Values that dice with some number of sides can show. -/
def Within (sides : UInt32) (values : List UInt32) : Prop :=
  ∀ value ∈ values, 1 ≤ value ∧ value ≤ sides

/-- The sum of values within the sides is bounded by how many there are. -/
theorem Within.sum_bounds {sides : UInt32} {values : List UInt32} (h : Within sides values) :
    values.length ≤ (values.map UInt32.toNat).sum ∧
      (values.map UInt32.toNat).sum ≤ values.length * sides.toNat := by
  have hbounds : ∀ n ∈ values.map UInt32.toNat, 1 ≤ n ∧ n ≤ sides.toNat :=
    List.forall_mem_map.2 fun value hvalue =>
      (h value hvalue).imp UInt32.le_iff_toNat_le.1 UInt32.le_iff_toNat_le.1
  have hleast := List.card_nsmul_le_sum _ 1 fun n hn => (hbounds n hn).1
  have hmost := List.sum_le_card_nsmul _ sides.toNat fun n hn => (hbounds n hn).2
  rw [List.length_map, smul_eq_mul] at hleast hmost
  rw [Nat.mul_one] at hleast
  exact ⟨hleast, hmost⟩

/-- A modifier keeps none but values that were shown. -/
theorem Modifier.keeps_subset (modifier : Modifier) (count : Nat) (values : List UInt32) :
    modifier.keeps count values ⊆ values := by
  intro value hvalue
  cases modifier with
  | explode threshold cap => exact hvalue
  | keepHighest best => exact (descending_perm values).subset (List.mem_of_mem_take hvalue)
  | keepLowest best => exact (ascending_perm values).subset (List.mem_of_mem_take hvalue)
  | rerollLowest again =>
    rcases List.mem_append.1 hvalue with hfirst | hfresh
    · exact List.mem_of_mem_take ((descending_perm _).subset (List.mem_of_mem_take hfirst))
    · exact List.mem_of_mem_drop hfresh

theorem Dice.keeps_subset (dice : Dice) (values : List UInt32) : dice.keeps values ⊆ values := by
  rw [keeps]
  split
  · exact Modifier.keeps_subset _ _ values
  · exact List.Subset.refl values

/-- How many values a modifier keeps. -/
theorem Modifier.length_keeps (modifier : Modifier) (count : Nat) (values : List UInt32) :
    (modifier.keeps count values).length = match modifier with
      | explode _ _ => values.length
      | keepHighest best | keepLowest best => min best.toNat values.length
      | rerollLowest again =>
        min (count - again.toNat) (min count values.length) + (values.length - count) := by
  cases modifier with
  | explode threshold cap => rfl
  | keepHighest best => rw [keeps, List.length_take, (descending_perm _).length_eq]
  | keepLowest best => rw [keeps, List.length_take, (ascending_perm _).length_eq]
  | rerollLowest again =>
    rw [keeps, List.length_append, List.length_take, (descending_perm _).length_eq,
      List.length_take, List.length_drop]

theorem Dice.keeps_eq {dice : Dice} {modifier : Modifier} (h : dice.modifier = some modifier)
    (values : List UInt32) : dice.keeps values = modifier.keeps dice.count.toNat values := by
  rw [keeps, h]

/-- If all values shown are within the sides, the total is bounded by how many are kept. -/
theorem Dice.total_bounds_of_ends {dice : Dice} {shown : List ShownDie} {rolled : Rolled}
    (h : dice.roll.Ends shown rolled) (hwithin : Within dice.sides (shown.map ShownDie.value)) :
    let kept := (dice.keeps (shown.map ShownDie.value)).length
    ∃ total, rolled.total? = some total ∧ kept ≤ total ∧ total ≤ kept * dice.sides.toNat := by
  intro kept
  have hkept : Within dice.sides (dice.keeps (shown.map ShownDie.value)) :=
    fun value hvalue => hwithin value (dice.keeps_subset _ hvalue)
  have hsum := ((Dice.kept_of_ends h).map UInt32.toNat).sum_eq
  refine ⟨_, (dice.always_bounded_roll.of_ends h).2.total, ?_⟩
  rw [hsum]
  exact hkept.sum_bounds

/-! ## Original and added dice -/

theorem map_isAdded_original (values : List UInt32) :
    (values.map Die.original).map Die.isAdded = List.replicate values.length false := by
  rw [List.map_map]
  exact List.map_const'

theorem map_isAdded_added (modifier : Modifier) (values : List UInt32) :
    (values.map (Die.added modifier)).map Die.isAdded = List.replicate values.length true := by
  rw [List.map_map]
  exact List.map_const'

/-- Dice that persist are added ones if they were. -/
theorem map_isAdded_of_persists {modifiers : List Modifier} {rolls later : List Die}
    (h : List.Forall₂ (Die.Persists modifiers) rolls later) :
    later.map Die.isAdded = rolls.map Die.isAdded := by
  induction h with
  | nil => rfl
  | cons hdie _ ih => rw [List.map_cons, List.map_cons, ih, Die.isAdded, hdie.addedBy, Die.isAdded]

/-- The original dice of a set are exactly the first ones, as many as were asked for. -/
theorem Dice.map_isAdded_of_ends {dice : Dice} {shown : List ShownDie} {rolled : Rolled}
    (h : dice.roll.Ends shown rolled) :
    rolled.rolls.map Die.isAdded = List.replicate dice.count.toNat false ++
      List.replicate (rolled.rolls.length - dice.count.toNat) true := by
  obtain ⟨-, originals, added, rolls, hcount, -, hrolls, rfl⟩ := Dice.rolls_of_ends h
  rw [← hcount]
  cases hrolls with
  | plain hmodifier =>
    rw [map_isAdded_original, List.length_map, Nat.sub_self]
    exact (List.append_nil _).symm
  | modified hmodifier happlies =>
    have hlength := happlies.persist.length_eq
    rw [List.length_map] at hlength
    rw [List.map_append, map_isAdded_of_persists happlies.persist, map_isAdded_original,
      map_isAdded_added, List.length_append, List.length_map, ← hlength, Nat.add_sub_cancel_left]

/-! ## Explosions that do not happen -/

/-- Without rounds, or without a value that reaches the threshold, there is but the first batch. -/
theorem batchedDice_of_quiet {threshold : UInt32} {stream : Nat → UInt32} {rounds : Nat}
    (h : rounds = 0 ∨ ∀ place, stream place < threshold) (start size : Nat) :
    batchedDice threshold stream (rounds + 1) start size = size := by
  rw [batchedDice_succ]
  rcases h with rfl | hlow
  · rfl
  · have hnone : reaching threshold (stretch stream start size) = 0 := by
      refine List.countP_eq_zero.2 fun value hvalue hreaches => ?_
      obtain ⟨place, -, rfl⟩ := List.mem_map.1 hvalue
      exact UInt32.not_lt.2 (of_decide_eq_true hreaches) (hlow place)
    rw [hnone, batchedDice_empty, Nat.add_zero]

/-! ## Rolling -/

/-- A set of dice as a fair source rolls it, and its total. -/
structure Rolled.Fair (rolled : Rolled) (total : Nat) : Prop where
  /-- Every die shows one of its sides. -/
  values : ∀ die ∈ rolled.rolls, 1 ≤ die.value ∧ die.value ≤ rolled.dice.sides
  /-- The original dice are the first ones, as many as were asked for. -/
  originals : rolled.rolls.map Die.isAdded = List.replicate rolled.dice.count.toNat false ++
    List.replicate (rolled.rolls.length - rolled.dice.count.toNat) true
  /-- The set has the total. -/
  sum : rolled.total? = some total
  /-- Without a modifier, every original die counts. -/
  plain : rolled.dice.modifier = none →
    rolled.dice.count.toNat ≤ total ∧ total ≤ rolled.dice.count.toNat * rolled.dice.sides.toNat
  /-- Rerolled dice count in the place of the dropped ones. -/
  reroll : ∀ again, rolled.dice.modifier = some (.rerollLowest again) →
    rolled.dice.count.toNat ≤ total ∧ total ≤ rolled.dice.count.toNat * rolled.dice.sides.toNat
  /-- Of kept dice only those that are picked count, if there are as many. -/
  keep : ∀ best, rolled.dice.modifier = some (.keepHighest best) ∨
      rolled.dice.modifier = some (.keepLowest best) →
    min best.toNat rolled.dice.count.toNat ≤ total ∧
      total ≤ min best.toNat rolled.dice.count.toNat * rolled.dice.sides.toNat
  /-- Dice that explode all count, at most as many as a set can hold. -/
  explode : ∀ threshold cap, rolled.dice.modifier = some (.explode threshold cap) →
    rolled.dice.count.toNat ≤ total ∧ total ≤ 10000 * rolled.dice.sides.toNat
  /-- If no value reaches the threshold or there is no round, only the original dice count. -/
  quiet : ∀ threshold cap, rolled.dice.modifier = some (.explode threshold cap) →
    rolled.dice.sides < threshold ∨ cap = 0 →
      rolled.rolls.length = rolled.dice.count.toNat ∧ rolled.dice.count.toNat ≤ total ∧
        total ≤ rolled.dice.count.toNat * rolled.dice.sides.toNat

/-- Without rounds or without a value that reaches the threshold, dice take as many values from a
stream as were asked for. -/
theorem Dice.sizeOn_of_quiet {dice : Dice} {threshold cap : UInt32} {stream : Nat → UInt32}
    (hcount : dice.count ≤ maxDice) (hmodifier : dice.modifier = some (.explode threshold cap))
    (h : cap = 0 ∨ ∀ place, stream place < threshold) : dice.sizeOn stream = dice.count.toNat := by
  have hrounds : cap.toNat = 0 ∨ ∀ place, stream place < threshold :=
    h.imp_left fun hcap => congrArg UInt32.toNat hcap
  have hfew : dice.count.toNat ≤ maxRolls :=
    Nat.le_trans (UInt32.le_iff_toNat_le.1 hcount) (by decide)
  rw [sizeOn, hmodifier]
  dsimp only
  rw [batchedDice_of_quiet hrounds]
  exact Nat.min_eq_right hfew

/-- How many values a set of dice keeps of those that it takes from a stream. -/
theorem Dice.length_keeps_stretch {dice : Dice} (hvalid : dice.validate = .ok ())
    (stream : Nat → UInt32) :
    (dice.keeps (stretch stream 0 (dice.sizeOn stream))).length = match dice.modifier with
      | none | some (.rerollLowest _) => dice.count.toNat
      | some (.keepHighest best) | some (.keepLowest best) => min best.toNat dice.count.toNat
      | some (.explode _ _) => dice.sizeOn stream := by
  cases hmodifier : dice.modifier with
  | none =>
    rw [keeps, hmodifier]
    dsimp only
    rw [length_stretch, sizeOn, hmodifier]
  | some modifier =>
    rw [Dice.keeps_eq hmodifier, Modifier.length_keeps, length_stretch]
    cases modifier with
    | explode threshold cap => rfl
    | keepHighest best => rw [sizeOn, hmodifier]
    | keepLowest best => rw [sizeOn, hmodifier]
    | rerollLowest again =>
      have hfew := UInt32.le_iff_toNat_le.1 (Dice.rerolls_le_of_validate hmodifier hvalid)
      rw [sizeOn, hmodifier]
      dsimp only
      omega

/-- Dice that end after the values of a stream within the sides are rolled fairly. -/
theorem Dice.exists_fair {dice : Dice} (hvalid : dice.validate = .ok ()) {stream : Nat → UInt32}
    (hstream : ∀ place, 1 ≤ stream place ∧ stream place ≤ dice.sides) {shown : List ShownDie}
    {rolled : Rolled} (h : dice.roll.Ends shown rolled)
    (hvalues : shown.map ShownDie.value = stretch stream 0 (dice.sizeOn stream)) :
    ∃ total, rolled.Fair total := by
  have hcount := UInt32.not_lt.1 (Dice.of_validate hvalid).1
  obtain ⟨rfl, hshown⟩ := Dice.shown_roll h
  have hwithin : Within rolled.dice.sides (shown.map ShownDie.value) := by
    intro value hvalue
    rw [hvalues] at hvalue
    obtain ⟨place, -, rfl⟩ := List.mem_map.1 hvalue
    exact hstream place
  have hlength : rolled.rolls.length = rolled.dice.sizeOn stream := by
    rw [Dice.length_of_ends h, ← shown.length_map ShownDie.value, hvalues, length_stretch]
  obtain ⟨hleast, hmost⟩ := rolled.dice.always_length_roll.of_ends h
  have hkept := Dice.length_keeps_stretch hvalid stream
  rw [← hvalues] at hkept
  obtain ⟨total, htotal, hlow, hhigh⟩ := Dice.total_bounds_of_ends h hwithin
  -- Each bound follows from the number of values that are kept.
  rw [hkept] at hlow hhigh
  refine ⟨total, ?_, Dice.map_isAdded_of_ends h, htotal, fun hplain => ?_,
    fun again hagain => ?_, fun best hbest => ?_, fun threshold cap hmodifier => ?_,
    fun threshold cap hmodifier hquiet => ?_⟩
  · intro die hdie
    refine hwithin die.value ?_
    rw [← hshown, Rolled.map_value_shown]
    exact List.mem_map_of_mem hdie
  · rw [hplain] at hlow hhigh
    exact ⟨hlow, hhigh⟩
  · rw [hagain] at hlow hhigh
    exact ⟨hlow, hhigh⟩
  · rcases hbest with hbest | hbest <;>
    · rw [hbest] at hlow hhigh
      exact ⟨hlow, hhigh⟩
  · rw [hmodifier, ← hlength] at hlow hhigh
    exact ⟨hleast.trans hlow, hhigh.trans (Nat.mul_le_mul_right _ hmost)⟩
  · have hrounds : cap = 0 ∨ ∀ place, stream place < threshold :=
      hquiet.symm.imp_right fun hsides place => UInt32.lt_of_le_of_lt (hstream place).2 hsides
    have hsize := Dice.sizeOn_of_quiet hcount hmodifier hrounds
    rw [hmodifier, hsize] at hlow hhigh
    exact ⟨hlength.trans hsize, hlow, hhigh⟩

/-- The dice that were shown for a set all have its number of sides. -/
theorem Dice.shown_eq_of_ends {dice : Dice} {shown : List ShownDie} {rolled : Rolled}
    (h : dice.roll.Ends shown rolled) :
    shown = (shown.map ShownDie.value).map (ShownDie.mk dice.sides) := by
  obtain ⟨rfl, rfl⟩ := Dice.shown_roll h
  rw [Rolled.map_value_shown, Rolled.values, List.map_map]
  rfl

/-- Dice stay within their sides, and totals within the bounds of the dice: on a fair source, dice
that pass their check and have sides can be rolled, every die shows one of its sides, the original
dice are exactly the first ones, and the total is that of as many dice as the modifier keeps. The
pseudo-random generator is fair, whatever its seed, and so are the highest values. -/
theorem exists_fair_of_fairFrom :
    (∀ {σ : Type} (source : Source σ) (state : σ), source.FairFrom state →
      ∀ dice : Dice, dice.validate = .ok () → 1 ≤ dice.sides →
        ∃ rolled total, (dice.roll.run source state).result = .ok rolled ∧ rolled.dice = dice ∧
          rolled.Fair total) ∧
    (∀ seed, Supply.source.FairFrom (.seeded seed)) ∧ Supply.source.FairFrom .highest := by
  refine ⟨fun source state hfair dice hvalid hsides => ?_, Supply.fairFrom_seeded,
    Supply.fairFrom_highest⟩
  obtain ⟨shown, rolled, hends, hvalues⟩ :=
    Dice.exists_ends_stream hvalid (source.stream dice.sides state)
  have hshows := hfair.shows_stream hsides (dice.sizeOn (source.stream dice.sides state))
  rw [← hvalues, ← Dice.shown_eq_of_ends hends] at hshows
  obtain ⟨total, htotal⟩ :=
    Dice.exists_fair hvalid (hfair.stream_bounds hsides) hends hvalues
  exact ⟨rolled, total, congrArg Run.result (hends.run hshows), (Dice.shown_roll hends).1, htotal⟩

/-- Whatever the generator draws, three dice that explode above their sides stay three, and two of
four dice count between 2 and 12. -/
theorem exists_fair_of_fairFrom_seeded :
    let quiet : Dice := ⟨3, 6, some (.explode 7 100)⟩
    let kept : Dice := ⟨4, 6, some (.keepHighest 2)⟩
    (∃ rolled total, (quiet.roll.run Supply.source (.seeded 1)).result = .ok rolled ∧
      rolled.rolls.length = 3 ∧ rolled.total? = some total ∧ 3 ≤ total ∧ total ≤ 18) ∧
    ∃ rolled total, (kept.roll.run Supply.source (.seeded 1)).result = .ok rolled ∧
      rolled.rolls.map Die.isAdded = [false, false, false, false] ++
        List.replicate (rolled.rolls.length - 4) true ∧
      rolled.total? = some total ∧ 2 ≤ total ∧ total ≤ 12 := by
  intro quiet kept
  obtain ⟨hfair, hseeded, -⟩ := exists_fair_of_fairFrom
  obtain ⟨exploded, sum, hexploded, hdice, hsum⟩ :=
    hfair Supply.source _ (hseeded 1) quiet (by decide) (by decide)
  obtain ⟨rolled, total, hrolled, hdice', htotal⟩ :=
    hfair Supply.source _ (hseeded 1) kept (by decide) (by decide)
  obtain ⟨hlength, hleast, hmost⟩ := hsum.quiet 7 100 (by rw [hdice]) (by rw [hdice]; decide)
  have hkeep := htotal.keep 2 (by rw [hdice']; exact .inl rfl)
  have hmarks := htotal.originals
  rw [hdice] at hlength hleast hmost
  rw [hdice'] at hkeep hmarks
  exact ⟨⟨exploded, sum, hexploded, hlength, hsum.sum, hleast, hmost⟩,
    rolled, total, hrolled, hmarks, htotal.sum, hkeep⟩

end DiceNotation
