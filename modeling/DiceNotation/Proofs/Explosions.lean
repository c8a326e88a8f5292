import DiceNotation.Proofs.Streams

/-!
# Explosions

Exploding dice come in batches: every die of a batch that reaches the threshold stands for a die of
the next batch, until a batch is empty or no rounds are left. On a stream of values, a set of dice
follows this process for as long as there is room in it. It holds the values of the stream up to the
end of the process, or up to the limit of its size if that comes first.
-/

namespace DiceNotation

open Rolling

/-! ## Batches without a limit -/

/-- The number of values that reach a threshold. -/
def reaching (threshold : UInt32) (values : List UInt32) : Nat :=
  values.countP fun value => threshold ≤ value

/-- The values of two lists that reach the threshold are counted in each. -/
theorem reaching_append (threshold : UInt32) (first second : List UInt32) :
    reaching threshold (first ++ second) = reaching threshold first + reaching threshold second :=
  List.countP_append

/-- Whether a die reaches the threshold depends on its value alone. -/
theorem countReaching_eq (threshold : UInt32) (rolls : List Die) :
    countReaching threshold rolls = reaching threshold (rolls.map Die.value) := by
  rw [reaching, List.countP_map, countReaching]
  rfl

/-- The number of dice in the first batches of the process on a stream, of which there are
`batches` at most. The first batch has `size` dice and begins at the place `start`. Each other one
has a die for every die of the batch before it that reaches the threshold, and begins behind that
batch. An empty batch is the last. -/
def batchedDice (threshold : UInt32) (stream : Nat → UInt32) : (batches start size : Nat) → Nat
  | 0, _, _ => 0
  | batches + 1, start, size =>
    if size = 0 then 0
    else size + batchedDice threshold stream batches (start + size)
      (reaching threshold (stretch stream start size))

/-- Where no die is pending, none is rolled. -/
theorem batchedDice_empty (threshold : UInt32) (stream : Nat → UInt32) (batches start : Nat) :
    batchedDice threshold stream batches start 0 = 0 := by
  cases batches <;> rfl

/-- The first batch is followed by the others, also if it is empty. -/
theorem batchedDice_succ (threshold : UInt32) (stream : Nat → UInt32) (batches start size : Nat) :
    batchedDice threshold stream (batches + 1) start size =
      size + batchedDice threshold stream batches (start + size)
        (reaching threshold (stretch stream start size)) := by
  rw [batchedDice]
  split
  · rename_i hsize
    rw [hsize, stretch_zero, Nat.zero_add]
    exact (batchedDice_empty threshold stream batches start).symm
  · rfl

/-- The dice that reach the threshold are as many as the dice behind the first batch, if there is
one batch more. -/
theorem add_reaching_eq (threshold : UInt32) (stream : Nat → UInt32) (batches start size : Nat) :
    size + reaching threshold
        (stretch stream start (batchedDice threshold stream batches start size)) =
      batchedDice threshold stream (batches + 1) start size := by
  induction batches generalizing start size with
  | zero =>
    rw [batchedDice_succ]
    rfl
  | succ batches ih =>
    rw [batchedDice_succ threshold stream batches, stretch_add, reaching_append, ih,
      ← batchedDice_succ]

/-- A batch fills as much of the room as it can, and the process goes on in what is left of the
room. If the batch does not fit, nothing is left, and the dice that wait are of no account. -/
theorem min_batchedDice_succ (threshold : UInt32) (stream : Nat → UInt32)
    (room batches start size : Nat) :
    let batch := min size room
    min room (batchedDice threshold stream (batches + 1) start size) =
      batch + min (room - batch) (batchedDice threshold stream batches (start + batch)
        (reaching threshold (stretch stream start batch) + (size - batch))) := by
  intro batch
  rw [batchedDice_succ]
  rcases Nat.le_total size room with hfits | hfull
  · have hbatch : batch = size := Nat.min_eq_left hfits
    rw [hbatch, Nat.sub_self, Nat.add_zero]
    omega
  · have hbatch : batch = room := Nat.min_eq_right hfull
    rw [hbatch]
    omega

/-- A first batch for which there is room is not cut, only the others may be. -/
theorem min_batchedDice_of_le (threshold : UInt32) (stream : Nat → UInt32) (batches : Nat)
    {room size : Nat} (h : size ≤ room) :
    min room (batchedDice threshold stream (batches + 1) 0 size) =
      size + min (room - size) (batchedDice threshold stream batches size
        (reaching threshold (stretch stream 0 size))) := by
  rw [batchedDice_succ, Nat.zero_add]
  omega

/-! ## Explosions on a stream -/

/-- Adding no dice leaves the list as it is. -/
theorem ends_pure_append_nil (modifier : Modifier) (sides : UInt32) (rolls : List Die)
    {fresh : List UInt32} (h : fresh = []) :
    (pure rolls : Rolling RollFault (List Die)).Ends (fresh.map (ShownDie.mk sides))
      (rolls ++ fresh.map (Die.added modifier)) := by
  rw [h, List.map_nil, List.map_nil, List.append_nil]
  exact .done rolls

/-- Explosions add the dice of the process on a stream, as far as there is room for them. -/
theorem ends_explosions (modifier : Modifier) (sides threshold : UInt32) (stream : Nat → UInt32)
    (rounds pending start : Nat) (rolls : List Die) {fresh : List UInt32}
    (hfresh : fresh = stretch stream start
      (min (maxRolls - rolls.length) (batchedDice threshold stream rounds start pending))) :
    (explosions modifier sides threshold rounds pending rolls).Ends
      (fresh.map (ShownDie.mk sides)) (rolls ++ fresh.map (Die.added modifier)) := by
  induction rounds generalizing pending start rolls fresh with
  | zero =>
    rw [batchedDice, Nat.min_zero, stretch_zero] at hfresh
    rw [explosions]
    exact ends_pure_append_nil modifier sides rolls hfresh
  | succ rounds ih =>
    rw [explosions]
    split
    · -- An empty batch means that no die is pending or that there is no room.
      rename_i hbatch
      refine ends_pure_append_nil modifier sides rolls ?_
      rcases Nat.min_eq_zero_iff.1 hbatch with hnone | hfull
      · rw [hfresh, hnone, batchedDice_empty, Nat.min_zero, stretch_zero]
      · rw [hfresh, hfull, Nat.zero_min, stretch_zero]
    · -- The batch is asked for, and the other rounds go on behind it in what is left of the room.
      rw [min_batchedDice_succ] at hfresh
      generalize min pending (maxRolls - rolls.length) = batch at hfresh ⊢
      have hadded : (rollAdded modifier sides batch).Ends _ _ :=
        ends_rollAdded_iff.2 ⟨_, length_stretch stream start batch, rfl, rfl⟩
      have hlength : (rolls ++ (stretch stream start batch).map (Die.added modifier)).length =
          rolls.length + batch := by
        rw [List.length_append, List.length_map, length_stretch]
      have hrest := @ih (countReaching threshold ((stretch stream start batch).map
        (Die.added modifier)) + (pending - batch)) (start + batch)
        (rolls ++ (stretch stream start batch).map (Die.added modifier)) _ rfl
      rw [hlength, Nat.sub_add_eq, countReaching_eq, map_value_added, List.append_assoc,
        ← List.map_append] at hrest
      rw [stretch_add] at hfresh
      refine ends_bind_iff.2 ⟨_, _, _, hadded, ?_, by rw [hfresh, List.map_append]⟩
      rw [hfresh, countReaching_eq, map_value_added]
      exact hrest

/-! ## Exploding dice -/

/-- Exploding dice hold the first batch of the process on a stream, and behind it the others, as far
as there is room for them. -/
theorem Dice.ends_roll_explode (stream : Nat → UInt32) (sides : UInt32)
    {count threshold cap : UInt32} (hcount : count ≤ maxDice) (hthreshold : 2 ≤ threshold)
    {first fresh : List UInt32} (hfirst : first = stretch stream 0 count.toNat)
    (hfresh : fresh = stretch stream count.toNat (min (maxRolls - count.toNat)
      (batchedDice threshold stream cap.toNat count.toNat (reaching threshold first)))) :
    let modifier := Modifier.explode threshold cap
    let dice : Dice := ⟨count, sides, some modifier⟩
    dice.roll.Ends ((first ++ fresh).map (ShownDie.mk sides))
      ⟨dice, first.map Die.original ++ fresh.map (Die.added modifier)⟩ := by
  intro modifier dice
  have hlength : first.length = count.toNat := by rw [hfirst, length_stretch]
  have hroom : fresh = stretch stream count.toNat
      (min (maxRolls - (first.map Die.original).length) (batchedDice threshold stream cap.toNat
        count.toNat (countReaching threshold (first.map Die.original)))) := by
    rw [countReaching_eq, map_value_original, List.length_map, hlength, hfresh]
  have hgrown := ends_explosions modifier sides threshold stream _ _ _ _ hroom
  have hexplodes : ¬ threshold < 2 := UInt32.not_lt.2 hthreshold
  have happly : (modifier.apply ⟨dice, first.map Die.original⟩).Ends
      (fresh.map (ShownDie.mk sides))
      ⟨dice, first.map Die.original ++ fresh.map (Die.added modifier)⟩ := by
    rw [Modifier.apply, if_neg hexplodes]
    exact ends_bind_pure_iff.2 ⟨_, hgrown, rfl⟩
  rw [Dice.roll_eq hcount rfl]
  exact ends_askMany_iff.2 ⟨first, _, hlength, happly, List.map_append⟩

/-- A set of dice that exploded on a stream until it had some size: it holds the values of the
stream in order, all of its dice are kept, and the modifier added all but the first ones. -/
structure Rolled.Exploded (rolled : Rolled) (modifier : Modifier) (stream : Nat → UInt32)
    (size : Nat) : Prop where
  /-- The dice hold the first values of the stream. -/
  values : rolled.values = stretch stream 0 size
  /-- Every die is kept. -/
  kept : ∀ die ∈ rolled.rolls, die.isKept = true
  /-- The dice behind the first ones are marked as added, and no others. -/
  marks : rolled.rolls.map Die.addedBy = List.replicate rolled.dice.count.toNat none ++
    List.replicate (size - rolled.dice.count.toNat) (some modifier)

/-- A first batch and the dice that explosions add to it make up an exploded set. -/
theorem exploded_of_batches (modifier : Modifier) {stream : Nat → UInt32} {dice : Dice}
    {first fresh : List UInt32} {size : Nat} (hcount : first.length = dice.count.toNat)
    (hwhole : first ++ fresh = stretch stream 0 size) :
    (Rolled.mk dice (first.map Die.original ++ fresh.map (Die.added modifier))).Exploded
      modifier stream size := by
  have hfresh : fresh.length = size - dice.count.toNat := by
    have hlength := congrArg List.length hwhole
    rw [List.length_append, length_stretch, hcount] at hlength
    omega
  have hfirst : (first.map Die.original).map Die.addedBy =
      List.replicate dice.count.toNat none := by
    rw [List.map_map, ← hcount]
    exact List.map_const'
  have hothers : (fresh.map (Die.added modifier)).map Die.addedBy =
      List.replicate (size - dice.count.toNat) (some modifier) := by
    rw [List.map_map, ← hfresh]
    exact List.map_const'
  refine ⟨?_, ?_, ?_⟩
  · rw [Rolled.values, List.map_append, map_value_original, map_value_added, hwhole]
  · exact List.forall_mem_append.2 ⟨isKept_original first, isKept_added modifier fresh⟩
  · rw [List.map_append, hfirst, hothers]

/-- The dice that are marked as added are those behind the first ones. -/
theorem Rolled.Exploded.countP_isAdded {rolled : Rolled} {modifier : Modifier}
    {stream : Nat → UInt32} {size : Nat} (h : rolled.Exploded modifier stream size) :
    rolled.rolls.countP Die.isAdded = size - rolled.dice.count.toNat := by
  have hmarks : rolled.rolls.countP Die.isAdded =
      (rolled.rolls.map Die.addedBy).countP Option.isSome := by
    rw [List.countP_map]
    rfl
  rw [hmarks, h.marks, List.countP_append, List.countP_replicate, List.countP_replicate]
  simp

/-- Dice that explode on a stream of values follow the process on it, with as many batches behind
the first one as there are rounds, up to the limit of their size. Each of them is asked for once.
Unless the limit is reached, the added dice are as many as the dice that reach the threshold exactly
if another round would add none. -/
theorem exploded_roll (stream : Nat → UInt32) {count sides threshold cap : UInt32}
    (hcount : count ≤ maxDice) (hthreshold : 2 ≤ threshold) :
    let modifier := Modifier.explode threshold cap
    let dice : Dice := ⟨count, sides, some modifier⟩
    let length rounds := batchedDice threshold stream (rounds + 1) 0 count.toNat
    let size := min maxRolls (length cap.toNat)
    let run := dice.roll.run (.iterating (nextOfStream stream)) 0
    ∃ rolled, run.result = .ok rolled ∧ rolled.dice = dice ∧
      rolled.Exploded modifier stream size ∧ run.asked = List.replicate size sides ∧
      run.state = size ∧
      (length cap.toNat ≤ maxRolls →
        (rolled.rolls.countP Die.isAdded = countReaching threshold rolled.rolls ↔
          length (cap.toNat + 1) = length cap.toNat)) := by
  intro modifier dice length size run
  have hfew : count.toNat ≤ maxRolls :=
    Nat.le_trans (UInt32.le_iff_toNat_le.1 hcount) (by decide)
  let first := stretch stream 0 count.toNat
  let added := min (maxRolls - count.toNat)
    (batchedDice threshold stream cap.toNat count.toNat (reaching threshold first))
  have hsize : size = count.toNat + added :=
    min_batchedDice_of_le threshold stream cap.toNat hfew
  have hwhole : first ++ stretch stream count.toNat added = stretch stream 0 size := by
    rw [hsize, stretch_add, Nat.zero_add]
  have hends : dice.roll.Ends _ _ :=
    Dice.ends_roll_explode stream sides hcount hthreshold rfl (Eq.refl (stretch stream _ added))
  rw [hwhole] at hends
  have hasked : ((stretch stream 0 size).map (ShownDie.mk sides)).map ShownDie.sides =
      List.replicate size sides := by
    rw [map_sides_shown, length_stretch]
  have hexploded := exploded_of_batches modifier (length_stretch stream 0 dice.count.toNat) hwhole
  have hrun := hends.run_stream (map_value_shown sides (stretch stream 0 size))
  refine ⟨_, congrArg Run.result hrun, rfl, hexploded, ?_, ?_, fun hroom => ?_⟩
  · exact (congrArg Run.asked hrun).trans ((List.append_nil _).trans hasked)
  · exact (congrArg Run.state hrun).trans (Nat.zero_add size)
  · have hunlimited : size = length cap.toNat := Nat.min_eq_right hroom
    have hvalues := hexploded.values
    have hadded := hexploded.countP_isAdded
    have hreaching : count.toNat + reaching threshold (stretch stream 0 (length cap.toNat)) =
        length (cap.toNat + 1) := add_reaching_eq threshold stream (cap.toNat + 1) 0 count.toNat
    rw [Rolled.values] at hvalues
    change _ = size - count.toNat at hadded
    rw [hadded, countReaching_eq, hvalues, hunlimited]
    omega

/-- Two dice that explode on 5 for one round leave a die that reaches the threshold without a die of
its own. For a hundred rounds they go on until no die of a batch reaches it. -/
theorem exploded_roll_rounds :
    let stream : Nat → UInt32 := fun place => [5, 2, 6, 6, 1, 3].getD place 1
    let run cap :=
      (Dice.roll ⟨2, 6, some (.explode 5 cap)⟩).run (.iterating (nextOfStream stream)) 0
    (∃ rolled, (run 1).result = .ok rolled ∧ rolled.values = [5, 2, 6] ∧ (run 1).state = 3 ∧
      rolled.rolls.countP Die.isAdded ≠ countReaching 5 rolled.rolls) ∧
    ∃ rolled, (run 100).result = .ok rolled ∧ rolled.values = [5, 2, 6, 6, 1] ∧
      (run 100).state = 5 ∧ rolled.rolls.countP Die.isAdded = countReaching 5 rolled.rolls := by
  intro stream run
  obtain ⟨capped, hcapped, -, hexploded, -, hstate, hshort⟩ :=
    @exploded_roll stream 2 6 5 1 (by decide) (by decide)
  obtain ⟨whole, hwhole, -, hexploded', -, hstate', hall⟩ :=
    @exploded_roll stream 2 6 5 100 (by decide) (by decide)
  refine ⟨⟨capped, hcapped, hexploded.values.trans (by decide), hstate.trans (by decide), ?_⟩,
    whole, hwhole, hexploded'.values.trans (by decide), hstate'.trans (by decide), ?_⟩
  · exact (hshort (by decide)).not.2 (by decide)
  · exact (hall (by decide)).2 (by decide)

end DiceNotation
