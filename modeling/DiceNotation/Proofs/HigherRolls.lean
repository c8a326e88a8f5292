import DiceNotation.Proofs.Explosions
import DiceNotation.Proofs.KeptValues
import DiceNotation.Proofs.Rerolling

/-!
# Rolling higher

A stream of values that is nowhere below another one never makes dice worse. Exploding dice go on
for at least as long, since at least as many of them reach the threshold. The lower stream may lead
to other dice being dropped, but what is kept of it is outdone by what is kept of the higher one,
and so are the total and the hits above a threshold.
-/

namespace DiceNotation

open Rolling

/-! ## Sizes on a stream -/

/-- The number of values that dice take from a stream. -/
def Dice.sizeOn (dice : Dice) (stream : Nat → UInt32) : Nat :=
  match dice.modifier with
  | some (.explode threshold cap) =>
    min maxRolls (batchedDice threshold stream (cap.toNat + 1) 0 dice.count.toNat)
  | some (.rerollLowest again) => dice.count.toNat + again.toNat
  | _ => dice.count.toNat

/-- Dice end after their original values and those that their modifier asks for. -/
theorem Dice.ends_roll_of_apply {dice : Dice} {modifier : Modifier} {originals : List UInt32}
    {shown : List ShownDie} {after : Rolled} (hcount : dice.count ≤ maxDice)
    (hmodifier : dice.modifier = some modifier) (hlength : originals.length = dice.count.toNat)
    (h : (modifier.apply ⟨dice, originals.map Die.original⟩).Ends shown after) :
    dice.roll.Ends (originals.map (ShownDie.mk dice.sides) ++ shown) after := by
  rw [Dice.roll_eq hcount hmodifier]
  exact ends_askMany_iff.2 ⟨originals, shown, hlength, h, rfl⟩

/-- Dice whose modifier keeps the first of a ranking end after their original values. -/
theorem Dice.exists_ends_of_keepFirst {dice : Dice} {modifier : Modifier}
    {order : Die → Die → Bool} {best : Nat} {originals : List UInt32}
    (hcount : dice.count ≤ maxDice) (hmodifier : dice.modifier = some modifier)
    (hlength : originals.length = dice.count.toNat)
    (happly : ∀ rolled, modifier.apply rolled = (Rolling.ofExcept ((keepFirst order modifier best
      rolled.rolls).mapError RollFault.mark) >>= fun rolls => pure { rolled with rolls })) :
    ∃ rolled, dice.roll.Ends (originals.map (ShownDie.mk dice.sides)) rolled := by
  obtain ⟨rolled, hends⟩ : ∃ rolled,
      (modifier.apply ⟨dice, originals.map Die.original⟩).Ends [] rolled := by
    rw [happly, keepFirst_eq]
    exact ⟨_, .done _⟩
  have hroll := Dice.ends_roll_of_apply hcount hmodifier hlength hends
  rw [List.append_nil] at hroll
  exact ⟨rolled, hroll⟩

/-- Rerolling the lowest dice ends after any values for the new ones. -/
theorem ends_rerollLowest {rolled : Rolled} {again : UInt32} (h : again ≤ rolled.dice.count)
    {fresh : List UInt32} (hfresh : fresh.length = again.toNat) :
    ∃ after, ((Modifier.rerollLowest again).apply rolled).Ends
      (fresh.map (ShownDie.mk rolled.dice.sides)) after := by
  obtain ⟨left, -, happly⟩ := exists_apply_rerollLowest h
  rw [happly]
  exact ⟨_, ends_askMany_iff.2 ⟨fresh, [], hfresh, .done _, (List.append_nil _).symm⟩⟩

theorem Dice.two_le_of_validate {dice : Dice} {threshold cap : UInt32}
    (hmodifier : dice.modifier = some (.explode threshold cap)) (hvalid : dice.validate = .ok ()) :
    2 ≤ threshold := by
  have hrule : (Modifier.explode threshold cap).brokenRule? dice = none :=
    (Dice.of_validate hvalid).2 _ hmodifier
  by_contra hlow
  rw [Modifier.brokenRule?, if_pos (UInt32.not_le.1 hlow)] at hrule
  cases hrule

/-- On a stream, dice that pass their check end after the first values of it. -/
theorem Dice.exists_ends_stream {dice : Dice} (hvalid : dice.validate = .ok ())
    (stream : Nat → UInt32) :
    ∃ shown rolled, dice.roll.Ends shown rolled ∧
      shown.map ShownDie.value = stretch stream 0 (dice.sizeOn stream) := by
  have hcount := UInt32.not_lt.1 (Dice.of_validate hvalid).1
  have hlength := length_stretch stream 0 dice.count.toNat
  rcases dice with ⟨count, sides, _ | modifier⟩
  · have hplain : (Dice.mk count sides none).rollPlain.Ends _ _ :=
      Dice.ends_rollPlain_iff.2 ⟨hcount, stretch stream 0 count.toNat, hlength, rfl, rfl⟩
    exact ⟨_, _, ends_bind_pure_iff.2 ⟨_, hplain, rfl⟩, map_value_shown sides _⟩
  · cases modifier with
    | explode threshold cap =>
      have hthreshold := Dice.two_le_of_validate rfl hvalid
      have hfew : count.toNat ≤ maxRolls :=
        Nat.le_trans (UInt32.le_iff_toNat_le.1 hcount) (by decide)
      have hsize : (Dice.mk count sides (some (.explode threshold cap))).sizeOn stream = _ :=
        min_batchedDice_of_le threshold stream cap.toNat hfew
      refine ⟨_, _, Dice.ends_roll_explode stream sides hcount hthreshold rfl rfl, ?_⟩
      rw [map_value_shown, hsize, stretch_add, Nat.zero_add]
    | keepHighest best =>
      obtain ⟨rolled, hends⟩ :=
        Dice.exists_ends_of_keepFirst hcount rfl hlength (fun _ => rfl)
      exact ⟨_, rolled, hends, map_value_shown sides _⟩
    | keepLowest best =>
      obtain ⟨rolled, hends⟩ :=
        Dice.exists_ends_of_keepFirst hcount rfl hlength (fun _ => rfl)
      exact ⟨_, rolled, hends, map_value_shown sides _⟩
    | rerollLowest again =>
      have hagain := Dice.rerolls_le_of_validate rfl hvalid
      obtain ⟨after, hafter⟩ := @ends_rerollLowest
        ⟨⟨count, sides, some (.rerollLowest again)⟩,
          (stretch stream 0 count.toNat).map Die.original⟩
        again hagain _ (length_stretch stream count.toNat again.toNat)
      refine ⟨_, after, Dice.ends_roll_of_apply hcount rfl hlength hafter, ?_⟩
      rw [List.map_append, map_value_shown, map_value_shown, sizeOn, stretch_add, Nat.zero_add]

/-! ## Two streams -/

theorem isUpward_atLeast (threshold : UInt32) : IsUpward fun value => threshold ≤ value :=
  fun _ _ hxy hx => decide_eq_true (UInt32.le_trans (of_decide_eq_true hx) hxy)

theorem isUpward_greater (threshold : UInt32) : IsUpward fun value => threshold < value :=
  fun _ _ hxy hx => decide_eq_true (UInt32.lt_of_lt_of_le (of_decide_eq_true hx) hxy)

section Streams

variable {low high : Nat → UInt32} (hle : ∀ place, low place ≤ high place)

include hle

/-- A stretch of the lower stream is outdone by one of the higher stream that is not shorter. -/
theorem outdone_stretch (start : Nat) {size size' : Nat} (hsize : size ≤ size') :
    Outdone (stretch low start size) (stretch high start size') := by
  intro test htest
  obtain ⟨more, rfl⟩ := Nat.exists_eq_add_of_le hsize
  have hsame : (stretch low start size).countP test ≤ (stretch high start size).countP test := by
    rw [stretch, stretch, List.countP_map, List.countP_map]
    exact List.countP_mono_left fun place _ => htest _ _ (hle place)
  rw [stretch_add, List.countP_append]
  exact hsame.trans (Nat.le_add_right _ _)

/-- Explosions go on for at least as long on the higher stream. One batch more adds the dice that
reach the threshold among those before it, and these are at least as many. -/
theorem batchedDice_le (threshold : UInt32) (batches start size : Nat) :
    batchedDice threshold low batches start size ≤
      batchedDice threshold high batches start size := by
  induction batches with
  | zero => exact Nat.le_refl 0
  | succ batches ih =>
    rw [← add_reaching_eq, ← add_reaching_eq]
    exact Nat.add_le_add_left
      (outdone_stretch hle start ih _ (isUpward_atLeast threshold)) size

theorem Dice.sizeOn_le (dice : Dice) : dice.sizeOn low ≤ dice.sizeOn high := by
  rw [sizeOn, sizeOn]
  split
  · exact min_le_min_left maxRolls (batchedDice_le hle _ _ _ _)
  · exact Nat.le_refl _
  · exact Nat.le_refl _

/-- What dice keep of the lower stream is outdone by what they keep of the higher stream. -/
theorem Dice.outdone_keeps (dice : Dice) :
    Outdone (dice.keeps (stretch low 0 (dice.sizeOn low)))
      (dice.keeps (stretch high 0 (dice.sizeOn high))) := by
  have hsize := Dice.sizeOn_le hle dice
  have hfirst := outdone_stretch hle 0 (Nat.le_refl dice.count.toNat)
  rcases dice with ⟨count, sides, _ | modifier⟩
  · exact hfirst
  · cases modifier with
    | explode threshold cap => exact outdone_stretch hle 0 hsize
    | keepHighest best => exact hfirst.take_descending best.toNat
    | keepLowest best =>
      exact hfirst.take_ascending (by rw [length_stretch, length_stretch]) best.toNat
    | rerollLowest again =>
      have hsplit : ∀ stream : Nat → UInt32,
          (Modifier.rerollLowest again).keeps count.toNat
              (stretch stream 0 (count.toNat + again.toNat)) =
            (descending (stretch stream 0 count.toNat)).take (count.toNat - again.toNat) ++
              stretch stream count.toNat again.toNat := by
        intro stream
        rw [stretch_add, Nat.zero_add, Modifier.keeps_rerollLowest (length_stretch _ _ _)]
      change Outdone ((Modifier.rerollLowest again).keeps count.toNat
          (stretch low 0 (count.toNat + again.toNat)))
        ((Modifier.rerollLowest again).keeps count.toNat
          (stretch high 0 (count.toNat + again.toNat)))
      rw [hsplit, hsplit]
      exact (hfirst.take_descending _).append (outdone_stretch hle _ (Nat.le_refl _))

end Streams

/-! ## Rolled dice that are outdone -/

/-- A set of rolled dice is outdone by another one: it has no more dice, no greater total, and no
more hits above any threshold. -/
structure Rolled.OutdoneBy (rolled other : Rolled) : Prop where
  /-- There are no more dice. -/
  size : rolled.rolls.length ≤ other.rolls.length
  /-- Both have totals, and that of the other set is at least as large. -/
  total : ∃ sum sum', rolled.total? = some sum ∧ other.total? = some sum' ∧ sum ≤ sum'
  /-- The other set has at least as many hits above a threshold, with or without the threshold
  itself. -/
  hits : ∀ condition : Condition,
    condition.comparison = .atLeast ∨ condition.comparison = .greater →
      RolledCheck.count ⟨rolled, condition⟩ ≤ RolledCheck.count ⟨other, condition⟩

theorem Dice.length_of_ends {dice : Dice} {shown : List ShownDie} {rolled : Rolled}
    (h : dice.roll.Ends shown rolled) : rolled.rolls.length = shown.length := by
  rw [← (Dice.shown_roll h).2, Rolled.shown, shownAs, List.length_map]

/-- The same dice are outdone if they show no more values and keep values that are outdone. -/
theorem Dice.outdoneBy_of_ends {dice : Dice} {shown shown' : List ShownDie} {rolled other : Rolled}
    (h : dice.roll.Ends shown rolled) (h' : dice.roll.Ends shown' other)
    (hsize : shown.length ≤ shown'.length)
    (hkept : Outdone (dice.keeps (shown.map ShownDie.value))
      (dice.keeps (shown'.map ShownDie.value))) : rolled.OutdoneBy other := by
  have hbounded := (dice.always_bounded_roll.of_ends h).2
  have hbounded' := (dice.always_bounded_roll.of_ends h').2
  have houtdone := hkept.perm (Dice.kept_of_ends h) (Dice.kept_of_ends h')
  refine ⟨?_, ⟨_, _, hbounded.total, hbounded'.total, houtdone.sum_le⟩, ?_⟩
  · rwa [Dice.length_of_ends h, Dice.length_of_ends h']
  · rintro ⟨comparison, threshold⟩ hcomparison
    rw [hbounded.count, hbounded'.count]
    rcases hcomparison with rfl | rfl
    · exact houtdone _ (isUpward_atLeast threshold)
    · exact houtdone _ (isUpward_greater threshold)

/-- Dice that pass their check end on both streams, and those on the lower one are outdone. -/
theorem Dice.exists_outdoneBy {dice : Dice} (hvalid : dice.validate = .ok ())
    {low high : Nat → UInt32} (hle : ∀ place, low place ≤ high place) :
    ∃ lower higher shown shown', dice.roll.Ends shown lower ∧ dice.roll.Ends shown' higher ∧
      shown.map ShownDie.value = stretch low 0 (dice.sizeOn low) ∧
      shown'.map ShownDie.value = stretch high 0 (dice.sizeOn high) ∧ lower.OutdoneBy higher := by
  obtain ⟨shown, lower, hlower, hlow⟩ := Dice.exists_ends_stream hvalid low
  obtain ⟨shown', higher, hhigher, hhigh⟩ := Dice.exists_ends_stream hvalid high
  refine ⟨lower, higher, shown, shown', hlower, hhigher, hlow, hhigh,
    Dice.outdoneBy_of_ends hlower hhigher ?_ ?_⟩
  · have hsize := congrArg List.length hlow
    have hsize' := congrArg List.length hhigh
    rw [List.length_map, length_stretch] at hsize hsize'
    rw [hsize, hsize']
    exact Dice.sizeOn_le hle dice
  · rw [hlow, hhigh]
    exact Dice.outdone_keeps hle dice

/-! ## The highest values -/

/-- The supply of highest values shows any dice that show their numbers of sides. -/
theorem shows_highest {shown : List ShownDie} (h : ∀ die ∈ shown, die.value = die.sides) :
    Supply.source.Shows .highest shown .highest := by
  induction shown with
  | nil => exact .nothing _
  | cons die shown ih =>
    obtain ⟨hdie, hrest⟩ := List.forall_mem_cons.1 h
    rcases die with ⟨sides, value⟩
    obtain rfl : value = sides := hdie
    exact .die rfl (ih hrest)

/-- Every die of a set is shown with the number of sides of the set. -/
theorem Dice.sides_of_ends {dice : Dice} {shown : List ShownDie} {rolled : Rolled}
    (h : dice.roll.Ends shown rolled) : ∀ die ∈ shown, die.sides = dice.sides := by
  obtain ⟨rfl, rfl⟩ := Dice.shown_roll h
  exact List.forall_mem_map.2 fun _ _ => rfl

/-- The stream that begins with some values and is zero behind them. -/
def streamOf (values : List UInt32) (place : Nat) : UInt32 := values.getD place 0

theorem stretch_streamOf (values : List UInt32) :
    stretch (streamOf values) 0 values.length = values := by
  refine List.ext_getElem (length_stretch _ _ _) fun place hplace hplace' => ?_
  simp [stretch, streamOf, hplace']

theorem streamOf_le {values : List UInt32} {bound : UInt32} (h : ∀ value ∈ values, value ≤ bound)
    (place : Nat) : streamOf values place ≤ bound := by
  rw [streamOf, List.getD_eq_getElem?_getD]
  cases hvalue : values[place]? with
  | none => exact UInt32.zero_le
  | some value => exact h value (List.mem_of_getElem? hvalue)

/-- On every source that shows no die above its number of sides, dice are outdone by those on the
supply of highest values. -/
theorem Dice.outdoneBy_highest {dice : Dice} (hvalid : dice.validate = .ok ())
    {shown : List ShownDie} {rolled : Rolled} (h : dice.roll.Ends shown rolled)
    (hsides : ∀ die ∈ shown, die.value ≤ die.sides) :
    ∃ highest, (dice.roll.run Supply.source .highest).result = .ok highest ∧
      rolled.OutdoneBy highest := by
  have hvalues : ∀ value ∈ shown.map ShownDie.value, value ≤ dice.sides := by
    refine List.forall_mem_map.2 fun die hdie => ?_
    rw [← Dice.sides_of_ends h die hdie]
    exact hsides die hdie
  -- The dice would end with the same set on the stream of the values that were shown.
  obtain ⟨lower, highest, first, others, hlower, hhighest, hfirst, hothers, houtdone⟩ :=
    Dice.exists_outdoneBy hvalid (streamOf_le hvalues)
  have hrun := h.run_stream (stretch_streamOf (shown.map ShownDie.value)).symm
  have hrun' := hlower.run_stream hfirst
  rw [hrun] at hrun'
  obtain rfl : rolled = lower := Except.ok.inj (congrArg Run.result hrun')
  have hshows : ∀ die ∈ others, die.value = die.sides := by
    intro die hdie
    have hvalue := List.mem_map_of_mem (f := ShownDie.value) hdie
    rw [hothers, stretch] at hvalue
    obtain ⟨_, -, hsame⟩ := List.mem_map.1 hvalue
    rw [Dice.sides_of_ends hhighest die hdie, ← hsame]
  exact ⟨highest, congrArg Run.result (hhighest.run (shows_highest hshows)), houtdone⟩

/-- A check is rolled like its dice. -/
theorem Check.result_run {σ : Type} {source : Source σ} {state : σ} {dice : Dice} {rolled : Rolled}
    (h : (dice.roll.run source state).result = .ok rolled) (condition : Condition) :
    ((Check.roll ⟨dice, condition⟩).run source state).result = .ok ⟨rolled, condition⟩ := by
  rw [Check.roll, run_bind_pure, Run.map, h]
  rfl

/-- Rolling higher never lowers the result: on a stream of values that is nowhere below another one,
dice that pass their check end with at least as many dice, at least as large a total, and at least
as many hits above any threshold, whatever their modifier. So no values within the numbers of sides
outdo the highest ones. -/
theorem outdoneBy_of_le {dice : Dice} (hvalid : dice.validate = .ok ()) :
    (∀ {low high : Nat → UInt32}, (∀ place, low place ≤ high place) →
      ∃ lower higher,
        (dice.roll.run (.iterating (nextOfStream low)) 0).result = .ok lower ∧
        (dice.roll.run (.iterating (nextOfStream high)) 0).result = .ok higher ∧
        lower.OutdoneBy higher ∧
        ∀ condition : Condition,
          ((Check.roll ⟨dice, condition⟩).run (.iterating (nextOfStream low)) 0).result =
            .ok ⟨lower, condition⟩ ∧
          ((Check.roll ⟨dice, condition⟩).run (.iterating (nextOfStream high)) 0).result =
            .ok ⟨higher, condition⟩) ∧
    ∀ {σ : Type} (source : Source σ) (state : σ) (rolled : Rolled),
      (dice.roll.run source state).result = .ok rolled →
      (∀ die ∈ (dice.roll.run source state).shown, die.value ≤ die.sides) →
      ∃ highest, (dice.roll.run Supply.source .highest).result = .ok highest ∧
        rolled.OutdoneBy highest := by
  constructor
  · intro low high hle
    obtain ⟨lower, higher, shown, shown', hlower, hhigher, hlow, hhigh, houtdone⟩ :=
      Dice.exists_outdoneBy hvalid hle
    have hlower' := congrArg Run.result (hlower.run_stream hlow)
    have hhigher' := congrArg Run.result (hhigher.run_stream hhigh)
    exact ⟨lower, higher, hlower', hhigher', houtdone,
      fun condition => ⟨Check.result_run hlower' condition, Check.result_run hhigher' condition⟩⟩
  · intro σ source state rolled hrolled hsides
    exact Dice.outdoneBy_highest hvalid (ends_of_run hrolled).1 hsides

/-- Of two dice that explode on 6 for one round, those on the lower stream do not explode, one of
those on the higher stream does, and both do on the highest values. -/
theorem outdoneBy_of_le_explode :
    let dice : Dice := ⟨2, 6, some (.explode 6 1)⟩
    let low : Nat → UInt32 := fun place => [5, 3].getD place 1
    let high : Nat → UInt32 := fun place => [6, 4, 2].getD place 1
    ∃ lower higher highest,
      (dice.roll.run (.iterating (nextOfStream low)) 0).result = .ok lower ∧
      (dice.roll.run (.iterating (nextOfStream high)) 0).result = .ok higher ∧
      (dice.roll.run Supply.source .highest).result = .ok highest ∧
      lower.OutdoneBy higher ∧ lower.OutdoneBy highest ∧
      lower.total? = some 8 ∧ higher.total? = some 12 ∧ highest.total? = some 24 := by
  intro dice low high
  have hvalid : dice.validate = .ok () := by decide
  have hle : ∀ place, low place ≤ high place
    | 0 => by decide
    | 1 => by decide
    | 2 => by decide
    | _ + 3 => UInt32.le_refl 1
  obtain ⟨lower, higher, hlower, hhigher, houtdone, -⟩ := (outdoneBy_of_le hvalid).1 hle
  have hsides : ∀ die ∈ (dice.roll.run (.iterating (nextOfStream low)) 0).shown,
      die.value ≤ die.sides := by
    have hshown : (dice.roll.run (.iterating (nextOfStream low)) 0).shown = [⟨6, 5⟩, ⟨6, 3⟩] := by
      cbv
    rw [hshown]
    decide
  obtain ⟨highest, hhighest, hmost⟩ := (outdoneBy_of_le hvalid).2 _ _ lower hlower hsides
  refine ⟨lower, higher, highest, hlower, hhigher, hhighest, houtdone, hmost, ?_, ?_, ?_⟩
  · have hvalue : (dice.roll.run (.iterating (nextOfStream low)) 0).result =
        .ok ⟨dice, [⟨5, none, none⟩, ⟨3, none, none⟩]⟩ := by
      cbv
    cases hlower.symm.trans hvalue
    decide
  · have hvalue : (dice.roll.run (.iterating (nextOfStream high)) 0).result =
        .ok ⟨dice, [⟨6, none, none⟩, ⟨4, none, none⟩, ⟨2, some (.explode 6 1), none⟩]⟩ := by
      cbv
    cases hhigher.symm.trans hvalue
    decide
  · have hvalue : (dice.roll.run Supply.source .highest).result =
        .ok ⟨dice, [⟨6, none, none⟩, ⟨6, none, none⟩, ⟨6, some (.explode 6 1), none⟩,
          ⟨6, some (.explode 6 1), none⟩]⟩ := by
      cbv
    cases hhighest.symm.trans hvalue
    decide

end DiceNotation
