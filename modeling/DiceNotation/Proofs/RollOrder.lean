import DiceNotation.Expression.Evaluation
import DiceNotation.Proofs.Applications
import DiceNotation.Proofs.Leaves

/-!
# The order of rolls

An evaluated expression holds every die that was rolled for it, and it holds them in the order in
which they were shown: set by set from left to right, and die by die within a set, the added ones
behind the first ones. Keeping and dropping only mark dice where they stand. So the values of an
evaluation are those that an iterator of values gave, none lost and none used twice, and an iterator
that begins with the same values gives the same evaluation and keeps the others.
-/

namespace DiceNotation

open Rolling

/-! ## Sets of dice -/

/-- Dice of a list as they were shown. -/
def shownAs (sides : UInt32) (rolls : List Die) : List ShownDie :=
  rolls.map fun die => ⟨sides, die.value⟩

/-- Dice show their values in order, those in front first. -/
theorem shownAs_append (sides : UInt32) (first second : List Die) :
    shownAs sides (first ++ second) = shownAs sides first ++ shownAs sides second :=
  List.map_append

/-- Rolled dice as they were shown. -/
def Rolled.shown (rolled : Rolled) : List ShownDie := shownAs rolled.dice.sides rolled.rolls

/-- Dice that persist are shown as before. -/
theorem shownAs_of_persist {modifiers : List Modifier} {rolls later : List Die}
    (h : List.Forall₂ (Die.Persists modifiers) rolls later) (sides : UInt32) :
    shownAs sides later = shownAs sides rolls := by
  rw [shownAs, shownAs, ← List.forall₂_eq_eq_eq, List.forall₂_map_left_iff,
    List.forall₂_map_right_iff]
  exact h.flip.imp fun later die h => congrArg (ShownDie.mk sides) h.value

/-- The first dice of a set show its original values. -/
theorem shownAs_original (sides : UInt32) (values : List UInt32) :
    shownAs sides (values.map Die.original) = values.map (ShownDie.mk sides) :=
  List.map_map

/-- Added dice show the values that they were added with. -/
theorem shownAs_added (sides : UInt32) (modifier : Modifier) (values : List UInt32) :
    shownAs sides (values.map (Die.added modifier)) = values.map (ShownDie.mk sides) :=
  List.map_map

/-- A set of dice holds the dice that were shown for it, in order. -/
theorem Dice.shown_roll {dice : Dice} {shown : List ShownDie} {rolled : Rolled}
    (h : dice.roll.Ends shown rolled) : rolled.dice = dice ∧ rolled.shown = shown := by
  obtain ⟨-, originals, added, rolls, -, rfl, hrolls, rfl⟩ := Dice.rolls_of_ends h
  refine ⟨rfl, ?_⟩
  rw [Rolled.shown]
  cases hrolls with
  | plain hmodifier => rw [shownAs_original, List.append_nil]
  | modified hmodifier happlies =>
    rw [shownAs_append, shownAs_of_persist happlies.persist, shownAs_original, shownAs_added,
      List.map_append]

/-! ## Expressions -/

namespace Evaluated

mutual

/-- The sets of dice in an evaluated expression, from left to right; a check has one. -/
def leaves : Evaluated → List Rolled
  | number _ => []
  | dice rolled => [rolled]
  | check rolledCheck => [rolledCheck.rolled]
  | arithmetic _ operands => leavesOfAll operands
  | list entries => leavesOfAll entries
  | commented body _ _ => body.leaves

/-- The sets of dice in several evaluated expressions, one expression after the other. -/
def leavesOfAll : List Evaluated → List Rolled
  | [] => []
  | operand :: operands => operand.leaves ++ leavesOfAll operands

end

end Evaluated

/-- Sets of dice were rolled for leaves, one for each, and hold the dice that were shown. -/
structure HoldInOrder (rolled : List Rolled) (leaves : List Leaf) (shown : List ShownDie) :
    Prop where
  /-- Every set was rolled for the leaf in its place. -/
  sets : rolled.map Rolled.dice = leaves.map Leaf.set
  /-- The dice of all sets, one set after the other, are those that were shown. -/
  shown : rolled.flatMap Rolled.shown = shown

namespace HoldInOrder

/-- Where there are no leaves, nothing was shown. -/
theorem nil : HoldInOrder [] [] [] := ⟨rfl, rfl⟩

/-- A single set holds the values that were shown for it. -/
theorem single {rolled : Rolled} {leaf : Leaf} {shown : List ShownDie}
    (h : rolled.dice = leaf.set ∧ rolled.shown = shown) : HoldInOrder [rolled] [leaf] shown := by
  refine ⟨?_, ?_⟩
  · rw [List.map_singleton, List.map_singleton, h.1]
  · rw [List.flatMap_singleton, h.2]

/-- Sets hold what was shown for the first ones, and then what was shown for the others. -/
theorem append {first second : List Rolled} {leaves others : List Leaf}
    {before behind : List ShownDie} (hfirst : HoldInOrder first leaves before)
    (hsecond : HoldInOrder second others behind) :
    HoldInOrder (first ++ second) (leaves ++ others) (before ++ behind) := by
  refine ⟨?_, ?_⟩
  · rw [List.map_append, List.map_append, hfirst.sets, hsecond.sets]
  · rw [List.flatMap_append, hfirst.shown, hsecond.shown]

end HoldInOrder

namespace Expression

/-- The trees of several expressions hold what was shown for one after another. -/
theorem holdInOrder_evaluateAll {entries : List Expression}
    (h : ∀ entry ∈ entries, ∀ shown tree, entry.evaluate.Ends shown tree →
      HoldInOrder tree.leaves entry.leaves shown) {shown : List ShownDie} {trees : List Evaluated}
    (hends : (evaluateAll entries).Ends shown trees) :
    HoldInOrder (Evaluated.leavesOfAll trees) (leavesOfAll entries) shown := by
  induction entries generalizing shown trees with
  | nil =>
    obtain ⟨rfl, rfl⟩ := ends_pure_iff.1 hends
    exact .nil
  | cons entry entries ih =>
    obtain ⟨hentry, hentries⟩ := List.forall_mem_cons.1 h
    rw [evaluateAll] at hends
    obtain ⟨tree, first, second, htree, hrest, rfl⟩ := ends_bind_iff.1 hends
    obtain ⟨trees, htrees, rfl⟩ := ends_bind_pure_iff.1 hrest
    exact (hentry first tree htree).append (ih hentries htrees)

/-- An evaluated expression holds the dice that were shown for it, leaf by leaf. -/
theorem holdInOrder_evaluate (expression : Expression) {shown : List ShownDie} {tree : Evaluated}
    (h : expression.evaluate.Ends shown tree) :
    HoldInOrder tree.leaves expression.leaves shown := by
  induction expression using Expression.induction generalizing shown tree with
  | number x =>
    obtain ⟨rfl, rfl⟩ := ends_pure_iff.1 h
    exact .nil
  | dice set =>
    obtain ⟨rolled, hrolled, rfl⟩ := ends_bind_pure_iff.1 h
    exact .single (Dice.shown_roll (ends_mapError_iff.1 hrolled))
  | check set =>
    obtain ⟨rolledCheck, hrolled, rfl⟩ := ends_bind_pure_iff.1 h
    obtain ⟨rolled, hroll, rfl⟩ := ends_bind_pure_iff.1 (ends_mapError_iff.1 hrolled)
    exact .single (Dice.shown_roll hroll)
  | sum terms ih =>
    obtain ⟨trees, htrees, rfl⟩ := ends_bind_pure_iff.1 h
    exact holdInOrder_evaluateAll (fun term hterm _ _ => ih term hterm) htrees
  | product factors ih =>
    obtain ⟨trees, htrees, rfl⟩ := ends_bind_pure_iff.1 h
    exact holdInOrder_evaluateAll (fun factor hfactor _ _ => ih factor hfactor) htrees
  | power base exponent hbase hexponent =>
    obtain ⟨left, first, second, hleft, hrest, rfl⟩ := ends_bind_iff.1 h
    obtain ⟨right, hright, rfl⟩ := ends_bind_pure_iff.1 hrest
    have hboth := (hbase hleft).append (hexponent hright)
    rwa [← List.append_nil right.leaves] at hboth
  | list entries ih =>
    obtain ⟨trees, htrees, rfl⟩ := ends_bind_pure_iff.1 h
    exact holdInOrder_evaluateAll (fun entry hentry _ _ => ih entry hentry) htrees
  | commented body before after ih =>
    obtain ⟨tree, htree, rfl⟩ := ends_bind_pure_iff.1 h
    rw [Evaluated.leaves, leaves]
    exact ih htree

end Expression

/-! ## Iterators -/

namespace Source

variable {σ : Type}

/-- The source that shows the next value of an iterator, whatever the number of sides. -/
def iterating (next : σ → Option UInt32 × σ) : Source σ := ⟨fun _ => next⟩

/-- An iterator gives some values one after the other, and is left in another state. -/
inductive Gives (next : σ → Option UInt32 × σ) : σ → List UInt32 → σ → Prop where
  /-- No value is taken. -/
  | nothing (state : σ) : Gives next state [] state
  /-- The iterator gives the first value, and then the others. -/
  | value {state after rest : σ} {value : UInt32} {values : List UInt32}
    (h : next state = (some value, after)) (hrest : Gives next after values rest) :
    Gives next state (value :: values) rest

/-- An iterator shows dice if it gives their values. -/
theorem shows_iterating_iff {next : σ → Option UInt32 × σ} {state rest : σ}
    {shown : List ShownDie} :
    (iterating next).Shows state shown rest ↔ Gives next state (shown.map ShownDie.value) rest := by
  constructor
  · intro h
    induction h with
    | nothing state => exact .nothing state
    | die hroll _ ih => exact .value hroll ih
  · intro h
    induction shown generalizing state with
    | nil =>
      cases h
      exact .nothing _
    | cons die shown ih =>
      cases h with
      | value hnext hrest => exact .die hnext (ih hrest)

end Source

/-- The values of rolled dice, in order. -/
def Rolled.values (rolled : Rolled) : List UInt32 := rolled.rolls.map Die.value

theorem Rolled.map_value_shown (rolled : Rolled) :
    rolled.shown.map ShownDie.value = rolled.values :=
  List.map_map

/-- The iterator of a list. -/
def nextOfList : List UInt32 → Option UInt32 × List UInt32
  | [] => (none, [])
  | value :: values => (some value, values)

/-- Evaluation takes the values of an iterator in order. If it succeeds, the values of all dice in
the tree, leaf by leaf and die by die, are those that were taken. Each was asked for with the number
of sides of its leaf, and any iterator that begins with these values gives the same tree and keeps
the rest. -/
theorem evaluate_iterating {σ : Type} {next : σ → Option UInt32 × σ} {expression : Expression}
    {state : σ} {tree : Evaluated}
    (h : (expression.evaluate.run (.iterating next) state).result = .ok tree) :
    let run := expression.evaluate.run (.iterating next) state
    Source.Gives next state (tree.leaves.flatMap Rolled.values) run.state ∧
      tree.leaves.map Rolled.dice = expression.leaves.map Leaf.set ∧
      run.asked = tree.leaves.flatMap (fun rolled => rolled.rolls.map fun _ => rolled.dice.sides) ∧
      ∀ {τ : Type} (other : τ → Option UInt32 × τ) (start rest : τ),
        Source.Gives other start (tree.leaves.flatMap Rolled.values) rest →
        expression.evaluate.run (.iterating other) start = ⟨.ok tree, run.shown, rest⟩ := by
  intro run
  obtain ⟨hends, hshows⟩ := ends_of_run h
  obtain ⟨hsets, hshown⟩ := expression.holdInOrder_evaluate hends
  have hvalues : run.shown.map ShownDie.value = tree.leaves.flatMap Rolled.values := by
    rw [← hshown, List.map_flatMap]
    simp only [Rolled.map_value_shown]
  have hasked : run.asked = run.shown.map ShownDie.sides := by
    rw [Run.asked, h]
    exact List.append_nil _
  refine ⟨?_, hsets, ?_, fun other start rest hgives => ?_⟩
  · rw [← hvalues]
    exact Source.shows_iterating_iff.1 hshows
  · rw [hasked, ← hshown, List.map_flatMap]
    simp only [Rolled.shown, shownAs, List.map_map]
    rfl
  · rw [← hvalues] at hgives
    exact hends.run (Source.shows_iterating_iff.2 hgives)

/-- Of the values 5, 2, 6, 3, 1 and 9, two exploding dice take the first four, a check behind them
takes the fifth, and the 9 is left. With other values in its place, they are left. -/
theorem evaluate_iterating_explode :
    let expression := Expression.sum [.dice ⟨2, 6, some (.explode 5 100)⟩,
      .check ⟨⟨1, 4, none⟩, ⟨.atLeast, 3⟩⟩]
    let run := expression.evaluate.run (.iterating nextOfList) [5, 2, 6, 3, 1, 9]
    let tree := Evaluated.arithmetic .sum [.dice ⟨⟨2, 6, some (.explode 5 100)⟩,
      [⟨5, none, none⟩, ⟨2, none, none⟩, ⟨6, some (.explode 5 100), none⟩,
        ⟨3, some (.explode 5 100), none⟩]⟩,
      .check ⟨⟨⟨1, 4, none⟩, [⟨1, none, none⟩]⟩, ⟨.atLeast, 3⟩⟩]
    run.result = .ok tree ∧ Source.Gives nextOfList [5, 2, 6, 3, 1, 9] [5, 2, 6, 3, 1] run.state ∧
      run.asked = [6, 6, 6, 6, 4] ∧
      (expression.evaluate.run (.iterating nextOfList) [5, 2, 6, 3, 1, 4, 4]).state = [4, 4] := by
  intro expression run tree
  have htree : (expression.evaluate.run (.iterating nextOfList) [5, 2, 6, 3, 1, 9]).result =
      .ok tree := by
    cbv
  obtain ⟨hgives, -, hasked, hother⟩ := evaluate_iterating htree
  have hrest : Source.Gives nextOfList [5, 2, 6, 3, 1, 4, 4] [5, 2, 6, 3, 1] [4, 4] :=
    .value rfl (.value rfl (.value rfl (.value rfl (.value rfl (.nothing [4, 4])))))
  exact ⟨htree, hgives, hasked, by rw [hother nextOfList _ _ hrest]⟩

end DiceNotation
