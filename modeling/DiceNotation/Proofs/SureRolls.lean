import Mathlib
import DiceNotation.Proofs.Endings
import DiceNotation.Proofs.SetSize

/-!
# Rolls that cannot fail

Dice that pass their check can always be rolled: on a source that does not run out, every run ends
with a set of dice. The rules that rolling checks are among those that were checked before, and no
mark is put on a die twice, whatever marks the dice have.
-/

namespace DiceNotation

namespace Rolling

variable {ε δ α β σ : Type}

/-- A procedure that never fails, and whose results all have a property. -/
def Surely (property : α → Prop) : Rolling ε α → Prop
  | done result => property result
  | fail _ => False
  | ask _ next => ∀ value, (next value).Surely property

/-- What surely holds of a result implies whatever follows from it. -/
theorem Surely.imp {property other : α → Prop} {procedure : Rolling ε α}
    (h : procedure.Surely property) (himp : ∀ result, property result → other result) :
    procedure.Surely other := by
  induction procedure with
  | done result => exact himp result h
  | fail cause => exact h.elim
  | ask sides next ih => exact fun value => ih value (h value)

/-- What holds of all results holds of those of a procedure that never fails. -/
theorem Surely.and {property other : α → Prop} {procedure : Rolling ε α}
    (h : procedure.Surely property) (halways : procedure.Always other) :
    procedure.Surely fun result => property result ∧ other result := by
  induction procedure with
  | done result => exact ⟨h, halways⟩
  | fail cause => exact h.elim
  | ask sides next ih => exact fun value => ih value (h value) (halways value)

/-- A sequence surely succeeds if its second part does on every result of the first. -/
theorem Surely.bind {first : α → Prop} {second : β → Prop} {procedure : Rolling ε α}
    {next : α → Rolling ε β} (h : procedure.Surely first)
    (hnext : ∀ result, first result → (next result).Surely second) :
    (procedure >>= next).Surely second := by
  change (Rolling.bind procedure next).Surely second
  induction procedure with
  | done result => exact hnext result h
  | fail cause => exact h.elim
  | ask sides continuation ih => exact fun value => ih value (h value)

/-- What never fails has no causes to change. -/
theorem Surely.mapError {property : α → Prop} {procedure : Rolling ε α}
    (h : procedure.Surely property) (f : ε → δ) : (procedure.mapError f).Surely property := by
  induction procedure with
  | done result => exact h
  | fail cause => exact h.elim
  | ask sides next ih => exact fun value => ih value (h value)

/-- Asking for dice never fails, whatever they show. -/
theorem Surely.askMany {property : α → Prop} {sides : UInt32} {count : Nat}
    {next : List UInt32 → Rolling ε α} (h : ∀ values, (next values).Surely property) :
    (Rolling.askMany sides count next).Surely property := by
  induction count generalizing next with
  | zero => exact h []
  | succ count ih => exact fun value => ih fun values => h (value :: values)

/-- What surely holds of the result holds of every result that a procedure ends with. -/
theorem Surely.of_ends {property : α → Prop} {procedure : Rolling ε α} {shown : List ShownDie}
    {result : α} (h : procedure.Surely property) (hends : procedure.Ends shown result) :
    property result := by
  induction hends with
  | done result => exact h
  | ask _ ih => exact ih (h _)

/-- A procedure that never fails does so on no source, also not on one that runs out. -/
theorem Surely.result_ne_failed {property : α → Prop} {procedure : Rolling ε α}
    (h : procedure.Surely property) (source : Source σ) (state : σ) (cause : ε) :
    (procedure.run source state).result ≠ .error (.failed cause) := by
  induction procedure generalizing state with
  | done result => exact nofun
  | fail cause => exact h.elim
  | ask sides next ih =>
    rw [run_ask]
    rcases source.roll sides state with ⟨_ | value, after⟩
    · exact nofun
    · exact ih value (h value) after

/-- On a source that does not run out, a procedure that never fails has a result. -/
theorem Surely.run {property : α → Prop} {procedure : Rolling ε α}
    (h : procedure.Surely property) {source : Source σ} {state : σ}
    (hendless : source.EndlessFrom state) :
    ∃ result, (procedure.run source state).result = .ok result := by
  induction procedure generalizing state with
  | done result => exact ⟨result, rfl⟩
  | fail cause => exact h.elim
  | ask sides next ih =>
    obtain ⟨value, after, hroll, hafter⟩ := hendless.exists_next sides
    rw [run_ask, hroll]
    exact ih value (h value) hafter

end Rolling

open Rolling

/-! ## Dice -/

/-- Rolling added dice never fails, since a fresh die has no mark. -/
theorem surely_rollAdded (modifier : Modifier) (sides : UInt32) (count : Nat) :
    (rollAdded modifier sides count).Surely fun _ => True := by
  apply Surely.askMany
  intro values
  rw [addedDice_eq]
  trivial

/-- Keeping the first dice of a ranking never fails. -/
theorem surely_keepFirst (order : Die → Die → Bool) (modifier : Modifier) (count : Nat)
    (rolls : List Die) :
    (Rolling.ofExcept ((keepFirst order modifier count rolls).mapError RollFault.mark)).Surely
      fun _ => True := by
  rw [keepFirst_eq]
  trivial

/-- Exploding never fails, whatever the dice show. -/
theorem surely_explosions (modifier : Modifier) (sides threshold : UInt32) (rounds pending : Nat)
    (rolls : List Die) :
    (explosions modifier sides threshold rounds pending rolls).Surely fun _ => True := by
  induction rounds generalizing pending rolls with
  | zero => trivial
  | succ rounds ih =>
    rw [explosions]
    split
    · trivial
    · exact (surely_rollAdded modifier sides _).bind fun added _ => ih _ _

/-- The rule that a modifier breaks on a set of dice, if it does. -/
def Modifier.brokenRule? (modifier : Modifier) (dice : Dice) : Option DiceError :=
  match modifier with
  | .explode threshold _ => if threshold < 2 then some (.infiniteRolls dice) else none
  | .rerollLowest count => if dice.count < count then some (.tooManyRerolls dice) else none
  | _ => none

/-- A list of dice goes on as another one by a modifier: every die persists in its place, and behind
them stand kept dice that the modifier added. -/
def Modifier.Continues (modifier : Modifier) (rolls after : List Die) : Prop :=
  ∃ (left : List Die) (values : List UInt32), after = left ++ values.map (Die.added modifier) ∧
    List.Forall₂ (Die.Persists [modifier]) rolls left

/-- Whatever a modifier does, the dice go on by it. -/
theorem Modifier.always_continues_apply (modifier : Modifier) (rolled : Rolled) :
    (modifier.apply rolled).Always fun after =>
      after.dice = rolled.dice ∧ modifier.Continues rolled.rolls after.rolls := by
  apply Always.of_forall_ends
  intro shown after h
  obtain ⟨left, values, happlies, -, rfl⟩ := Modifier.applies_of_ends h
  exact ⟨rfl, left, values, rfl, happlies.persist⟩

/-- A modifier that breaks no rule can be applied to any dice, whatever marks they have. -/
theorem Modifier.surely_apply {modifier : Modifier} {rolled : Rolled}
    (h : modifier.brokenRule? rolled.dice = none) :
    (modifier.apply rolled).Surely fun after =>
      after.dice = rolled.dice ∧ modifier.Continues rolled.rolls after.rolls := by
  have happly : (modifier.apply rolled).Surely fun _ => True := by
    cases modifier with
    | explode threshold cap =>
      rw [Modifier.apply]
      split
      · rename_i hlow
        rw [Modifier.brokenRule?, if_pos hlow] at h
        cases h
      · exact (surely_explosions _ _ _ _ _ _).bind fun _ _ => trivial
    | keepHighest count => exact (surely_keepFirst _ _ _ _).bind fun _ _ => trivial
    | keepLowest count => exact (surely_keepFirst _ _ _ _).bind fun _ _ => trivial
    | rerollLowest count =>
      rw [Modifier.apply]
      split
      · rename_i hfew
        rw [Modifier.brokenRule?, if_pos hfew] at h
        cases h
      · apply (surely_keepFirst _ _ _ _).bind
        intro kept _
        exact (surely_rollAdded _ _ _).bind fun _ _ => trivial
  exact (happly.and (modifier.always_continues_apply rolled)).imp fun after hafter => hafter.2

/-- Dice that are not too many pass their check unless their modifier breaks a rule on them. -/
theorem Dice.validate_eq {dice : Dice} {modifier : Modifier} (hcount : ¬ maxDice < dice.count)
    (hmodifier : dice.modifier = some modifier) :
    dice.validate = match modifier.brokenRule? dice with
      | some error => .error error
      | none => .ok () := by
  rw [validate, if_neg hcount, hmodifier]
  cases modifier with
  | explode threshold cap =>
    rw [Modifier.brokenRule?]
    by_cases hlow : threshold < 2
    · simp only [if_pos hlow]
    · simp only [if_neg hlow]
  | rerollLowest count =>
    rw [Modifier.brokenRule?]
    by_cases hfew : dice.count < count
    · simp only [if_pos hfew]
    · simp only [if_neg hfew]
  | keepHighest count => rfl
  | keepLowest count => rfl

/-- The modifier of dice that pass their check breaks no rule on them. -/
theorem Dice.of_validate {dice : Dice} (h : dice.validate = .ok ()) :
    ¬ maxDice < dice.count ∧
      ∀ modifier, dice.modifier = some modifier → modifier.brokenRule? dice = none := by
  have hcount : ¬ maxDice < dice.count := by
    intro hmany
    rw [validate, if_pos hmany] at h
    cases h
  refine ⟨hcount, fun modifier hmodifier => ?_⟩
  rw [validate_eq hcount hmodifier] at h
  cases hbroken : modifier.brokenRule? dice with
  | none => rfl
  | some error =>
    rw [hbroken] at h
    cases h

/-- Dice that pass their check can be rolled. -/
theorem Dice.surely_roll {dice : Dice} (h : dice.validate = .ok ()) :
    dice.roll.Surely fun rolled => rolled.rolls.length ≤ maxRolls := by
  obtain ⟨hcount, hmodifier⟩ := Dice.of_validate h
  have hplain : dice.rollPlain.Surely fun rolled => rolled.dice = dice := by
    rw [Dice.rollPlain, if_neg hcount]
    exact Surely.askMany fun values => rfl
  have hroll : dice.roll.Surely fun _ => True := by
    apply hplain.bind
    intro rolled hdice
    cases hsome : dice.modifier with
    | none => trivial
    | some modifier =>
      refine (Modifier.surely_apply ?_).imp fun _ _ => trivial
      rw [hdice]
      exact hmodifier modifier hsome
  exact (hroll.and dice.always_length_roll).imp fun rolled hsize => hsize.2.2

/-- Dice are kept at most, and each shows less than 2 ^ 32. -/
theorem keptSum_le (rolls : List Die) : keptSum rolls ≤ rolls.length * (2 ^ 32 - 1) := by
  induction rolls with
  | nil => exact Nat.le_refl 0
  | cons die rolls ih =>
    rw [keptSum, List.length_cons]
    have hvalue := die.value.toNat_lt
    split <;> omega

/-- The total of a set that rolling can result in fits. -/
theorem Rolled.total?_eq {rolled : Rolled} (h : rolled.rolls.length ≤ maxRolls) :
    rolled.total? = some (keptSum rolled.rolls) := by
  have hsum := keptSum_le rolled.rolls
  have hfits : keptSum rolled.rolls < Nat.pow 2 64 := by
    rw [maxRolls] at h
    change _ < 2 ^ 64
    omega
  exact if_pos hfits

/-- A set of bounded size has a total. -/
theorem Rolled.total?_isSome {rolled : Rolled} (h : rolled.rolls.length ≤ maxRolls) :
    rolled.total?.isSome = true := by
  rw [Rolled.total?_eq h]
  rfl

end DiceNotation
