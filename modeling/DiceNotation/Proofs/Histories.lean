import DiceNotation.Dice.Supply
import DiceNotation.Proofs.SureRolls

/-!
# Histories of modifiers

Modifiers may be applied to a set of dice again and again, in any order, and to dice with any marks.
The history of the set can only grow: dice keep their places, their values and the marks they have,
new ones are put behind them, and every mark that is put names the modifier that is applied. A
modifier that breaks a rule is refused before it asks for a die or changes one.
-/

namespace DiceNotation

open Rolling

/-! ## Procedures that work in place -/

/-- A procedure that works on a set of dice in place. A broken rule is thrown, and then the set
stays as it was left; a mark that is put twice stops everything. -/
abbrev InPlace (α : Type) : Type := ExceptT DiceError (StateT Rolled (Rolling RollFault)) α

namespace InPlace

variable {α β : Type}

/-- What such a procedure gives or throws, and the set as it leaves it. -/
def runOn (procedure : InPlace α) (rolled : Rolled) :
    Rolling RollFault (Except DiceError α × Rolled) :=
  StateT.run (ExceptT.run procedure) rolled

/-- The second of two procedures works on the set that the first leaves, unless the first throws. -/
@[simp] theorem runOn_bind (first : InPlace α) (next : α → InPlace β) (rolled : Rolled) :
    runOn (first >>= next) rolled = runOn first rolled >>= fun
      | (.ok a, after) => runOn (next a) after
      | (.error error, after) => pure (.error error, after) := by
  rw [runOn, ExceptT.run_bind, StateT.run_bind]
  refine bind_congr fun outcome => ?_
  rcases outcome with ⟨_ | a, after⟩ <;> rfl

@[simp] theorem runOn_get (rolled : Rolled) : runOn get rolled = pure (.ok rolled, rolled) := rfl

@[simp] theorem runOn_set (rolled after : Rolled) :
    runOn (set after) rolled = pure (.ok (), after) := rfl

@[simp] theorem runOn_throw (error : DiceError) (rolled : Rolled) :
    runOn (throw error : InPlace α) rolled = pure (.error error, rolled) := rfl

@[simp] theorem runOn_lift (procedure : Rolling RollFault α) (rolled : Rolled) :
    runOn (liftM procedure) rolled = procedure >>= fun a => pure (.ok a, rolled) := by
  change StateT.run (ExceptT.run (ExceptT.lift (StateT.lift procedure))) rolled = _
  rw [ExceptT.run_lift, StateT.run_map, StateT.run_lift, map_eq_pure_bind, LawfulMonad.bind_assoc]
  rfl

end InPlace

/-- Replaces the dice of a set by others that are made of them. -/
def replaceRolls (next : List Die → Rolling RollFault (List Die)) : InPlace Unit := do
  let rolled ← get
  let rolls ← next rolled.rolls
  set { rolled with rolls }

/-- Applies a modifier to a set of dice in place. -/
def Modifier.applyInPlace (modifier : Modifier) : InPlace Unit := do
  let dice := (← get).dice
  let keep order count := replaceRolls fun rolls =>
    .ofExcept ((keepFirst order modifier count rolls).mapError .mark)
  match modifier with
  | .explode threshold cap =>
    if threshold < 2 then throw (.infiniteRolls dice)
    replaceRolls fun rolls =>
      explosions modifier dice.sides threshold cap.toNat (countReaching threshold rolls) rolls
  | .keepHighest count => keep Die.higherFirst count.toNat
  | .keepLowest count => keep Die.lowerFirst count.toNat
  | .rerollLowest count =>
    if dice.count < count then throw (.tooManyRerolls dice)
    keep Die.higherFirst (dice.count.toNat - count.toNat)
    replaceRolls fun rolls => return rolls ++ (← rollAdded modifier dice.sides count.toNat)

namespace Modifier

/-- In place, a broken rule is thrown before anything is done, and otherwise the set becomes what
the modifier makes of it. -/
theorem runOn_applyInPlace (modifier : Modifier) (rolled : Rolled) :
    modifier.applyInPlace.runOn rolled =
      match modifier.brokenRule? rolled.dice with
      | some error => pure (.error error, rolled)
      | none => modifier.apply rolled >>= fun after => pure (.ok (), after) := by
  cases modifier with
  | explode threshold cap =>
    by_cases hlow : threshold < 2
    · simp [applyInPlace, brokenRule?, hlow]
    · simp [applyInPlace, brokenRule?, apply, replaceRolls, hlow]
  | keepHighest count => simp [applyInPlace, brokenRule?, apply, replaceRolls]
  | keepLowest count => simp [applyInPlace, brokenRule?, apply, replaceRolls]
  | rerollLowest count =>
    by_cases hfew : rolled.dice.count < count
    · simp [applyInPlace, brokenRule?, hfew]
    · simp [applyInPlace, brokenRule?, apply, replaceRolls, hfew]

/-- A modifier that breaks a rule fails for it. -/
theorem apply_of_brokenRule {modifier : Modifier} {rolled : Rolled} {error : DiceError}
    (h : modifier.brokenRule? rolled.dice = some error) :
    modifier.apply rolled = .fail (.rule error) := by
  cases modifier with
  | explode threshold cap =>
    rw [brokenRule?] at h
    split at h
    · rename_i hlow
      rw [apply, if_pos hlow, Option.some.inj h]
    · cases h
  | rerollLowest count =>
    rw [brokenRule?] at h
    split at h
    · rename_i hfew
      rw [apply, if_pos hfew, Option.some.inj h]
    · cases h
  | keepHighest count => cases h
  | keepLowest count => cases h

end Modifier

/-- Gives up a set of dice if an error was thrown. -/
def settle : Except DiceError Unit × Rolled → Rolling RollFault Rolled
  | (.ok (), after) => pure after
  | (.error error, _) => .fail (.rule error)

/-- A modifier makes of a set what it becomes in place, unless an error is thrown. -/
theorem Modifier.apply_eq_settled (modifier : Modifier) (rolled : Rolled) :
    modifier.apply rolled = modifier.applyInPlace.runOn rolled >>= settle := by
  rw [runOn_applyInPlace]
  cases hbroken : modifier.brokenRule? rolled.dice with
  | some error => exact apply_of_brokenRule hbroken
  | none =>
    rw [LawfulMonad.bind_assoc]
    exact (bind_pure _).symm

/-! ## Calls -/

/-- A modifier and the dice that it is given, which may come from anywhere. -/
structure Call where
  /-- The modifier that is applied. -/
  modifier : Modifier
  /-- The states of the source of dice. -/
  States : Type
  /-- The source of dice. -/
  source : Source States
  /-- The state in which the source is. -/
  state : States

/-- What comes of a call on a set of dice: an error if one is thrown, and the set as it is left. -/
def Call.run (call : Call) (rolled : Rolled) :
    Run call.States RollFault (Except DiceError Unit × Rolled) :=
  (call.modifier.applyInPlace.runOn rolled).run call.source call.state

/-- A call never fails, and what it gives is an error for a set that is left alone, or a set that
goes on as another one. -/
theorem Modifier.surely_applyInPlace (modifier : Modifier) (rolled : Rolled) :
    (modifier.applyInPlace.runOn rolled).Surely fun
      | (.error error, after) =>
        modifier.brokenRule? rolled.dice = some error ∧ after = rolled
      | (.ok (), after) =>
        after.dice = rolled.dice ∧ modifier.Continues rolled.rolls after.rolls := by
  rw [runOn_applyInPlace]
  cases hbroken : modifier.brokenRule? rolled.dice with
  | some error => exact ⟨rfl, rfl⟩
  | none => exact (surely_apply hbroken).bind fun after hafter => hafter

/-- A call that gives an error asks for no die, and leaves the source alone too. -/
theorem Call.run_of_error {call : Call} {rolled after : Rolled} {error : DiceError}
    (h : (call.run rolled).result = .ok (.error error, after)) :
    call.run rolled = ⟨.ok (.error error, rolled), [], call.state⟩ := by
  have hbroken : call.modifier.brokenRule? rolled.dice = some error :=
    ((call.modifier.surely_applyInPlace rolled).of_ends (ends_of_run h).1).1
  rw [run, Modifier.runOn_applyInPlace, hbroken]
  rfl

/-! ## Histories -/

/-- Calls take a set of dice to another one, each call going on with the set that the one before has
left, also if it has given an error. -/
inductive Reaches : Rolled → List Call → Rolled → Prop where
  /-- There are no calls. -/
  | nothing (rolled : Rolled) : Reaches rolled [] rolled
  /-- A call and the others. -/
  | call {rolled next last : Rolled} {call : Call} {calls : List Call}
    {result : Except DiceError Unit} (h : (call.run rolled).result = .ok (result, next))
    (hrest : Reaches next calls last) : Reaches rolled (call :: calls) last

/-- One more call reaches one step further. -/
theorem Reaches.snoc {start rolled next : Rolled} {calls : List Call} {call : Call}
    {result : Except DiceError Unit} (h : Reaches start calls rolled)
    (hcall : (call.run rolled).result = .ok (result, next)) :
    Reaches start (calls ++ [call]) next := by
  induction h with
  | nothing rolled => exact .call hcall (.nothing next)
  | call hfirst _ ih => exact .call hfirst (ih hcall)

/-- A list of dice grows into another one by some modifiers: they add dice behind it, and all dice
persist in their places. -/
def GrowsInto (modifiers : List Modifier) (rolls later : List Die) : Prop :=
  ∃ fresh, (∀ die ∈ fresh, ∃ modifier ∈ modifiers, ∃ value, die = Die.added modifier value) ∧
    List.Forall₂ (Die.Persists modifiers) (rolls ++ fresh) later

namespace GrowsInto

variable {modifiers others : List Modifier} {rolls later last : List Die}

/-- Dice that are left alone grow into themselves. -/
theorem refl (modifiers : List Modifier) (rolls : List Die) : GrowsInto modifiers rolls rolls :=
  ⟨[], List.forall_mem_nil _, by
    rw [List.append_nil]
    exact forall₂_persists_refl modifiers rolls⟩

/-- Dice that grow under some modifiers grow under more of them. -/
theorem mono (h : GrowsInto modifiers rolls later) (hsub : modifiers ⊆ others) :
    GrowsInto others rolls later := by
  obtain ⟨fresh, hfresh, hpersist⟩ := h
  refine ⟨fresh, fun die hdie => ?_, hpersist.imp fun die later h => h.mono hsub⟩
  obtain ⟨modifier, hmem, hvalue⟩ := hfresh die hdie
  exact ⟨modifier, hsub hmem, hvalue⟩

/-- Dice grow through one call after another. -/
theorem trans (h : GrowsInto modifiers rolls later) (h' : GrowsInto modifiers later last) :
    GrowsInto modifiers rolls last := by
  obtain ⟨fresh, hfresh, hpersist⟩ := h
  obtain ⟨fresher, hfresher, hpersist'⟩ := h'
  refine ⟨fresh ++ fresher, List.forall_mem_append.2 ⟨hfresh, hfresher⟩, ?_⟩
  have hboth : List.Forall₂ (Die.Persists modifiers) (rolls ++ fresh ++ fresher)
      (later ++ fresher) := List.rel_append hpersist (forall₂_persists_refl modifiers fresher)
  rw [List.append_assoc] at hboth
  exact (forall₂_trans hboth hpersist').imp fun die last ⟨_, hlater, hlast⟩ => hlater.trans hlast

end GrowsInto

/-- A modifier that continues a set lets it grow. -/
theorem Modifier.Continues.growsInto {modifier : Modifier} {rolls after : List Die}
    (h : modifier.Continues rolls after) : GrowsInto [modifier] rolls after := by
  obtain ⟨left, values, rfl, hpersist⟩ := h
  refine ⟨values.map (Die.added modifier), List.forall_mem_map.2 fun value _ => ?_,
    List.rel_append hpersist (forall₂_persists_refl [modifier] _)⟩
  exact ⟨modifier, List.mem_singleton_self modifier, value, rfl⟩

/-- One call lets a set grow, whatever it gives. -/
theorem Call.growsInto {call : Call} {rolled next : Rolled} {result : Except DiceError Unit}
    (h : (call.run rolled).result = .ok (result, next)) :
    next.dice = rolled.dice ∧ GrowsInto [call.modifier] rolled.rolls next.rolls := by
  have hgiven := (call.modifier.surely_applyInPlace rolled).of_ends (ends_of_run h).1
  cases result with
  | error error =>
    obtain ⟨-, rfl⟩ := hgiven
    exact ⟨rfl, .refl _ _⟩
  | ok =>
    obtain ⟨hdice, hcontinues⟩ := hgiven
    exact ⟨hdice, hcontinues.growsInto⟩

/-- Any number of calls lets a set grow by the modifiers of the calls. -/
theorem Reaches.growsInto {start rolled : Rolled} {calls : List Call}
    (h : Reaches start calls rolled) :
    rolled.dice = start.dice ∧
      GrowsInto (calls.map Call.modifier) start.rolls rolled.rolls := by
  induction h with
  | nothing rolled => exact ⟨rfl, .refl _ _⟩
  | @call rolled next last call calls result hcall _ ih =>
    obtain ⟨hdice, hgrows⟩ := Call.growsInto hcall
    refine ⟨ih.1.trans hdice, (hgrows.mono ?_).trans (ih.2.mono (List.subset_cons_self _ _))⟩
    exact List.cons_subset_cons _ (List.nil_subset _)

/-- After any calls on dice with any marks, another call puts no mark twice: it fails on no source,
and on a source that does not run out it ends with a set of dice. If it gives an error, the set and
the source are as they were, and no die was asked for. If it gives none, all dice persist in their
places, and behind them stand kept dice that the modifier of this call added. The calls before have
let the set grow in the same way, by their modifiers. Apart from the set behind an error, the call
gives what applying its modifier gives. -/
theorem continues_of_reaches {start rolled : Rolled} {calls : List Call}
    (h : Reaches start calls rolled) (call : Call) :
    let run := call.run rolled
    (∀ cause, run.result ≠ .error (.failed cause)) ∧
    (call.source.EndlessFrom call.state →
      ∃ result after, run.result = .ok (result, after) ∧ Reaches start (calls ++ [call]) after) ∧
    (∀ error after, run.result = .ok (.error error, after) →
      after = rolled ∧ run.asked = [] ∧ run.state = call.state) ∧
    (∀ after, run.result = .ok (.ok (), after) →
      after.dice = rolled.dice ∧ call.modifier.Continues rolled.rolls after.rolls) ∧
    (rolled.dice = start.dice ∧ GrowsInto (calls.map Call.modifier) start.rolls rolled.rolls) ∧
    call.modifier.apply rolled = call.modifier.applyInPlace.runOn rolled >>= settle := by
  intro run
  have hsurely := call.modifier.surely_applyInPlace rolled
  refine ⟨hsurely.result_ne_failed _ _, fun hendless => ?_, fun error after herror => ?_,
    fun after hafter => hsurely.of_ends (ends_of_run hafter).1, h.growsInto,
    call.modifier.apply_eq_settled rolled⟩
  · obtain ⟨⟨result, after⟩, hresult⟩ := hsurely.run hendless
    exact ⟨result, after, hresult, h.snoc hresult⟩
  · have hrun := Call.run_of_error herror
    have hsame : run = _ := hrun
    rw [hsame] at herror
    cases herror
    rw [hsame]
    exact ⟨rfl, rfl, rfl⟩

/-- A call that is given a list of values. -/
def Call.listed (modifier : Modifier) (values : List UInt32) : Call :=
  ⟨modifier, Supply, Supply.source, .listed values⟩

/-- Three dice with and without marks are kept, exploded and rerolled, and a reroll is refused. Of
the two dice that are kept then, the last call drops the first one, which has been added before. -/
theorem continues_of_reaches_reroll :
    let calls := [Call.listed (.keepHighest 1) [], .listed (.explode 5 2) [6, 2, 3],
      .listed (.rerollLowest 1) [4], .listed (.rerollLowest 9) [1]]
    let start : Rolled := ⟨⟨2, 6, none⟩, [⟨5, none, none⟩, ⟨6, some (.explode 6 1), none⟩,
      ⟨1, none, some (.keepLowest 3)⟩]⟩
    let rolled : Rolled := ⟨⟨2, 6, none⟩, [⟨5, none, some (.keepHighest 1)⟩,
      ⟨6, some (.explode 6 1), none⟩, ⟨1, none, some (.keepLowest 3)⟩,
      ⟨6, some (.explode 5 2), some (.rerollLowest 1)⟩,
      ⟨2, some (.explode 5 2), some (.rerollLowest 1)⟩,
      ⟨3, some (.explode 5 2), some (.rerollLowest 1)⟩, ⟨4, some (.rerollLowest 1), none⟩]⟩
    let after : Rolled := { rolled with
      rolls := rolled.rolls.set 1 ⟨6, some (.explode 6 1), some (.keepLowest 1)⟩ }
    Reaches start calls rolled ∧
      GrowsInto (calls.map Call.modifier) start.rolls rolled.rolls ∧
      ((Call.listed (.keepLowest 1) []).run rolled).result = .ok (.ok (), after) ∧
      (Modifier.keepLowest 1).Continues rolled.rolls after.rolls := by
  intro calls start rolled after
  have hreaches : Reaches start calls rolled :=
    .call (by cbv) (.call (by cbv) (.call (by cbv) (.call (by cbv) (.nothing rolled))))
  obtain ⟨-, -, -, hcontinues, ⟨-, hgrows⟩, -⟩ :=
    continues_of_reaches hreaches (.listed (.keepLowest 1) [])
  have hafter : ((Call.listed (.keepLowest 1) []).run rolled).result = .ok (.ok (), after) := by cbv
  exact ⟨hreaches, hgrows, hafter, (hcontinues after hafter).2⟩

end DiceNotation
