import DiceNotation.Dice.Rolling

/-!
# Runs of rolling procedures

What holds of every result of a procedure holds of the result of a run on any source. Changing a
result or naming the cause of a failure differently does not change the dice that are asked for.
-/

namespace DiceNotation

/-- The same run with another result. -/
def Run.map {ε α β σ : Type} (f : α → β) (run : Run σ ε α) : Run σ ε β :=
  ⟨run.result.map f, run.shown, run.state⟩

namespace Rolling

variable {ε δ α β σ : Type}

/-- A property of every result that a procedure can end with, whatever the dice show. -/
def Always (property : α → Prop) : Rolling ε α → Prop
  | done result => property result
  | fail _ => True
  | ask _ next => ∀ value, (next value).Always property

/-- What always holds of a result implies whatever follows from it. -/
theorem Always.imp {property other : α → Prop} {procedure : Rolling ε α}
    (h : procedure.Always property) (himp : ∀ result, property result → other result) :
    procedure.Always other := by
  induction procedure with
  | done result => exact himp result h
  | fail cause => trivial
  | ask sides next ih => exact fun value => ih value (h value)

/-- The results of a sequence are those of its second part on the results of the first. -/
theorem Always.bind {first : α → Prop} {second : β → Prop} {procedure : Rolling ε α}
    {next : α → Rolling ε β} (h : procedure.Always first)
    (hnext : ∀ result, first result → (next result).Always second) :
    (procedure >>= next).Always second := by
  change (Rolling.bind procedure next).Always second
  induction procedure with
  | done result => exact hnext result h
  | fail cause => trivial
  | ask sides continuation ih => exact fun value => ih value (h value)

/-- Changing the causes of failures changes nothing of the results. -/
theorem Always.mapError {property : α → Prop} {procedure : Rolling ε α}
    (h : procedure.Always property) (f : ε → δ) : (procedure.mapError f).Always property := by
  induction procedure with
  | done result => exact h
  | fail cause => trivial
  | ask sides next ih => exact fun value => ih value (h value)

/-- A run that asks for a die succeeds only if the source shows one, and then as it goes on. -/
theorem exists_of_run_ask {sides : UInt32} {next : UInt32 → Rolling ε α} {source : Source σ}
    {state : σ} {result : α} (h : ((ask sides next).run source state).result = .ok result) :
    ∃ value after, source.roll sides state = (some value, after) ∧
      ((next value).run source after).result = .ok result := by
  rw [run_ask] at h
  rcases hroll : source.roll sides state with ⟨_ | value, after⟩
  · rw [hroll] at h
    cases h
  · rw [hroll] at h
    exact ⟨value, after, rfl, h⟩

/-- A run can only end with a result of its procedure. -/
theorem Always.run {property : α → Prop} {procedure : Rolling ε α}
    (h : procedure.Always property) (source : Source σ) (state : σ) {result : α}
    (hrun : (procedure.run source state).result = .ok result) : property result := by
  induction procedure generalizing state with
  | done a =>
    cases hrun
    exact h
  | fail cause => cases hrun
  | ask sides next ih =>
    obtain ⟨value, after, -, hrest⟩ := exists_of_run_ask hrun
    exact ih value (h value) after hrest

/-- What follows behind several dice goes on with their values. -/
theorem askMany_bind (sides : UInt32) (count : Nat) (next : List UInt32 → Rolling ε α)
    (behind : α → Rolling ε β) :
    (askMany sides count next >>= behind) =
      askMany sides count fun values => next values >>= behind := by
  induction count generalizing next with
  | zero => rfl
  | succ count ih => exact congrArg (ask sides) (funext fun value => ih _)

/-- The causes of failures are changed in each part of a sequence. -/
theorem mapError_bind (f : ε → δ) (procedure : Rolling ε α) (next : α → Rolling ε β) :
    (procedure >>= next).mapError f =
      procedure.mapError f >>= fun result => (next result).mapError f := by
  change (Rolling.bind procedure next).mapError f = Rolling.bind _ _
  induction procedure with
  | done result => rfl
  | fail cause => rfl
  | ask sides continuation ih => simp only [Rolling.bind, Rolling.mapError, ih]

/-- What is done at once has no cause to change. -/
theorem mapError_pure (f : ε → δ) (result : α) :
    (pure result : Rolling ε α).mapError f = pure result := rfl

/-- The result and the causes can be changed in either order. -/
theorem mapError_map (f : ε → δ) (g : α → β) (procedure : Rolling ε α) :
    (g <$> procedure).mapError f = g <$> procedure.mapError f := by
  rw [← bind_pure_comp, ← bind_pure_comp, mapError_bind]
  rfl

/-- Changing the result of a procedure changes nothing else about its runs. -/
theorem run_bind_pure (g : α → β) (procedure : Rolling ε α) (source : Source σ) (state : σ) :
    (procedure >>= fun result => pure (g result)).run source state =
      (procedure.run source state).map g := by
  rw [run_bind, Run.map]
  rcases procedure.run source state with ⟨_ | result, shown, after⟩
  · rfl
  · simp [pure, Except.map]

/-- Changing the result changes nothing else of a run. -/
theorem run_map (g : α → β) (procedure : Rolling ε α) (source : Source σ) (state : σ) {result : α}
    (h : (procedure.run source state).result = .ok result) :
    (g <$> procedure).run source state =
      ⟨.ok (g result), (procedure.run source state).shown, (procedure.run source state).state⟩ := by
  rw [← bind_pure_comp, run_bind_pure, Run.map, h]
  rfl

/-- A run that succeeds does so under any name of its causes, with the same dice. -/
theorem run_mapError (f : ε → δ) (procedure : Rolling ε α) (source : Source σ) (state : σ)
    {result : α} (h : (procedure.run source state).result = .ok result) :
    (procedure.mapError f).run source state =
      ⟨.ok result, (procedure.run source state).shown, (procedure.run source state).state⟩ := by
  induction procedure generalizing state with
  | done a =>
    cases h
    rfl
  | fail cause => cases h
  | ask sides next ih =>
    obtain ⟨value, after, hroll, hrest⟩ := exists_of_run_ask h
    rw [Rolling.mapError, run_ask, run_ask, hroll]
    simp only [ih value after hrest]

/-- The result of a run does not depend on the names of the causes of failure. -/
theorem toOption_run_mapError (f : ε → δ) (procedure : Rolling ε α)
    (source : Source σ) (state : σ) :
    ((procedure.mapError f).run source state).result.toOption =
      (procedure.run source state).result.toOption := by
  induction procedure generalizing state with
  | done result => rfl
  | fail cause => rfl
  | ask sides next ih =>
    rw [mapError, run_ask, run_ask]
    rcases source.roll sides state with ⟨_ | value, after⟩
    · rfl
    · exact ih value after

end Rolling

end DiceNotation
