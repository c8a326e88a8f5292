/-!
# Rolling procedures

A rolling procedure asks for dice one at a time. Which die it asks for next may depend on the
values shown so far, and in the end it is done with a result or fails for a cause. A procedure
knows nothing about where the dice come from: it is run on a source of dice, which may run out.
Running a sequence of two procedures runs the second on what the first left of the source.
-/

namespace DiceNotation

/-- A procedure that asks for dice and ends with a result of type `α` or a cause of type `ε`. -/
inductive Rolling (ε α : Type) where
  /-- The procedure is done. -/
  | done (result : α)
  /-- The procedure fails. -/
  | fail (cause : ε)
  /-- The procedure asks for a die and goes on with the value it shows. -/
  | ask (sides : UInt32) (next : UInt32 → Rolling ε α)

namespace Rolling

variable {ε δ α β σ : Type}

/-- Follows a procedure with one that depends on its result. -/
protected def bind : Rolling ε α → (α → Rolling ε β) → Rolling ε β
  | done result, f => f result
  | fail cause, _ => fail cause
  | ask sides next, f => ask sides fun value => (next value).bind f

instance : Monad (Rolling ε) where
  pure := done
  bind := Rolling.bind

/-- Following a procedure with one that only returns its result changes nothing. -/
theorem bind_done (procedure : Rolling ε α) : procedure.bind done = procedure := by
  induction procedure with
  | done result => rfl
  | fail cause => rfl
  | ask sides next ih => simp only [Rolling.bind, ih]

/-- Procedures that follow each other may be grouped either way. -/
theorem bind_assoc {γ : Type} (procedure : Rolling ε α) (f : α → Rolling ε β)
    (g : β → Rolling ε γ) :
    (procedure.bind f).bind g = procedure.bind fun result => (f result).bind g := by
  induction procedure with
  | done result => rfl
  | fail cause => rfl
  | ask sides next ih => simp only [Rolling.bind, ih]

instance : LawfulMonad (Rolling ε) :=
  LawfulMonad.mk' (Rolling ε) bind_done (fun _ _ => rfl) bind_assoc

/-- The same procedure with its cause of failure turned into another one. -/
def mapError (f : ε → δ) : Rolling ε α → Rolling δ α
  | done result => done result
  | fail cause => fail (f cause)
  | ask sides next => ask sides fun value => (next value).mapError f

/-- A procedure that asks for no die. -/
def ofExcept : Except ε α → Rolling ε α
  | .ok result => done result
  | .error cause => fail cause

/-- Asks for some number of dice with the same number of sides, then goes on with their values in
the order in which they were shown. -/
def askMany (sides : UInt32) : Nat → (List UInt32 → Rolling ε α) → Rolling ε α
  | 0, next => next []
  | count + 1, next =>
    ask sides fun value => askMany sides count fun values => next (value :: values)

end Rolling

/-- A source of dice. Asked for a die, it shows a value or has run out, and changes its state. What
it gives is a value alone, so every die of a source is a fresh one: sources whose dice are already
marked as added or dropped are left out. -/
structure Source (σ : Type) where
  /-- The value of a die with a number of sides, if there is one, and the state afterwards. -/
  roll : UInt32 → σ → Option UInt32 × σ

/-- A source that never runs out. -/
def Source.Endless {σ : Type} (source : Source σ) : Prop :=
  ∀ sides state, (source.roll sides state).1.isSome

/-- A die that was asked for and shown. -/
structure ShownDie where
  /-- The number of sides asked for. -/
  sides : UInt32
  /-- The value shown. -/
  value : UInt32
deriving DecidableEq, Repr

/-- Why a run has no result. -/
inductive Stop (ε : Type) where
  /-- The source had run out when a die with this number of sides was asked for. -/
  | outOfDice (sides : UInt32)
  /-- The procedure failed. -/
  | failed (cause : ε)
deriving DecidableEq, Repr

/-- What comes of running a procedure on a source. -/
structure Run (σ ε α : Type) where
  /-- The result, or why there is none. -/
  result : Except (Stop ε) α
  /-- The dice that were shown, in order. -/
  shown : List ShownDie
  /-- The state in which the source is left. -/
  state : σ

/-- The numbers of sides that were asked for, in order; the last of them may not have been shown. -/
def Run.asked {σ ε α : Type} (run : Run σ ε α) : List UInt32 :=
  run.shown.map ShownDie.sides ++
    match run.result with
    | .error (.outOfDice sides) => [sides]
    | _ => []

namespace Rolling

variable {ε α β σ : Type}

/-- Runs a procedure on a source, given the dice shown before in reverse order. -/
def runAfter (source : Source σ) (before : List ShownDie) : Rolling ε α → σ → Run σ ε α
  | done result, state => ⟨.ok result, before.reverse, state⟩
  | fail cause, state => ⟨.error (.failed cause), before.reverse, state⟩
  | ask sides next, state =>
    match source.roll sides state with
    | (some value, state) => runAfter source (⟨sides, value⟩ :: before) (next value) state
    | (none, state) => ⟨.error (.outOfDice sides), before.reverse, state⟩

/-- Runs a procedure on a source in some state. -/
def run (source : Source σ) (procedure : Rolling ε α) (state : σ) : Run σ ε α :=
  procedure.runAfter source [] state

/-- Dice shown before come first and change nothing else. -/
theorem runAfter_eq (source : Source σ) (before : List ShownDie) (procedure : Rolling ε α)
    (state : σ) :
    procedure.runAfter source before state =
      { procedure.run source state with
        shown := before.reverse ++ (procedure.run source state).shown } := by
  unfold run
  induction procedure generalizing before state with
  | done result => simp [runAfter]
  | fail cause => simp [runAfter]
  | ask sides next ih =>
    simp only [runAfter]
    rcases source.roll sides state with ⟨value | _, after⟩
    · simp
    · rename_i value
      simp only
      rw [ih value (⟨sides, value⟩ :: before), ih value [⟨sides, value⟩]]
      simp

@[simp] theorem run_done (source : Source σ) (result : α) (state : σ) :
    (done result : Rolling ε α).run source state = ⟨.ok result, [], state⟩ := rfl

@[simp] theorem run_fail (source : Source σ) (cause : ε) (state : σ) :
    (fail cause : Rolling ε α).run source state = ⟨.error (.failed cause), [], state⟩ := rfl

/-- A die that is asked for is shown first, unless the source has run out. -/
theorem run_ask (source : Source σ) (sides : UInt32) (next : UInt32 → Rolling ε α) (state : σ) :
    (ask sides next).run source state =
      match source.roll sides state with
      | (some value, state) =>
        { (next value).run source state with
          shown := ⟨sides, value⟩ :: ((next value).run source state).shown }
      | (none, state) => ⟨.error (.outOfDice sides), [], state⟩ := by
  rw [run, runAfter]
  split
  · rw [runAfter_eq]
    rfl
  · rfl

/-- The second of two procedures runs on what the first left of the source. -/
theorem run_bind (source : Source σ) (procedure : Rolling ε α) (f : α → Rolling ε β) (state : σ) :
    (procedure >>= f).run source state =
      match procedure.run source state with
      | ⟨.ok result, shown, state⟩ =>
        { (f result).run source state with
          shown := shown ++ ((f result).run source state).shown }
      | ⟨.error stop, shown, state⟩ => ⟨.error stop, shown, state⟩ := by
  change (procedure.bind f).run source state = _
  induction procedure generalizing state with
  | done result => rfl
  | fail cause => rfl
  | ask sides next ih =>
    rw [Rolling.bind, run_ask, run_ask]
    rcases source.roll sides state with ⟨_ | value, after⟩
    · rfl
    · simp only [ih]
      rcases (next value).run source after with ⟨_ | _, _, _⟩ <;> rfl

end Rolling

end DiceNotation
