import DiceNotation.Proofs.BuiltLeaves
import DiceNotation.Proofs.Histories
import DiceNotation.Proofs.Streams

/-!
# What the check of dice says about rolling them

Dice are checked as a whole when they are written, and once more while they are rolled, rule by rule
and where each would be broken. Both agree: rolling ends with a result if the dice pass their check,
and otherwise it fails for the error that the check gives, whatever values are shown before. So an
expression can be evaluated if all of its leaves pass, and fails for the first one that does not.
Building lets no other leaves pass than those that can be rolled.
-/

namespace DiceNotation

namespace Rolling

variable {ε δ α β σ : Type}

/-- A procedure that ends with a result if a verdict is passed, and fails for the cause that the
verdict gives otherwise, whatever values it is shown. -/
def Obeys (verdict : Except ε Unit) : Rolling ε α → Prop
  | done _ => verdict = .ok ()
  | fail cause => verdict = .error cause
  | ask _ next => ∀ value, (next value).Obeys verdict

/-- What never fails obeys the verdict that nothing is wrong. -/
theorem Surely.obeys {property : α → Prop} {procedure : Rolling ε α}
    (h : procedure.Surely property) : procedure.Obeys (.ok ()) := by
  induction procedure with
  | done result => rfl
  | fail cause => exact h.elim
  | ask sides next ih => exact fun value => ih value (h value)

namespace Obeys

variable {procedure : Rolling ε α} {verdict : Except ε Unit}

/-- Changing the causes of failures changes the verdict alike. -/
theorem mapError (h : procedure.Obeys verdict) (f : ε → δ) :
    (procedure.mapError f).Obeys (verdict.mapError f) := by
  induction procedure with
  | done result => exact congrArg (Except.mapError f) h
  | fail cause => exact congrArg (Except.mapError f) h
  | ask sides next ih => exact fun value => ih value (h value)

/-- Asking for dice leaves the verdict to what follows. -/
theorem askMany {sides : UInt32} {count : Nat} {next : List UInt32 → Rolling ε α}
    (h : ∀ values, (next values).Obeys verdict) :
    (Rolling.askMany sides count next).Obeys verdict := by
  induction count generalizing next with
  | zero => exact h []
  | succ count ih => exact fun value => ih fun values => h (value :: values)

/-- A sequence obeys two verdicts, of which the second counts only if the first is passed. -/
theorem bind {second : Except ε Unit} {next : α → Rolling ε β} (h : procedure.Obeys verdict)
    (hnext : ∀ result, (next result).Obeys second) :
    (procedure >>= next).Obeys (verdict >>= fun _ => second) := by
  change (Rolling.bind procedure next).Obeys _
  induction procedure with
  | done result =>
    rw [show verdict = .ok () from h]
    exact hnext result
  | fail cause =>
    rw [show verdict = .error cause from h]
    rfl
  | ask sides continuation ih => exact fun value => ih value (h value)

/-- Changing the result does not change the verdict. -/
theorem bind_pure (h : procedure.Obeys verdict) (f : α → β) :
    (procedure >>= fun result => pure (f result)).Obeys verdict := by
  have hsequence : (procedure >>= fun result => pure (f result)).Obeys
      (verdict >>= fun _ => .ok ()) := h.bind fun _ => rfl
  rwa [show (verdict >>= fun _ => Except.ok ()) = verdict by cases verdict <;> rfl] at hsequence

/-- On a source that does not run out, a run ends as the verdict says. -/
theorem run (h : procedure.Obeys verdict) {source : Source σ} {state : σ}
    (hendless : source.EndlessFrom state) :
    (verdict = .ok () ∧ ∃ result, (procedure.run source state).result = .ok result) ∨
      ∃ cause, verdict = .error cause ∧
        (procedure.run source state).result = .error (.failed cause) := by
  induction procedure generalizing state with
  | done result => exact .inl ⟨h, result, rfl⟩
  | fail cause => exact .inr ⟨cause, h, rfl⟩
  | ask sides next ih =>
    obtain ⟨value, after, hroll, hafter⟩ := hendless.exists_next sides
    rw [run_ask, hroll]
    exact ih value (h value) hafter

/-- A run has no result exactly if the verdict is not passed, and for the cause that it gives. -/
theorem run_eq_error_iff (h : procedure.Obeys verdict) {source : Source σ} {state : σ}
    (hendless : source.EndlessFrom state) (stop : Stop ε) :
    (procedure.run source state).result = .error stop ↔
      ∃ cause, verdict = .error cause ∧ stop = .failed cause := by
  rcases h.run hendless with ⟨hpassed, result, hresult⟩ | ⟨cause, hcause, hresult⟩
  · rw [hpassed, hresult]
    constructor
    · intro herror
      cases herror
    · rintro ⟨cause, hcause, -⟩
      cases hcause
  · rw [hcause, hresult]
    constructor
    · intro herror
      exact ⟨cause, rfl, (Except.error.inj herror).symm⟩
    · rintro ⟨other, hother, rfl⟩
      rw [Except.error.inj hother]

end Obeys

end Rolling

open Rolling

/-! ## Dice -/

/-- Rolling dice obeys their check. -/
theorem Dice.obeys_roll (dice : Dice) : dice.roll.Obeys (dice.validate.mapError .rule) := by
  by_cases hcount : maxDice < dice.count
  · have hvalidate : dice.validate = .error (.tooManyDice dice) := if_pos hcount
    have hroll : dice.roll = .fail (.rule (.tooManyDice dice)) := by
      rw [roll, rollPlain, if_pos hcount]
      rfl
    rw [hvalidate, hroll]
    rfl
  · cases hmodifier : dice.modifier with
    | none =>
      have hvalidate : dice.validate = .ok () := by
        rw [validate, if_neg hcount, hmodifier]
      rw [hvalidate, roll, rollPlain, if_neg hcount, askMany_bind, hmodifier]
      exact Obeys.askMany fun values => rfl
    | some modifier =>
      rw [Dice.validate_eq hcount hmodifier, Dice.roll_eq (UInt32.not_lt.1 hcount) hmodifier]
      apply Obeys.askMany
      intro values
      cases hbroken : modifier.brokenRule? dice with
      | some error =>
        rw [Modifier.apply_of_brokenRule hbroken]
        rfl
      | none => exact (Modifier.surely_apply hbroken).obeys

/-! ## Expressions -/

/-- The verdict on a leaf, which is the check of its dice. -/
def Leaf.verdict (leaf : Leaf) : Except EvaluationError Unit :=
  leaf.set.validate.mapError fun error => ⟨leaf.expression, .rule error⟩

/-- Rolling that obeys the check of a leaf obeys the verdict on it, if the failure names the
leaf. -/
theorem Leaf.obeys_mapError {α : Type} {leaf : Leaf} {procedure : Rolling RollFault α}
    (h : procedure.Obeys (leaf.set.validate.mapError .rule)) :
    (procedure.mapError (EvaluationError.mk leaf.expression)).Obeys leaf.verdict := by
  have hnamed := h.mapError (EvaluationError.mk leaf.expression)
  rw [verdict]
  cases hvalidate : leaf.set.validate with
  | error error =>
    rw [hvalidate] at hnamed
    exact hnamed
  | ok =>
    rw [hvalidate] at hnamed
    exact hnamed

namespace Expression

/-- The verdict on an expression, which is passed if it is passed on every leaf and is that on the
first leaf on which it is not passed otherwise. -/
def verdict (expression : Expression) : Except EvaluationError Unit :=
  forM expression.leaves Leaf.verdict

/-- Nothing is wrong with an expression exactly if all its leaves can be rolled. -/
theorem verdict_eq_ok_iff {expression : Expression} :
    expression.verdict = .ok () ↔ ∀ leaf ∈ expression.leaves, leaf.set.validate = .ok () := by
  rw [verdict, forM_eq_ok_iff]
  exact forall₂_congr fun leaf _ => mapError_eq_ok_iff

/-- The verdict on an expression is that on the first leaf that cannot be rolled. -/
theorem verdict_eq_error_iff {expression : Expression} {cause : EvaluationError} :
    expression.verdict = .error cause ↔
      ∃ (before : List Leaf) (leaf : Leaf) (behind : List Leaf) (error : DiceError),
        expression.leaves = before ++ leaf :: behind ∧
        (∀ other ∈ before, other.set.validate = .ok ()) ∧ leaf.set.validate = .error error ∧
        cause = ⟨leaf.expression, .rule error⟩ := by
  rw [verdict, forM_eq_error_iff]
  constructor
  · rintro ⟨before, leaf, behind, hleaves, hbefore, hfails⟩
    obtain ⟨error, herror, hcause⟩ := mapError_eq_error_iff.1 hfails
    exact ⟨before, leaf, behind, error, hleaves,
      fun other hother => mapError_eq_ok_iff.1 (hbefore other hother), herror, hcause.symm⟩
  · rintro ⟨before, leaf, behind, error, hleaves, hbefore, herror, hcause⟩
    exact ⟨before, leaf, behind, hleaves,
      fun other hother => mapError_eq_ok_iff.2 (hbefore other hother),
      mapError_eq_error_iff.2 ⟨error, herror, hcause.symm⟩⟩

/-- The verdict on an expression with a single leaf is that on the leaf. -/
theorem verdict_of_single {expression : Expression} {leaf : Leaf} (h : expression.leaves = [leaf]) :
    expression.verdict = leaf.verdict := by
  rw [verdict, h, List.forM_cons, List.forM_nil]
  cases leaf.verdict <;> rfl

/-- Expressions that obey their verdicts obey the first one that finds something wrong. -/
theorem obeys_evaluateAll {entries : List Expression}
    (h : ∀ entry ∈ entries, entry.evaluate.Obeys entry.verdict) :
    (evaluateAll entries).Obeys (forM (leavesOfAll entries) Leaf.verdict) := by
  induction entries with
  | nil => rfl
  | cons entry entries ih =>
    obtain ⟨hentry, hentries⟩ := List.forall_mem_cons.1 h
    rw [evaluateAll, leavesOfAll, List.forM_append]
    exact hentry.bind fun tree => (ih hentries).bind_pure _

/-- Evaluating an expression obeys the verdict on it. -/
theorem obeys_evaluate (expression : Expression) :
    expression.evaluate.Obeys expression.verdict := by
  induction expression using Expression.induction with
  | number x => rfl
  | dice set =>
    have hroll := @Leaf.obeys_mapError _ (.dice set) _ set.obeys_roll
    rw [verdict_of_single rfl]
    exact hroll.bind_pure _
  | check set =>
    have hroll := @Leaf.obeys_mapError _ (.check set) set.roll (set.dice.obeys_roll.bind_pure _)
    rw [verdict_of_single rfl]
    exact hroll.bind_pure _
  | sum terms ih => exact (obeys_evaluateAll ih).bind_pure _
  | product factors ih => exact (obeys_evaluateAll ih).bind_pure _
  | power base exponent hbase hexponent =>
    rw [evaluate, verdict, leaves, List.forM_append]
    exact hbase.bind fun left => hexponent.bind_pure _
  | list entries ih => exact (obeys_evaluateAll ih).bind_pure _
  | commented body before after ih => exact ih.bind_pure _

end Expression

/-- On a source that does not run out, rolling dice fails exactly if they do not pass their check,
and for the error that the check gives. Evaluating an expression fails exactly if a leaf does not
pass, and for the first one that does not. All leaves of what is built pass, so that evaluating it
ends with a tree. -/
theorem run_fails_iff_validate_fails :
    (∀ (dice : Dice) {σ : Type} (source : Source σ) (state : σ), source.EndlessFrom state →
      ∀ stop : Stop RollFault, (dice.roll.run source state).result = .error stop ↔
        ∃ error, dice.validate = .error error ∧ stop = .failed (.rule error)) ∧
    (∀ (expression : Expression) {σ : Type} (source : Source σ) (state : σ),
      source.EndlessFrom state →
      ∀ stop : Stop EvaluationError, (expression.evaluate.run source state).result = .error stop ↔
        ∃ (before : List Leaf) (leaf : Leaf) (behind : List Leaf) (error : DiceError),
          expression.leaves = before ++ leaf :: behind ∧
          (∀ other ∈ before, other.set.validate = .ok ()) ∧ leaf.set.validate = .error error ∧
          stop = .failed ⟨leaf.expression, .rule error⟩) ∧
    ∀ (node : Node) (built : Expression), node.build = .ok built →
      (∀ leaf ∈ built.leaves, leaf.set.validate = .ok ()) ∧
      ∀ {σ : Type} (source : Source σ) (state : σ), source.EndlessFrom state →
        ∃ tree, (built.evaluate.run source state).result = .ok tree := by
  refine ⟨fun dice {σ} source state hendless stop => ?_,
    fun expression {σ} source state hendless stop => ?_, fun node built hbuild => ?_⟩
  · rw [dice.obeys_roll.run_eq_error_iff hendless]
    constructor
    · rintro ⟨cause, hcause, hstop⟩
      obtain ⟨error, herror, rfl⟩ := mapError_eq_error_iff.1 hcause
      exact ⟨error, herror, hstop⟩
    · rintro ⟨error, herror, hstop⟩
      exact ⟨.rule error, mapError_eq_error_iff.2 ⟨error, herror, rfl⟩, hstop⟩
  · rw [expression.obeys_evaluate.run_eq_error_iff hendless]
    constructor
    · rintro ⟨cause, hcause, hstop⟩
      obtain ⟨before, leaf, behind, error, hleaves, hbefore, herror, rfl⟩ :=
        Expression.verdict_eq_error_iff.1 hcause
      exact ⟨before, leaf, behind, error, hleaves, hbefore, herror, hstop⟩
    · rintro ⟨before, leaf, behind, error, hleaves, hbefore, herror, hstop⟩
      exact ⟨_, Expression.verdict_eq_error_iff.2
        ⟨before, leaf, behind, error, hleaves, hbefore, herror, rfl⟩, hstop⟩
  · have hvalid := node.validate_of_build hbuild
    refine ⟨hvalid, fun {σ} source state hendless => ?_⟩
    have hpassed : built.verdict = .ok () := Expression.verdict_eq_ok_iff.2 hvalid
    rcases built.obeys_evaluate.run hendless with ⟨-, hresult⟩ | ⟨cause, hcause, -⟩
    · exact hresult
    · rw [hpassed] at hcause
      cases hcause

/-- Dice that are too many and explode on everything fail for their number. In an expression, a
check in front of them fails for the dice that it rerolls. What is built of a short check is
rolled. -/
theorem run_fails_iff_validate_fails_twice :
    let source := Source.iterating (nextOfStream fun _ => 1)
    let broken : Dice := ⟨1001, 6, some (.explode 1 100)⟩
    let check : Check := ⟨⟨1, 6, some (.rerollLowest 2)⟩, ⟨.atLeast, 5⟩⟩
    let expression := Expression.sum [.dice ⟨2, 6, none⟩, .check check, .dice broken]
    (broken.roll.run source 0).result = .error (.failed (.rule (.tooManyDice broken))) ∧
    (expression.evaluate.run source 0).result =
      .error (.failed ⟨.check check, .rule (.tooManyRerolls check.dice)⟩) ∧
    ∃ tree, ((Expression.check (.nb 4 6)).evaluate.run source 0).result = .ok tree := by
  intro source broken check expression
  have hendless : source.EndlessFrom 0 := (endless_stream fun _ => 1).endlessFrom 0
  have hbroken : broken.validate = .error (.tooManyDice broken) := by decide
  have hfirst : ∀ other ∈ [Leaf.dice ⟨2, 6, none⟩], other.set.validate = .ok () := by decide
  have hcheck : check.dice.validate = .error (.tooManyRerolls check.dice) := by decide
  refine ⟨?_, ?_, ?_⟩
  · exact (run_fails_iff_validate_fails.1 broken source 0 hendless _).2 ⟨_, hbroken, rfl⟩
  · exact (run_fails_iff_validate_fails.2.1 expression source 0 hendless _).2
      ⟨_, .check check, [.dice broken], _, rfl, hfirst, hcheck, rfl⟩
  · exact (run_fails_iff_validate_fails.2.2 (.nb .hard "4") _ rfl).2 source 0 hendless

end DiceNotation
