import DiceNotation.Dice.Supply
import DiceNotation.Proofs.Gathering

/-!
# Steps of a session

A session can be asked for its notation, trace, value and outcome, and its expression can be
evaluated on any source, in any order and as often as one likes. What it holds after some steps is
the tree of the latest evaluation that succeeded. So its answers are in step with this tree, and an
evaluation that fails changes none of them.
-/

namespace DiceNotation

namespace Session

/-- What can be done with a session. -/
inductive Step where
  /-- Asking for the notation. -/
  | text
  /-- Asking for the trace. -/
  | trace
  /-- Asking for the value. -/
  | value
  /-- Asking for the outcome. -/
  | outcome
  /-- Evaluating the expression on a source in some state. -/
  | evaluate {σ : Type} (source : Source σ) (state : σ)

/-- The tree that a step evaluates an expression to, if it is an evaluation that succeeds. -/
def Step.tree? (expression : Expression) : Step → Option Evaluated
  | evaluate source state => (expression.evaluate.run source state).result.toOption
  | _ => none

/-- The session after a step. -/
def perform (session : Session) : Step → Session
  | .evaluate source state => session.evaluateOn source state
  | _ => session

/-- The session after some steps. -/
def performAll (session : Session) (steps : List Step) : Session := steps.foldl perform session

/-- The answers of a session. -/
structure Answers where
  /-- The trace of the latest evaluation. -/
  trace : Except RollError String
  /-- The value of the latest evaluation. -/
  value : Except RollError Value
  /-- The outcome of the latest evaluation. -/
  outcome : Except RollError Outcome

/-- The answers of a session. -/
def answers (session : Session) : Answers := ⟨session.trace, session.value, session.outcome⟩

/-! ## One step -/

/-- An evaluation that succeeds replaces the tree that is held, and one that fails keeps it. -/
theorem evaluateOn_eq {σ : Type} (source : Source σ) (session : Session) (state : σ) :
    session.evaluateOn source state =
      { session with
        latest := (session.expression.evaluate.run source state).result.toOption.or
          session.latest } := by
  rw [← Rolling.toOption_run_mapError RollError.evaluation]
  rw [evaluateOn, Session.evaluate, Rolling.run_bind_pure, Run.map]
  rcases ((session.expression.evaluate.mapError RollError.evaluation).run source state).result
    with _ | tree
  · rfl
  · rfl

/-- A step replaces the tree that is held if it has one itself, and changes nothing else. -/
theorem perform_eq (session : Session) (step : Step) :
    session.perform step =
      { session with latest := (step.tree? session.expression).or session.latest } := by
  cases step with
  | evaluate source state => exact evaluateOn_eq source session state
  | _ => rfl

/-- A step without a tree leaves the session as it is. -/
theorem perform_of_tree?_eq_none {session : Session} {step : Step}
    (h : step.tree? session.expression = none) : session.perform step = session := by
  rw [perform_eq, h]
  rfl

/-! ## Many steps -/

/-- The session keeps its expression and holds the last of the trees of its steps. -/
theorem performAll_eq (session : Session) (steps : List Step) :
    session.performAll steps =
      { session with
        latest := (steps.filterMap (Step.tree? session.expression)).getLast?.or
          session.latest } := by
  induction steps generalizing session with
  | nil => rfl
  | cons step steps ih =>
    rw [performAll, List.foldl_cons, ← performAll, ih, perform_eq]
    cases htree : step.tree? session.expression with
    | none => rw [List.filterMap_cons_none htree, Option.none_or]
    | some tree =>
      rw [List.filterMap_cons_some htree, List.getLast?_cons]
      cases (steps.filterMap (Step.tree? session.expression)).getLast? <;> rfl

/-- What a step evaluates an expression to is a tree of the expression. -/
theorem Step.becomes_of_tree? {expression : Expression} {step : Step} {tree : Evaluated}
    (h : step.tree? expression = some tree) : expression.Becomes tree := by
  cases step with
  | evaluate source state =>
    rw [tree?] at h
    cases hresult : (expression.evaluate.run source state).result with
    | error stop =>
      rw [hresult] at h
      cases h
    | ok result =>
      rw [hresult] at h
      cases h
      exact ⟨_, (Rolling.ends_of_run hresult).1⟩
  | _ => cases h

/-- The tree of the latest of some steps that is an evaluation that succeeds. -/
def latestOf (expression : Expression) (steps : List Step) : Option Evaluated :=
  (steps.filterMap (Step.tree? expression)).getLast?

/-- There is no latest tree exactly if no step has one. -/
theorem latestOf_eq_none_iff {expression : Expression} {steps : List Step} :
    latestOf expression steps = none ↔ ∀ step ∈ steps, step.tree? expression = none := by
  rw [latestOf, List.getLast?_eq_none_iff, List.filterMap_eq_nil_iff]

/-- The latest tree is a tree of the expression. -/
theorem becomes_of_latestOf {expression : Expression} {steps : List Step} {tree : Evaluated}
    (h : latestOf expression steps = some tree) : expression.Becomes tree := by
  obtain ⟨step, -, htree⟩ := List.mem_filterMap.1 (List.mem_of_getLast? h)
  exact Step.becomes_of_tree? htree

/-- A session is in step with the evaluations that were done with it. -/
structure InStep (session : Session) (expression : Expression) (steps : List Step) : Prop where
  /-- The notation is that of the expression. -/
  text : session.text = expression.text
  /-- There is no trace as long as no evaluation has succeeded. -/
  unevaluatedTrace : session.trace = .error .notEvaluated ↔
    ∀ step ∈ steps, step.tree? expression = none
  /-- There is no value as long as no evaluation has succeeded. -/
  unevaluatedValue : session.value = .error .notEvaluated ↔
    ∀ step ∈ steps, step.tree? expression = none
  /-- There is no outcome as long as no evaluation has succeeded. -/
  unevaluatedOutcome : session.outcome = .error .notEvaluated ↔
    ∀ step ∈ steps, step.tree? expression = none
  /-- The trace is that of the latest tree. -/
  trace : ∀ tree, latestOf expression steps = some tree → session.trace = .ok tree.trace
  /-- The value is that of the latest tree, if this has one. -/
  value : ∀ tree, latestOf expression steps = some tree →
    session.value = tree.value.mapError .calculation
  /-- The outcome gathers the expression and the latest tree. -/
  outcome : ∀ outcome, session.outcome = .ok outcome →
    ∃ tree, latestOf expression steps = some tree ∧ outcome.Gathers expression tree
  /-- There is an outcome wherever there is a value. -/
  gathered : ∀ value, session.value = .ok value → ∃ outcome, session.outcome = .ok outcome
  /-- The outcome cannot be calculated for the same cause as the value. -/
  calculation : ∀ cause, session.outcome = .error (.calculation cause) ↔
    session.value = .error (.calculation cause)
  /-- A step that is not an evaluation that succeeds changes no answer. -/
  failed : ∀ step, step.tree? expression = none →
    (session.perform step).answers = session.answers

/-- What fails only because of a calculation does not fail for want of an evaluation. -/
theorem mapError_calculation_ne {α : Type} (calculation : Except ArithmeticError α) :
    calculation.mapError RollError.calculation ≠ .error .notEvaluated := by
  intro h
  obtain ⟨cause, -, hcause⟩ := mapError_eq_error_iff.1 h
  cases hcause

/-- A calculation of a session fails for the cause for which it fails by itself. -/
theorem mapError_calculation_eq_iff {α : Type} {calculation : Except ArithmeticError α}
    {cause : ArithmeticError} :
    calculation.mapError RollError.calculation = .error (.calculation cause) ↔
      calculation = .error cause := by
  rw [mapError_eq_error_iff]
  constructor
  · rintro ⟨inner, h, hinner⟩
    cases hinner
    exact h
  · intro h
    exact ⟨cause, h, rfl⟩

/-- A session that holds no tree is in step with steps of which none has one. -/
theorem inStep_of_none {expression : Expression} {steps : List Step}
    (h : latestOf expression steps = none) :
    InStep ⟨expression, none⟩ expression steps where
  text := rfl
  unevaluatedTrace := iff_of_true rfl (latestOf_eq_none_iff.1 h)
  unevaluatedValue := iff_of_true rfl (latestOf_eq_none_iff.1 h)
  unevaluatedOutcome := iff_of_true rfl (latestOf_eq_none_iff.1 h)
  trace _ htree := nomatch h.symm.trans htree
  value _ htree := nomatch h.symm.trans htree
  outcome _ houtcome := nomatch houtcome
  gathered _ hvalue := nomatch hvalue
  calculation _ := iff_of_false nofun nofun
  failed _ hstep := congrArg answers (perform_of_tree?_eq_none hstep)

/-- A session that holds the latest tree of some steps is in step with them. -/
theorem inStep_of_some {expression : Expression} {steps : List Step} {tree : Evaluated}
    (h : latestOf expression steps = some tree) :
    InStep ⟨expression, some tree⟩ expression steps := by
  have hbecomes := becomes_of_latestOf h
  have hsome : ¬ ∀ step ∈ steps, step.tree? expression = none := by
    rw [← latestOf_eq_none_iff, h]
    exact nofun
  have hlatest : ∀ other, latestOf expression steps = some other → tree = other := by
    intro other hother
    exact Option.some.inj (h.symm.trans hother)
  exact {
    text := rfl
    unevaluatedTrace := iff_of_false nofun hsome
    unevaluatedValue := iff_of_false (mapError_calculation_ne _) hsome
    unevaluatedOutcome := iff_of_false (mapError_calculation_ne _) hsome
    trace := fun other hother => by rw [← hlatest other hother]; rfl
    value := fun other hother => by rw [← hlatest other hother]; rfl
    outcome := fun outcome houtcome =>
      ⟨tree, h, Outcome.gathers_of_of hbecomes (mapError_eq_ok_iff.1 houtcome)⟩
    gathered := fun value hvalue => by
      obtain ⟨outcome, hof, -⟩ := Outcome.exists_of hbecomes (mapError_eq_ok_iff.1 hvalue)
      exact ⟨outcome, mapError_eq_ok_iff.2 hof⟩
    calculation := fun cause => by
      calc Session.outcome ⟨expression, some tree⟩ = .error (.calculation cause)
        _ ↔ Outcome.of expression tree = .error cause := mapError_calculation_eq_iff
        _ ↔ tree.value = .error cause := Outcome.of_eq_error_iff hbecomes
        _ ↔ Session.value ⟨expression, some tree⟩ = .error (.calculation cause) :=
          mapError_calculation_eq_iff.symm
    failed := fun step hstep => congrArg answers (perform_of_tree?_eq_none hstep) }

/-- A session is always in step with the evaluations that were done with it, whatever the sources
show and whether or not they run out. -/
theorem inStep_performAll (expression : Expression) (steps : List Step) :
    ((start expression).performAll steps).InStep expression steps := by
  have hsession : (start expression).performAll steps =
      ⟨expression, latestOf expression steps⟩ := by
    rw [performAll_eq]
    exact congrArg (Session.mk expression) Option.or_none
  rw [hsession]
  cases h : latestOf expression steps with
  | none => exact inStep_of_none h
  | some tree => exact inStep_of_some h

/-- Two entries with comments are evaluated, and then again on a source that runs out at the second
die. The outcome is that of the first evaluation, with both entries and their comments. -/
theorem inStep_performAll_commented :
    let expression : Expression := .list
      [.commented (.sum [.dice ⟨1, 6, none⟩, .number (.integer 2)]) (some "attack") none,
        .commented (.dice ⟨2, 8, none⟩) none (some "damage")]
    let failing : Step := .evaluate Supply.source (.listed [6])
    let session := (start expression).performAll
      [.outcome, .evaluate Supply.source (.listed [4, 3, 5]), .trace, failing]
    session.InStep expression
        [.outcome, .evaluate Supply.source (.listed [4, 3, 5]), .trace, failing] ∧
      failing.tree? expression = none ∧
      ∃ outcome, session.outcome = .ok outcome ∧ outcome.text = expression.text ∧
        outcome.value = .list [.number (.integer 6), .number (.integer 8)] ∧
        outcome.entries =
          [⟨some "attack", none, "1d6 + 2", "(**4**) + 2", .number (.integer 6)⟩,
            ⟨none, some "damage", "2d8", "(3 + 5 => **8**)", .number (.integer 8)⟩] := by
  intro expression failing session
  have hstep : session.InStep expression _ := inStep_performAll expression
    [.outcome, .evaluate Supply.source (.listed [4, 3, 5]), .trace, failing]
  have hvalue : session.value = .ok (.list [.number (.integer 6), .number (.integer 8)]) := by
    rfl
  obtain ⟨outcome, houtcome⟩ := hstep.gathered _ hvalue
  obtain ⟨tree, htree, hgathers⟩ := hstep.outcome outcome houtcome
  have htold : outcome.value = .list [.number (.integer 6), .number (.integer 8)] := by
    rw [hstep.value tree htree, hgathers.value] at hvalue
    exact Except.ok.inj hvalue
  have hentries : session.outcome.toOption.map Outcome.entries =
      some [⟨some "attack", none, "1d6 + 2", "(**4**) + 2", .number (.integer 6)⟩,
        ⟨none, some "damage", "2d8", "(3 + 5 => **8**)", .number (.integer 8)⟩] := by
    rfl
  rw [houtcome] at hentries
  exact ⟨hstep, rfl, outcome, houtcome, hgathers.text, htold, Option.some.inj hentries⟩

/-- There is no trace before the first evaluation that succeeds. -/
example : ((start (.sum [.dice ⟨1, 6, none⟩, .dice ⟨1, 8, none⟩])).performAll
    [.trace, .evaluate Supply.source (.listed [3])]).trace = .error .notEvaluated := rfl

end Session

end DiceNotation
