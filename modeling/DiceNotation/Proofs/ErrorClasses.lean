import DiceNotation.Dice.Supply
import DiceNotation.Proofs.Grammar.Literals

/-!
# Errors of a roll

What is wrong with a text is found while it is read and built, before any die is asked for, so it
is the same for all sources of dice. Once an expression is built, it can always be evaluated on a
source that does not run out. Then only arithmetic can fail, and only where dice are involved.
-/

namespace DiceNotation

/-- A part of an expression that is written in a text. -/
def Node.WrittenIn (part : Node) (text : String) : Prop :=
  ∃ entries, readEntries text = .ok entries ∧ ∃ entry ∈ entries, part.Within entry.node

/-- The errors that rolling a text can report, and what each of them tells about the text. -/
inductive RollError.Reported (text : String) : RollError → Prop where
  /-- The text does not match the grammar. -/
  | malformed {error : SyntaxError} (h : readEntries text = .error error) :
    Reported text (.malformed error)
  /-- A numeral that stands in the text does not fit. -/
  | invalidNumber {part : Node} {digits : String} (hpart : part.WrittenIn text)
    (hunfit : part.Unfit digits) (hdigits : digits.toList <:+: text.toList) :
    Reported text (.meaningless (.invalidNumber digits))
  /-- Dice of the text cannot be rolled. -/
  | dice {part : Node} {leaf : Leaf} {error : DiceError} (hpart : part.WrittenIn text)
    (hdenotes : part.Denotes leaf) (hinvalid : leaf.set.validate = .error error)
    (hknown : ∀ symbol, error ≠ .unknownCondition symbol) :
    Reported text (.meaningless (.dice error))
  /-- A power of the text has some other number of operands than two. -/
  | powerArity {operands : List Node} (hpart : (Node.power operands).WrittenIn text)
    (h : operands.length ≠ 2) : Reported text (.meaningless (.powerArity operands.length))
  /-- A constant part has no value. -/
  | constant {cause : ArithmeticError} (h : cause.IsNumeric) :
    Reported text (.meaningless (.calculation cause))
  /-- An entry with dice or a check has no value after it was rolled. -/
  | calculation {entries : List Entry} {entry : Entry} {leaf : Node} {cause : ArithmeticError}
    (hread : readEntries text = .ok entries) (hmem : entry ∈ entries)
    (hleaf : leaf ∈ entry.node.leaves) (h : cause.IsNumeric) : Reported text (.calculation cause)

/-! ## Texts without a meaning -/

/-- If entries cannot be built, neither can the expression of one of them. -/
theorem exists_of_ofEntries_eq_error {entries : List Entry} {cause : BuildError}
    (h : Expression.ofEntries entries = .error cause) :
    ∃ entry ∈ entries, entry.node.build = .error cause := by
  rw [Expression.ofEntries] at h
  rcases bind_eq_error_iff.1 h with hbuild | ⟨expressions, -, hpure⟩
  · rw [buildEntries_eq_mapM] at hbuild
    obtain ⟨entry, hmem, hentry⟩ := exists_of_mapM_eq_error hbuild
    rw [Entry.build_eq] at hentry
    rcases bind_eq_error_iff.1 hentry with hnode | ⟨_, -, hpure⟩
    · exact ⟨entry, hmem, hnode⟩
    · cases hpure
  · split at hpure <;> cases hpure

/-- The error of an entry that cannot be built names what is wrong with the text. -/
theorem reported_of_build {text : String} {entries : List Entry} {entry : Entry}
    {cause : BuildError} (hread : readEntries text = .ok entries) (hmem : entry ∈ entries)
    (h : entry.node.build = .error cause) : (RollError.meaningless cause).Reported text := by
  obtain ⟨part, hwithin, hrefused⟩ := entry.node.exists_refused_of_build h
  obtain ⟨tokens, hderives, htext⟩ := exists_derives_of_readEntries hread hmem
  obtain ⟨inner, own, hpart, hown⟩ := hderives.derivedFrom_of_within hwithin
  have hwritten : part.WrittenIn text := ⟨entries, hread, entry, hmem, hwithin⟩
  cases cause with
  | invalidNumber digits =>
    obtain ⟨hunfit, htoken⟩ := hpart.unfit_of_refused hrefused
    exact .invalidNumber hwritten hunfit (htext _ (hown htoken))
  | dice error =>
    have hknown : ∀ symbol, error ≠ .unknownCondition symbol := by
      rintro symbol rfl
      exact hpart.not_refused_unknownCondition hrefused
    cases hrefused with
    | comparison => exact absurd rfl (hknown _)
    | dice hdenotes hinvalid => exact .dice hwritten hdenotes hinvalid hknown
  | powerArity count =>
    cases hrefused with
    | arity hlength => exact .powerArity hwritten hlength
  | calculation cause =>
    cases hrefused with
    | calculation hnumeric => exact .constant hnumeric

theorem reported_of_ofText {text : String} {error : RollError}
    (h : Expression.ofText text = .error error) : error.Reported text := by
  rw [Expression.ofText] at h
  rcases bind_eq_error_iff.1 h with hread | ⟨entries, hread, hbuild⟩
  · obtain ⟨inner, hinner, rfl⟩ := mapError_eq_error_iff.1 hread
    exact .malformed hinner
  · obtain ⟨cause, hcause, rfl⟩ := mapError_eq_error_iff.1 hbuild
    obtain ⟨entry, hmem, hentry⟩ := exists_of_ofEntries_eq_error hcause
    exact reported_of_build (mapError_eq_ok_iff.1 hread) hmem hentry

/-! ## Texts with a meaning -/

/-- A roll ends with the outcome of the tree that evaluating the expression ends with. -/
theorem result_rollText {σ : Type} {source : Source σ} {state : σ} {text : String}
    {expression : Expression} {tree : Evaluated} (h : Expression.ofText text = .ok expression)
    (htree : (expression.evaluate.run source state).result = .ok tree) :
    ((rollText text).run source state).result =
      (Outcome.of expression tree).mapError fun cause => .failed (.calculation cause) := by
  rw [rollText_of_ofText h, Rolling.run_bind,
    Rolling.run_mapError RollError.evaluation _ source state htree]
  dsimp only
  cases Outcome.of expression tree <;> rfl

theorem surely_evaluate_of_ofText {text : String} {expression : Expression}
    (h : Expression.ofText text = .ok expression) :
    expression.evaluate.Surely fun tree => ∀ rolled ∈ tree.leaves, rolled.total?.isSome = true := by
  obtain ⟨entries, -, hbuild⟩ := Expression.exists_of_ofText h
  exact Expression.surely_evaluate hbuild

/-- An outcome can only be missing for a reason of arithmetic, in an entry with dice or a check. -/
theorem reported_of_outcome {text : String} {expression : Expression} {shown : List ShownDie}
    {tree : Evaluated} {cause : ArithmeticError} (hof : Expression.ofText text = .ok expression)
    (hends : expression.evaluate.Ends shown tree)
    (h : Outcome.of expression tree = .error cause) :
    (RollError.calculation cause).Reported text := by
  obtain ⟨entries, hread, hbuild⟩ := Expression.exists_of_ofText hof
  have hbuilt := (Expression.forall₂_of_ofEntries hbuild).flip
  obtain ⟨built, hmem, hworthless⟩ := Outcome.worthless_of_of hends h
  obtain ⟨entry, hentry, hbuild⟩ := exists_of_forall₂_of_mem hbuilt hmem
  obtain ⟨hne, hnumeric⟩ := Entry.leaves_of_worthless hbuild hworthless
  obtain ⟨leaf, hleaf⟩ := List.exists_mem_of_ne_nil _ hne
  exact .calculation hread hentry hleaf hnumeric

/-! ## Rolls -/

/-- On a source that does not run out, rolling a text has an outcome or an error that tells what is
wrong with it. An error that is the fault of the text comes before any die, on every source. Once
there is an expression, it is evaluated, and every set of dice in its tree has a total. -/
theorem reported_of_rollText {σ : Type} {source : Source σ} {state : σ} (text : String)
    (h : source.EndlessFrom state) :
    let run := (rollText text).run source state
    (∀ stop, run.result = .error stop → ∃ error, stop = .failed error ∧ error.Reported text) ∧
      (∀ error, run.result = .error (.failed error) → error.isUserError = true →
        ∀ {τ : Type} (other : Source τ) (start : τ),
          (rollText text).run other start = ⟨.error (.failed error), [], start⟩) ∧
      ∀ expression, Expression.ofText text = .ok expression →
        ∃ tree, (expression.evaluate.run source state).result = .ok tree ∧
          ∀ rolled ∈ tree.leaves, rolled.total?.isSome = true := by
  intro run
  cases hof : Expression.ofText text with
  | error error =>
    have hrun : run = ⟨.error (.failed error), [], state⟩ := run_rollText_of_error hof source state
    rw [hrun]
    refine ⟨?_, ?_, ?_⟩
    · rintro stop ⟨⟩
      exact ⟨error, rfl, reported_of_ofText hof⟩
    · rintro _ ⟨⟩ -
      exact fun other start => run_rollText_of_error hof other start
    · rintro expression ⟨⟩
  | ok expression =>
    have hsurely := surely_evaluate_of_ofText hof
    obtain ⟨tree, htree⟩ := hsurely.run h
    obtain ⟨hends, -⟩ := Rolling.ends_of_run htree
    have hresult := result_rollText hof htree
    refine ⟨fun stop hstop => ?_, fun error herror huser => ?_, ?_⟩
    · obtain ⟨cause, hcause, rfl⟩ := mapError_eq_error_iff.1 (hresult.symm.trans hstop)
      exact ⟨_, rfl, reported_of_outcome hof hends hcause⟩
    · obtain ⟨cause, -, hcause⟩ := mapError_eq_error_iff.1 (hresult.symm.trans herror)
      cases hcause
      cases huser
    · rintro _ ⟨⟩
      exact ⟨tree, htree, hsurely.of_ends hends⟩

/-- A supply of one value never runs out. -/
theorem Supply.endlessFrom_constant (value : UInt32) :
    Supply.source.EndlessFrom (.constant value) := by
  intro shown rest hshows
  generalize hstart : Supply.constant value = start at hshows
  induction hshows with
  | nothing =>
    subst hstart
    exact fun sides => rfl
  | die hroll _ ih =>
    subst hstart
    cases hroll
    exact ih rfl

/-- The second number of dice is 2 ^ 32. It is reported without any roll, and so it is if there are
no dice at all. -/
theorem reported_of_rollText_numeral :
    Supply.source.EndlessFrom (.constant 1) ∧
      ((rollText "d6 + 4294967296d6").run Supply.source (.constant 1)).result =
        .error (.failed (.meaningless (.invalidNumber "4294967296"))) ∧
      (RollError.meaningless (.invalidNumber "4294967296")).Reported "d6 + 4294967296d6" ∧
      (rollText "d6 + 4294967296d6").run Supply.source (.listed []) =
        ⟨.error (.failed (.meaningless (.invalidNumber "4294967296"))), [], .listed []⟩ := by
  have hendless := Supply.endlessFrom_constant 1
  have hresult : ((rollText "d6 + 4294967296d6").run Supply.source (.constant 1)).result =
      .error (.failed (.meaningless (.invalidNumber "4294967296"))) := by
    rfl
  obtain ⟨hreported, hsame, -⟩ := reported_of_rollText "d6 + 4294967296d6" hendless
  obtain ⟨_, ⟨⟩, htext⟩ := hreported _ hresult
  exact ⟨hendless, hresult, htext, hsame _ hresult rfl Supply.source (.listed [])⟩

end DiceNotation
