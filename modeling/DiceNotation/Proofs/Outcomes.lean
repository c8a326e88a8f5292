import DiceNotation.Proofs.BuiltLeaves
import DiceNotation.Proofs.Gathering

/-!
# From texts to outcomes

Rolling a text reads it and builds its expression, evaluates the expression, and gathers the
outcome from the tree. If it succeeds, the outcome has an entry for every entry of the text, and its
value is the value of a tree that evaluating the expression of this entry ends with.
-/

namespace DiceNotation

open Rolling

/-- The operands of an operation that has a value are numbers. -/
theorem Evaluated.forall₂_of_numbers {operands : List Evaluated} {numbers : List Number}
    (h : Evaluated.numbers operands = .ok numbers) :
    List.Forall₂ (fun operand x => operand.value = .ok (.number x)) operands numbers := by
  induction operands generalizing numbers with
  | nil =>
    cases h
    exact .nil
  | cons operand operands ih =>
    rw [Evaluated.numbers] at h
    obtain ⟨value, hvalue, h⟩ := bind_eq_ok_iff.1 h
    obtain ⟨x, hx, h⟩ := bind_eq_ok_iff.1 h
    obtain ⟨rest, hrest, h⟩ := bind_eq_ok_iff.1 h
    cases pure_eq_ok_iff.1 h
    cases value with
    | number y =>
      cases hx
      exact .cons hvalue (ih hrest)
    | list values => cases hx

/-- The value of an operation is calculated from the numbers of its operands. -/
theorem Evaluated.combine_of_value {operation : Operation} {operands : List Evaluated}
    {value : Value} (h : (arithmetic operation operands).value = .ok value) :
    ∃ numbers z, List.Forall₂ (fun operand x => operand.value = .ok (.number x)) operands numbers ∧
      operation.combine numbers = .ok z ∧ value = .number z := by
  rw [Evaluated.value] at h
  obtain ⟨numbers, hnumbers, h⟩ := bind_eq_ok_iff.1 h
  obtain ⟨z, hz, h⟩ := bind_eq_ok_iff.1 h
  exact ⟨numbers, z, forall₂_of_numbers hnumbers, hz, (pure_eq_ok_iff.1 h).symm⟩

/-- A tree with these comments around it. -/
def Evaluated.withComments (tree : Evaluated) : Option String → Option String → Evaluated
  | none, none => tree
  | before, after => .commented tree before after

theorem Expression.evaluate_withComments (body : Expression) (before after : Option String) :
    (body.withComments before after).evaluate =
      body.evaluate >>= fun tree => pure (tree.withComments before after) := by
  cases before <;> cases after
  · exact (bind_pure body.evaluate).symm
  all_goals rfl

theorem Evaluated.value_withComments (tree : Evaluated) (before after : Option String) :
    (tree.withComments before after).value = tree.value := by
  cases before <;> cases after
  · rfl
  all_goals exact Evaluated.value.eq_def _

/-- A tree of an expression with comments has the same comments around a tree of the expression. -/
theorem Expression.ends_evaluate_withComments_iff {body : Expression}
    {before after : Option String} {shown : List ShownDie} {tree : Evaluated} :
    (body.withComments before after).evaluate.Ends shown tree ↔
      ∃ inner, body.evaluate.Ends shown inner ∧ inner.withComments before after = tree := by
  rw [evaluate_withComments, ends_bind_pure_iff]

/-- The expression of a text is that of its entries. -/
theorem Expression.exists_of_ofText {text : String} {expression : Expression}
    (h : ofText text = .ok expression) :
    ∃ entries, readEntries text = .ok entries ∧ ofEntries entries = .ok expression := by
  rw [ofText] at h
  obtain ⟨entries, hread, hbuild⟩ := bind_eq_ok_iff.1 h
  exact ⟨entries, mapError_eq_ok_iff.1 hread, mapError_eq_ok_iff.1 hbuild⟩

/-- A text without a meaning is refused before any die is asked for. -/
theorem run_rollText_of_error {σ : Type} {text : String} {error : RollError}
    (h : Expression.ofText text = .error error) (source : Source σ) (state : σ) :
    (rollText text).run source state = ⟨.error (.failed error), [], state⟩ := by
  rw [rollText, h]
  rfl

/-- A text with a meaning is rolled by evaluating its expression and gathering the outcome. -/
theorem rollText_of_ofText {text : String} {expression : Expression}
    (h : Expression.ofText text = .ok expression) :
    rollText text = expression.evaluate.mapError .evaluation >>= fun tree =>
      .ofExcept ((Outcome.of expression tree).mapError .calculation) := by
  rw [rollText, h]
  change (expression.evaluate.mapError RollError.evaluation >>= fun tree => pure _) >>= _ = _
  rw [LawfulMonad.bind_assoc]
  rfl

/-- A roll of a text that ends builds an expression, evaluates it and gathers the outcome. -/
theorem ends_rollText_iff_stages {text : String} {shown : List ShownDie} {outcome : Outcome} :
    (rollText text).Ends shown outcome ↔
      ∃ expression tree, Expression.ofText text = .ok expression ∧
        expression.evaluate.Ends shown tree ∧ Outcome.of expression tree = .ok outcome := by
  constructor
  · intro h
    obtain ⟨expression, first, second, hbuild, hsession, rfl⟩ := ends_bind_iff.1 h
    obtain ⟨rfl, htext⟩ := ends_ofExcept_iff.1 hbuild
    obtain ⟨session, third, fourth, hevaluate, hgather, rfl⟩ := ends_bind_iff.1 hsession
    obtain ⟨tree, htree, rfl⟩ := ends_bind_pure_iff.1 hevaluate
    obtain ⟨rfl, houtcome⟩ := ends_ofExcept_iff.1 hgather
    rw [List.nil_append, List.append_nil]
    exact ⟨expression, tree, htext, ends_mapError_iff.1 htree, mapError_eq_ok_iff.1 houtcome⟩
  · rintro ⟨expression, tree, htext, htree, houtcome⟩
    rw [rollText_of_ofText htext]
    refine ends_bind_iff.2 ⟨tree, shown, [], ends_mapError_iff.2 htree, ?_,
      (List.append_nil shown).symm⟩
    exact ends_ofExcept_iff.2 ⟨rfl, mapError_eq_ok_iff.2 houtcome⟩

/-- A roll that succeeds evaluates the expression of its text and gathers the outcome. -/
theorem exists_of_rollText {σ : Type} {source : Source σ} {state : σ} {text : String}
    {outcome : Outcome} (h : ((rollText text).run source state).result = .ok outcome) :
    ∃ expression shown tree, Expression.ofText text = .ok expression ∧
      expression.evaluate.Ends shown tree ∧ Outcome.of expression tree = .ok outcome := by
  obtain ⟨expression, tree, hstages⟩ := ends_rollText_iff_stages.1 (ends_of_run h).1
  exact ⟨expression, _, tree, hstages⟩

/-- If a roll succeeds, every entry of the outcome has a value that the expression of the entry in
its place is worth. -/
theorem worth_of_rollText {σ : Type} {source : Source σ} {state : σ} {text : String}
    {entries : List Entry} {outcome : Outcome} (hread : readEntries text = .ok entries)
    (hroll : ((rollText text).run source state).result = .ok outcome) :
    List.Forall₂ (fun entry rolled => ∃ built, entry.node.build = .ok built ∧
      built.Worth rolled.value) entries outcome.entries := by
  obtain ⟨expression, shown, tree, htext, hends, hof⟩ := exists_of_rollText hroll
  obtain ⟨_, hread', hbuild⟩ := Expression.exists_of_ofText htext
  cases hread.symm.trans hread'
  have hbuilt := Expression.forall₂_of_ofEntries hbuild
  refine (forall₂_trans hbuilt (Outcome.worth_of_of hends hof)).imp fun entry rolled h => ?_
  obtain ⟨expression, hentry, hworth⟩ := h
  obtain ⟨built, hbuild, rfl⟩ := Entry.exists_of_build hentry
  obtain ⟨shown, tree, hends, hvalue⟩ := hworth
  obtain ⟨inner, hinner, rfl⟩ := Expression.ends_evaluate_withComments_iff.1 hends
  rw [Evaluated.value_withComments] at hvalue
  exact ⟨built, hbuild, shown, inner, hinner, hvalue⟩

end DiceNotation
