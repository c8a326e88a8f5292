import DiceNotation.Proofs.Outcomes

/-!
# Rolling entry by entry

Rolling a text goes through its entries stage by stage: all are read, then all are built, then all
are evaluated, and at last their outcomes are gathered. An entry can also be rolled by itself, from
its expression to its value. A roll of a text succeeds exactly if its entries can be rolled by
themselves one after the other, each on what the ones before left of the dice, and then its outcome
is put together from theirs. Only the order in which errors are found is another one.
-/

namespace DiceNotation

open Rolling

/-- Rolls an entry by itself: its comments are trimmed and play no part in anything else. -/
def Entry.roll (entry : Entry) : Rolling RollError EntryOutcome := do
  let body ← .ofExcept (entry.node.build.mapError .meaningless)
  let tree ← body.evaluate.mapError .evaluation
  let value ← .ofExcept (tree.value.mapError .calculation)
  return ⟨trimComment entry.before, trimComment entry.after, body.text, tree.trace, value⟩

/-- The outcome that is put together from those of the entries: a single entry gives its own value,
several the list of their values. -/
def Outcome.ofEntries (entries : List EntryOutcome) : Outcome where
  text := listSeparator.intercalate (entries.map EntryOutcome.wholeText)
  trace := listSeparator.intercalate (entries.map EntryOutcome.wholeTrace)
  value := match entries with
    | [entry] => entry.value
    | _ => .list (entries.map EntryOutcome.value)
  entries

/-! ## Comments -/

/-- Comments are written around the notation. -/
theorem Expression.text_withComments (body : Expression) (before after : Option String) :
    (body.withComments before after).text = commentedText before after body.text := by
  cases before <;> cases after <;> rfl

/-- Comments are written around the trace. -/
theorem Evaluated.trace_withComments (tree : Evaluated) (before after : Option String) :
    (tree.withComments before after).trace = commentedText before after tree.trace := by
  cases before <;> cases after <;> rfl

/-- The comments of an entry stand apart from its notation and its trace. -/
theorem EntryOutcome.of_withComments {body : Expression} (h : body.Bare) (tree : Evaluated)
    (before after : Option String) :
    EntryOutcome.of (body.withComments before after) (tree.withComments before after) =
      tree.value >>= fun value => .ok ⟨before, after, body.text, tree.trace, value⟩ := by
  cases before <;> cases after
  · cases body with
    | commented body before after => exact h.elim
    | _ => rfl
  all_goals rfl

/-- An expression with comments or without them gives the outcome of a single entry. -/
theorem Outcome.of_withComments {body : Expression} (h : body.Bare) (tree : Evaluated)
    (before after : Option String) :
    Outcome.of (body.withComments before after) (tree.withComments before after) =
      tree.value >>= fun value =>
        .ok (.ofEntries [⟨before, after, body.text, tree.trace, value⟩]) := by
  have hentries : Outcome.entriesOf (body.withComments before after)
      (tree.withComments before after) =
        EntryOutcome.of (body.withComments before after) (tree.withComments before after) >>=
          fun entry => .ok [entry] := by
    cases before <;> cases after
    · cases body with
      | list entries => exact h.elim
      | _ => rfl
    all_goals rfl
  rw [Outcome.of, hentries, EntryOutcome.of_withComments h, Evaluated.value_withComments,
    Expression.text_withComments, Evaluated.trace_withComments]
  cases tree.value with
  | error cause => rfl
  | ok value =>
    simp only [Outcome.ofEntries, List.map_singleton, String.intercalate_singleton]
    rfl

/-! ## Single entries -/

/-- An entry ends with an outcome exactly if it is built, evaluated and worth the value in it. -/
theorem Entry.ends_roll_iff {entry : Entry} {shown : List ShownDie} {outcome : EntryOutcome} :
    entry.roll.Ends shown outcome ↔
      ∃ body tree, entry.node.build = .ok body ∧ body.evaluate.Ends shown tree ∧
        ∃ value, tree.value = .ok value ∧
          outcome = ⟨trimComment entry.before, trimComment entry.after, body.text, tree.trace,
            value⟩ := by
  constructor
  · intro h
    obtain ⟨body, first, second, hbody, hevaluate, rfl⟩ := ends_bind_iff.1 h
    obtain ⟨rfl, hbuild⟩ := ends_ofExcept_iff.1 hbody
    obtain ⟨tree, third, fourth, htree, hcalculate, rfl⟩ := ends_bind_iff.1 hevaluate
    obtain ⟨value, hresult, rfl⟩ := ends_bind_pure_iff.1 hcalculate
    obtain ⟨rfl, hvalue⟩ := ends_ofExcept_iff.1 hresult
    rw [List.nil_append, List.append_nil]
    exact ⟨body, tree, mapError_eq_ok_iff.1 hbuild, ends_mapError_iff.1 htree, value,
      mapError_eq_ok_iff.1 hvalue, rfl⟩
  · rintro ⟨body, tree, hbuild, htree, value, hvalue, rfl⟩
    refine ends_bind_iff.2 ⟨body, [], shown,
      ends_ofExcept_iff.2 ⟨rfl, mapError_eq_ok_iff.2 hbuild⟩, ?_, rfl⟩
    refine ends_bind_iff.2 ⟨tree, shown, [], ends_mapError_iff.2 htree, ?_,
      (List.append_nil shown).symm⟩
    exact ends_bind_pure_iff.2
      ⟨value, ends_ofExcept_iff.2 ⟨rfl, mapError_eq_ok_iff.2 hvalue⟩, rfl⟩

/-- An entry is built into an expression, which is evaluated as a tree, and these two have an
outcome. -/
structure Entry.RollsAs (entry : Entry) (shown : List ShownDie) (expression : Expression)
    (tree : Evaluated) (outcome : EntryOutcome) : Prop where
  /-- The expression of the entry. -/
  build : entry.build = .ok expression
  /-- The tree of the expression. -/
  ends : expression.evaluate.Ends shown tree
  /-- The outcome of the expression and the tree. -/
  gathered : EntryOutcome.of expression tree = .ok outcome

namespace Entry.RollsAs

variable {entry : Entry} {shown : List ShownDie} {expression : Expression} {tree : Evaluated}
  {outcome : EntryOutcome}

/-- Behind its comments, the expression is the one of the node, and the tree is one of this. -/
theorem exists_body (h : entry.RollsAs shown expression tree outcome) :
    ∃ body inner, entry.node.build = .ok body ∧ body.evaluate.Ends shown inner ∧
      expression = body.withComments (trimComment entry.before) (trimComment entry.after) ∧
      tree = inner.withComments (trimComment entry.before) (trimComment entry.after) ∧
      ∃ value, inner.value = .ok value ∧
        outcome = ⟨trimComment entry.before, trimComment entry.after, body.text, inner.trace,
          value⟩ := by
  obtain ⟨body, hbody, rfl⟩ := Entry.exists_of_build h.build
  obtain ⟨inner, hinner, rfl⟩ := Expression.ends_evaluate_withComments_iff.1 h.ends
  have hgathered := h.gathered
  rw [EntryOutcome.of_withComments (entry.node.bare_of_build hbody)] at hgathered
  obtain ⟨value, hvalue, houtcome⟩ := bind_eq_ok_iff.1 hgathered
  exact ⟨body, inner, hbody, hinner, rfl, rfl, value, hvalue, (Except.ok.inj houtcome).symm⟩

/-- The notation of an entry is that of its outcome with comments. -/
theorem text_eq (h : entry.RollsAs shown expression tree outcome) :
    expression.text = outcome.wholeText := by
  obtain ⟨body, inner, -, -, rfl, -, value, -, rfl⟩ := h.exists_body
  exact Expression.text_withComments _ _ _

/-- The trace of an entry is that of its outcome with comments. -/
theorem trace_eq (h : entry.RollsAs shown expression tree outcome) :
    tree.trace = outcome.wholeTrace := by
  obtain ⟨body, inner, -, -, -, rfl, value, -, rfl⟩ := h.exists_body
  exact Evaluated.trace_withComments _ _ _

/-- An entry is worth the value of its outcome. -/
theorem value_eq (h : entry.RollsAs shown expression tree outcome) :
    tree.value = .ok outcome.value := by
  obtain ⟨body, inner, -, -, -, rfl, value, hvalue, rfl⟩ := h.exists_body
  rw [Evaluated.value_withComments, hvalue]

/-- An entry by itself gives the outcome of a text. -/
theorem outcome_eq (h : entry.RollsAs shown expression tree outcome) :
    Outcome.of expression tree = .ok (.ofEntries [outcome]) := by
  obtain ⟨body, inner, hbody, -, rfl, rfl, value, hvalue, rfl⟩ := h.exists_body
  rw [Outcome.of_withComments (entry.node.bare_of_build hbody), hvalue]
  rfl

end Entry.RollsAs

/-- What the stages make of the expression of an entry is what they make of the entry. -/
theorem Entry.exists_rollsAs {entry : Entry} {shown : List ShownDie} {expression : Expression}
    {tree : Evaluated} {outcome : Outcome} (hbuild : entry.build = .ok expression)
    (hends : expression.evaluate.Ends shown tree)
    (hgathered : Outcome.of expression tree = .ok outcome) :
    ∃ single, entry.RollsAs shown expression tree single ∧ outcome = .ofEntries [single] := by
  obtain ⟨body, hbody, rfl⟩ := Entry.exists_of_build hbuild
  obtain ⟨inner, hinner, rfl⟩ := Expression.ends_evaluate_withComments_iff.1 hends
  have hbare := entry.node.bare_of_build hbody
  rw [Outcome.of_withComments hbare] at hgathered
  obtain ⟨value, hvalue, houtcome⟩ := bind_eq_ok_iff.1 hgathered
  refine ⟨_, ⟨hbuild, hends, ?_⟩, (Except.ok.inj houtcome).symm⟩
  rw [EntryOutcome.of_withComments hbare, hvalue]
  rfl

/-- Stage by stage or by itself, an entry has the same outcomes. -/
theorem Entry.ends_roll_iff_rollsAs {entry : Entry} {shown : List ShownDie}
    {outcome : EntryOutcome} :
    entry.roll.Ends shown outcome ↔
      ∃ expression tree, entry.RollsAs shown expression tree outcome := by
  rw [Entry.ends_roll_iff]
  constructor
  · rintro ⟨body, inner, hbody, hinner, value, hvalue, rfl⟩
    refine ⟨body.withComments (trimComment entry.before) (trimComment entry.after),
      inner.withComments (trimComment entry.before) (trimComment entry.after), ?_, ?_, ?_⟩
    · rw [Entry.build_eq, hbody]
      rfl
    · exact Expression.ends_evaluate_withComments_iff.2 ⟨inner, hinner, rfl⟩
    · rw [EntryOutcome.of_withComments (entry.node.bare_of_build hbody), hvalue]
      rfl
  · rintro ⟨expression, tree, h⟩
    obtain ⟨body, inner, hbody, hinner, -, -, value, hvalue, houtcome⟩ := h.exists_body
    exact ⟨body, inner, hbody, hinner, value, hvalue, houtcome⟩

/-! ## Several entries -/

/-- Entries are built, evaluated and gathered one after the other. -/
inductive Entry.AllRollAs : List Entry → List ShownDie → List Expression → List Evaluated →
    List EntryOutcome → Prop where
  /-- There are no entries. -/
  | nil : AllRollAs [] [] [] [] []
  /-- A first entry and the others. -/
  | cons {entry : Entry} {entries : List Entry} {first second : List ShownDie}
    {expression : Expression} {expressions : List Expression} {tree : Evaluated}
    {trees : List Evaluated} {outcome : EntryOutcome} {outcomes : List EntryOutcome}
    (h : entry.RollsAs first expression tree outcome)
    (hrest : AllRollAs entries second expressions trees outcomes) :
    AllRollAs (entry :: entries) (first ++ second) (expression :: expressions) (tree :: trees)
      (outcome :: outcomes)

namespace Entry.AllRollAs

variable {entries : List Entry} {shown : List ShownDie} {expressions : List Expression}
  {trees : List Evaluated} {outcomes : List EntryOutcome}

/-- The entries are built to the expressions. -/
theorem buildEntries_eq (h : AllRollAs entries shown expressions trees outcomes) :
    buildEntries entries = .ok expressions := by
  induction h with
  | nil => rfl
  | cons h _ ih =>
    rw [buildEntries, h.build, ih]
    rfl

/-- Evaluating the expressions ends with the trees, and shows the dice of all. -/
theorem ends (h : AllRollAs entries shown expressions trees outcomes) :
    (Expression.evaluateAll expressions).Ends shown trees := by
  induction h with
  | nil => exact .done []
  | cons h _ ih =>
    rw [Expression.evaluateAll]
    exact ends_bind_iff.2 ⟨_, _, _, h.ends, ends_bind_pure_iff.2 ⟨_, ih, rfl⟩, rfl⟩

/-- The outcomes are those of the expressions and the trees. -/
theorem ofAll_eq (h : AllRollAs entries shown expressions trees outcomes) :
    EntryOutcome.ofAll expressions trees = .ok outcomes := by
  induction h with
  | nil => rfl
  | cons h _ ih =>
    rw [EntryOutcome.ofAll, h.gathered, ih]
    rfl

/-- The expressions are written as the outcomes with comments. -/
theorem texts_eq (h : AllRollAs entries shown expressions trees outcomes) :
    Expression.texts expressions = outcomes.map EntryOutcome.wholeText := by
  induction h with
  | nil => rfl
  | cons h _ ih => rw [Expression.texts, h.text_eq, ih, List.map_cons]

/-- The trees are written as the outcomes with comments. -/
theorem describeList_eq (h : AllRollAs entries shown expressions trees outcomes) :
    Evaluated.describeList none trees = outcomes.map EntryOutcome.wholeTrace := by
  induction h with
  | nil => rfl
  | cons h _ ih => rw [Evaluated.describeList, ih, ← Evaluated.trace, h.trace_eq, List.map_cons]

/-- The trees are worth the values of the outcomes. -/
theorem values_eq (h : AllRollAs entries shown expressions trees outcomes) :
    Evaluated.values trees = .ok (outcomes.map EntryOutcome.value) := by
  induction h with
  | nil => rfl
  | cons h _ ih =>
    rw [Evaluated.values, h.value_eq, ih]
    rfl

/-- Several entries give the outcome of a text as a list. -/
theorem of_list (h : AllRollAs entries shown expressions trees outcomes) :
    Outcome.of (.list expressions) (.list trees) =
      .ok { Outcome.ofEntries outcomes with value := .list (outcomes.map EntryOutcome.value) } := by
  have hentries : Outcome.entriesOf (.list expressions) (.list trees) = .ok outcomes := h.ofAll_eq
  rw [Outcome.of, hentries, Evaluated.value, h.values_eq, Expression.text, h.texts_eq,
    Evaluated.trace, Evaluated.describe, h.describeList_eq]
  rfl

/-- Rolling entries by themselves, one after the other, ends as the stages do. -/
theorem ends_mapM_roll_iff :
    (entries.mapM Entry.roll).Ends shown outcomes ↔
      ∃ expressions trees, AllRollAs entries shown expressions trees outcomes := by
  induction entries generalizing shown outcomes with
  | nil =>
    rw [List.mapM_nil, ends_pure_iff]
    constructor
    · rintro ⟨rfl, rfl⟩
      exact ⟨[], [], .nil⟩
    · rintro ⟨_, _, ⟨⟩⟩
      exact ⟨rfl, rfl⟩
  | cons entry entries ih =>
    rw [List.mapM_cons, ends_bind_iff]
    constructor
    · rintro ⟨outcome, first, second, hroll, hrest, rfl⟩
      obtain ⟨expression, tree, hentry⟩ := Entry.ends_roll_iff_rollsAs.1 hroll
      obtain ⟨others, hothers, rfl⟩ := ends_bind_pure_iff.1 hrest
      obtain ⟨expressions, trees, hall⟩ := ih.1 hothers
      exact ⟨expression :: expressions, tree :: trees, .cons hentry hall⟩
    · rintro ⟨_, _, h⟩
      cases h with
      | cons hentry hall =>
        exact ⟨_, _, _, Entry.ends_roll_iff_rollsAs.2 ⟨_, _, hentry⟩,
          ends_bind_pure_iff.2 ⟨_, ih.2 ⟨_, _, hall⟩, rfl⟩, rfl⟩

/-- What the stages amount to amounts to it entry by entry. -/
theorem of_stages (hbuild : buildEntries entries = .ok expressions)
    (hends : (Expression.evaluateAll expressions).Ends shown trees)
    (hall : EntryOutcome.ofAll expressions trees = .ok outcomes) :
    AllRollAs entries shown expressions trees outcomes := by
  induction entries generalizing shown expressions trees outcomes with
  | nil =>
    cases hbuild
    obtain ⟨rfl, rfl⟩ := ends_pure_iff.1 hends
    cases hall
    exact .nil
  | cons entry entries ih =>
    rw [buildEntries] at hbuild
    obtain ⟨expression, hexpression, hbuild⟩ := bind_eq_ok_iff.1 hbuild
    obtain ⟨others, hothers, hbuild⟩ := bind_eq_ok_iff.1 hbuild
    cases pure_eq_ok_iff.1 hbuild
    rw [Expression.evaluateAll] at hends
    obtain ⟨tree, first, second, htree, htrees, rfl⟩ := ends_bind_iff.1 hends
    obtain ⟨rest, hrest, rfl⟩ := ends_bind_pure_iff.1 htrees
    rw [EntryOutcome.ofAll] at hall
    obtain ⟨outcome, houtcome, hall⟩ := bind_eq_ok_iff.1 hall
    obtain ⟨more, hmore, hall⟩ := bind_eq_ok_iff.1 hall
    cases pure_eq_ok_iff.1 hall
    exact .cons ⟨hexpression, htree, houtcome⟩ (ih hothers hrest hmore)

end Entry.AllRollAs

/-! ## Texts -/

/-- What the stages make of the entries of a text. -/
theorem Entry.AllRollAs.exists_stages {entries : List Entry} {shown : List ShownDie}
    {expressions : List Expression} {trees : List Evaluated} {outcomes : List EntryOutcome}
    (h : AllRollAs entries shown expressions trees outcomes) :
    ∃ expression tree, Expression.ofEntries entries = .ok expression ∧
      expression.evaluate.Ends shown tree ∧
        Outcome.of expression tree = .ok (.ofEntries outcomes) := by
  have hbuild := h.buildEntries_eq
  cases h with
  | nil => exact ⟨.list [], .list [], rfl, .done _, rfl⟩
  | @cons entry entries first second expression expressions tree trees outcome outcomes hentry
      hrest =>
    cases hrest with
    | nil =>
      refine ⟨expression, tree, ?_, ?_, hentry.outcome_eq⟩
      · rw [Expression.ofEntries, hbuild]
        rfl
      · rw [List.append_nil]
        exact hentry.ends
    | cons hsecond hothers =>
      have hall := AllRollAs.cons hentry (.cons hsecond hothers)
      refine ⟨.list _, .list _, ?_, ends_bind_pure_iff.2 ⟨_, hall.ends, rfl⟩, hall.of_list⟩
      rw [Expression.ofEntries, hbuild]
      rfl

/-- The stages make of the expressions of several entries what these amount to entry by entry. -/
theorem Entry.AllRollAs.of_list_stages {entries : List Entry} {expressions : List Expression}
    {shown : List ShownDie} {tree : Evaluated} {outcome : Outcome}
    (hbuild : buildEntries entries = .ok expressions)
    (hends : (Expression.list expressions).evaluate.Ends shown tree)
    (hgathered : Outcome.of (.list expressions) tree = .ok outcome) :
    ∃ trees outcomes, AllRollAs entries shown expressions trees outcomes ∧
      outcome = { Outcome.ofEntries outcomes with
        value := .list (outcomes.map EntryOutcome.value) } := by
  obtain ⟨trees, htrees, rfl⟩ := ends_bind_pure_iff.1 hends
  obtain ⟨outcomes, houtcomes, -⟩ := bind_eq_ok_iff.1 hgathered
  have hall := of_stages hbuild htrees houtcomes
  exact ⟨trees, outcomes, hall, Except.ok.inj (hgathered.symm.trans hall.of_list)⟩

/-- What the stages make of the entries of a text is what these amount to entry by entry. -/
theorem Entry.AllRollAs.of_ofEntries {entries : List Entry} {expression : Expression}
    {shown : List ShownDie} {tree : Evaluated} {outcome : Outcome}
    (hbuild : Expression.ofEntries entries = .ok expression)
    (hends : expression.evaluate.Ends shown tree)
    (hgathered : Outcome.of expression tree = .ok outcome) :
    ∃ expressions trees outcomes, AllRollAs entries shown expressions trees outcomes ∧
      outcome = .ofEntries outcomes := by
  rw [Expression.ofEntries] at hbuild
  obtain ⟨expressions, hexpressions, hsingle⟩ := bind_eq_ok_iff.1 hbuild
  rcases expressions with _ | ⟨first, _ | ⟨second, others⟩⟩
  · cases hsingle
    obtain ⟨trees, outcomes, hall, rfl⟩ := of_list_stages hexpressions hends hgathered
    cases hall
    exact ⟨[], [], [], .nil, rfl⟩
  · cases hsingle
    rw [buildEntries_eq_mapM, mapM_eq_ok_iff] at hexpressions
    obtain ⟨entry, rest, hentry, hnone, rfl⟩ := List.forall₂_cons_right_iff.mp hexpressions
    cases hnone
    obtain ⟨single, hsingle, rfl⟩ := Entry.exists_rollsAs hentry hends hgathered
    exact ⟨[expression], [tree], [single], by simpa using AllRollAs.cons hsingle .nil, rfl⟩
  · cases hsingle
    obtain ⟨trees, outcomes, hall, rfl⟩ := of_list_stages hexpressions hends hgathered
    refine ⟨_, trees, outcomes, hall, ?_⟩
    cases hall with
    | cons _ hrest =>
      cases hrest
      rfl

/-- A roll of a text ends exactly if its entries can be rolled by themselves, one after the other.
Its outcome is put together from theirs. -/
theorem ends_rollText_iff {text : String} {shown : List ShownDie} {outcome : Outcome} :
    (rollText text).Ends shown outcome ↔
      ∃ entries outcomes, readEntries text = .ok entries ∧
        (entries.mapM Entry.roll).Ends shown outcomes ∧ outcome = .ofEntries outcomes := by
  rw [ends_rollText_iff_stages]
  constructor
  · rintro ⟨expression, tree, htext, hends, hgathered⟩
    obtain ⟨entries, hread, hbuild⟩ := Expression.exists_of_ofText htext
    obtain ⟨expressions, trees, outcomes, hall, houtcome⟩ :=
      Entry.AllRollAs.of_ofEntries hbuild hends hgathered
    exact ⟨entries, outcomes, hread,
      Entry.AllRollAs.ends_mapM_roll_iff.2 ⟨expressions, trees, hall⟩, houtcome⟩
  · rintro ⟨entries, outcomes, hread, hroll, rfl⟩
    obtain ⟨expressions, trees, hall⟩ := Entry.AllRollAs.ends_mapM_roll_iff.1 hroll
    obtain ⟨expression, tree, hbuild, hends, hgathered⟩ := hall.exists_stages
    refine ⟨expression, tree, ?_, hends, hgathered⟩
    rw [Expression.ofText, hread]
    exact mapError_eq_ok_iff.2 hbuild

end DiceNotation
