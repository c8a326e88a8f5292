import DiceNotation.Proofs.Endings
import DiceNotation.Proofs.Fallible
import DiceNotation.Proofs.Leaves
import DiceNotation.Session

/-!
# Gathering outcomes

A tree of an expression has the shape of the expression: that of a list is a list with a tree for
every entry, and comments stay where they are. So the outcome that is gathered from the two has an
entry for every entry of the expression, with the notation of this entry, and with the trace and the
value of its tree. There is an outcome exactly if the tree has a value.
-/

namespace DiceNotation

open Rolling

/-- An expression is worth a value if an evaluation can end with a tree that has this value. -/
def Expression.Worth (expression : Expression) (value : Value) : Prop :=
  ∃ shown tree, expression.evaluate.Ends shown tree ∧ tree.value = .ok value

/-- An expression can be worth nothing for a cause if an evaluation can end with a tree that has no
value for this cause. -/
def Expression.Worthless (expression : Expression) (cause : ArithmeticError) : Prop :=
  ∃ shown tree, expression.evaluate.Ends shown tree ∧ tree.value = .error cause

/-- An evaluation of an expression can end with a tree. -/
def Expression.Becomes (expression : Expression) (tree : Evaluated) : Prop :=
  ∃ shown, expression.evaluate.Ends shown tree

/-! ## Trees and their entries -/

/-- The comments around an expression; anything without comments has none. -/
def Expression.comments : Expression → Option String × Option String
  | commented _ before after => (before, after)
  | _ => (none, none)

/-- The trees of the entries that an evaluated expression consists of; anything but a list is
one. -/
def Evaluated.entries : Evaluated → List Evaluated
  | list entries => entries
  | tree => [tree]

namespace Expression

/-- Every expression of a list has its own tree. -/
theorem forall₂_of_ends_evaluateAll {entries : List Expression} {shown : List ShownDie}
    {trees : List Evaluated} (h : (evaluateAll entries).Ends shown trees) :
    List.Forall₂ Becomes entries trees := by
  induction entries generalizing shown trees with
  | nil =>
    obtain ⟨rfl, rfl⟩ := ends_pure_iff.1 h
    exact .nil
  | cons entry entries ih =>
    rw [evaluateAll] at h
    obtain ⟨tree, first, second, htree, hrest, rfl⟩ := ends_bind_iff.1 h
    obtain ⟨trees, htrees, rfl⟩ := ends_bind_pure_iff.1 hrest
    exact .cons ⟨first, htree⟩ (ih htrees)

/-- A tree of an expression with comments has the same comments. -/
theorem becomes_commented_iff {body : Expression} {before after : Option String}
    {tree : Evaluated} :
    (commented body before after).Becomes tree ↔
      ∃ inner, body.Becomes inner ∧ Evaluated.commented inner before after = tree := by
  constructor
  · rintro ⟨shown, h⟩
    obtain ⟨inner, hinner, rfl⟩ := ends_bind_pure_iff.1 h
    exact ⟨inner, ⟨shown, hinner⟩, rfl⟩
  · rintro ⟨inner, ⟨shown, hinner⟩, rfl⟩
    exact ⟨shown, ends_bind_pure_iff.2 ⟨inner, hinner, rfl⟩⟩

/-- The tree of a list is a list with a tree for every entry. Anything else is a single entry, and
so is its tree. -/
theorem Becomes.entries_cases {expression : Expression} {tree : Evaluated}
    (h : expression.Becomes tree) :
    (∃ elements trees, expression = .list elements ∧ tree = .list trees ∧
      List.Forall₂ Becomes elements trees) ∨
    ((∀ elements, expression ≠ .list elements) ∧ expression.entries = [expression] ∧
      tree.entries = [tree]) := by
  obtain ⟨shown, hends⟩ := h
  cases expression with
  | number value =>
    obtain ⟨-, rfl⟩ := ends_pure_iff.1 hends
    exact .inr ⟨nofun, rfl, rfl⟩
  | power base exponent =>
    obtain ⟨left, first, second, -, hrest, rfl⟩ := ends_bind_iff.1 hends
    obtain ⟨right, -, rfl⟩ := ends_bind_pure_iff.1 hrest
    exact .inr ⟨nofun, rfl, rfl⟩
  | list elements =>
    obtain ⟨trees, htrees, rfl⟩ := ends_bind_pure_iff.1 hends
    exact .inl ⟨elements, trees, rfl, rfl, forall₂_of_ends_evaluateAll htrees⟩
  | _ =>
    obtain ⟨inner, -, rfl⟩ := ends_bind_pure_iff.1 hends
    exact .inr ⟨nofun, rfl, rfl⟩

/-- A tree consists of one tree for every entry of the expression. -/
theorem Becomes.entries {expression : Expression} {tree : Evaluated}
    (h : expression.Becomes tree) : List.Forall₂ Becomes expression.entries tree.entries := by
  rcases h.entries_cases with ⟨elements, trees, rfl, rfl, htrees⟩ | ⟨-, hentries, htree⟩
  · exact htrees
  · rw [hentries, htree]
    exact .cons h .nil

/-- The notations of the entries make up that of the expression. -/
theorem intercalate_entries (expression : Expression) :
    listSeparator.intercalate (expression.entries.map text) = expression.text := by
  cases expression with
  | list entries => rw [text, texts_eq_map, Expression.entries]
  | _ => exact String.intercalate_singleton

end Expression

namespace Evaluated

theorem describeList_eq_map (limit : Option Nat) (entries : List Evaluated) :
    describeList limit entries = entries.map (describe limit) := by
  induction entries with
  | nil => rfl
  | cons entry entries ih => rw [describeList, ih, List.map_cons]

/-- The traces of the entries make up that of the tree. -/
theorem intercalate_entries (tree : Evaluated) :
    listSeparator.intercalate (tree.entries.map trace) = tree.trace := by
  cases tree with
  | list entries =>
    rw [Evaluated.entries, trace, describe, describeList_eq_map]
    rfl
  | _ => exact String.intercalate_singleton

theorem exists_of_values_eq_error {entries : List Expression} {trees : List Evaluated}
    {cause : ArithmeticError} (h : List.Forall₂ Expression.Becomes entries trees)
    (herror : values trees = .error cause) : ∃ entry ∈ entries, entry.Worthless cause := by
  induction h with
  | nil => cases herror
  | @cons entry tree entries trees hentry _ ih =>
    obtain ⟨shown, hends⟩ := hentry
    rw [values] at herror
    rcases bind_eq_error_iff.1 herror with hvalue | ⟨value, -, hrest⟩
    · exact ⟨entry, List.mem_cons_self, shown, tree, hends, hvalue⟩
    · rcases bind_eq_error_iff.1 hrest with hvalues | ⟨others, -, hpure⟩
      · obtain ⟨other, hmem, hworthless⟩ := ih hvalues
        exact ⟨other, List.mem_cons_of_mem entry hmem, hworthless⟩
      · cases hpure

end Evaluated

/-! ## Entries -/

/-- The notation of an entry with its comments. -/
def EntryOutcome.wholeText (entry : EntryOutcome) : String :=
  commentedText entry.before entry.after entry.text

/-- The trace of an entry with its comments. -/
def EntryOutcome.wholeTrace (entry : EntryOutcome) : String :=
  commentedText entry.before entry.after entry.trace

/-- The outcome of an entry has the comments of an expression, and with these its notation is that
of the expression. -/
structure EntryOutcome.Denotes (entry : EntryOutcome) (expression : Expression) : Prop where
  /-- The comments stand apart. -/
  comments : (entry.before, entry.after) = expression.comments
  /-- The notation with the comments. -/
  wholeText : entry.wholeText = expression.text

/-- The outcome of an entry has the value of a tree, and with its comments the trace of the tree. -/
structure EntryOutcome.Reports (entry : EntryOutcome) (tree : Evaluated) : Prop where
  /-- The trace with the comments. -/
  wholeTrace : entry.wholeTrace = tree.trace
  /-- The value is that of the tree. -/
  value : tree.value = .ok entry.value

namespace EntryOutcome

/-- The outcome of an entry has the value of its tree, if there is one. -/
theorem of_eq (expression : Expression) (tree : Evaluated) :
    ∃ before after text trace, of expression tree =
      tree.value >>= fun value => .ok ⟨before, after, text, trace, value⟩ := by
  rw [of.eq_def]
  split
  · rw [Evaluated.value]
    exact ⟨_, _, _, _, rfl⟩
  · exact ⟨_, _, _, _, rfl⟩

/-- An entry whose tree has a value has an outcome. -/
theorem exists_of {expression : Expression} {tree : Evaluated} {value : Value}
    (h : expression.Becomes tree) (hvalue : tree.value = .ok value) :
    ∃ entry, of expression tree = .ok entry ∧ entry.value = value ∧ entry.Denotes expression ∧
      entry.Reports tree := by
  cases expression with
  | commented body before after =>
    obtain ⟨inner, -, rfl⟩ := Expression.becomes_commented_iff.1 h
    have hinner : inner.value = .ok value := by rwa [Evaluated.value] at hvalue
    refine ⟨⟨before, after, body.text, inner.trace, value⟩, ?_, rfl, ⟨rfl, rfl⟩, ⟨rfl, hvalue⟩⟩
    rw [of, hinner]
    rfl
  | _ =>
    refine ⟨⟨none, none, _, tree.trace, value⟩, ?_, rfl, ⟨rfl, rfl⟩, ⟨rfl, hvalue⟩⟩
    rw [of, hvalue]
    · rfl
    · rintro _ _ _ _ _ _ ⟨⟩

/-- An entry whose tree has no value has no outcome, for the same cause. -/
theorem of_eq_error {tree : Evaluated} {cause : ArithmeticError} (expression : Expression)
    (hvalue : tree.value = .error cause) : of expression tree = .error cause := by
  obtain ⟨before, after, text, trace, hof⟩ := of_eq expression tree
  rw [hof, hvalue]
  rfl

/-- Entries whose trees have values have outcomes, one each. -/
theorem exists_ofAll {entries : List Expression} {trees : List Evaluated} {values : List Value}
    (h : List.Forall₂ Expression.Becomes entries trees)
    (hvalues : Evaluated.values trees = .ok values) :
    ∃ outcomes, ofAll entries trees = .ok outcomes ∧ outcomes.map EntryOutcome.value = values ∧
      List.Forall₂ Denotes outcomes entries ∧ List.Forall₂ Reports outcomes trees := by
  induction h generalizing values with
  | nil =>
    cases hvalues
    exact ⟨[], rfl, rfl, .nil, .nil⟩
  | cons hentry _ ih =>
    rw [Evaluated.values] at hvalues
    obtain ⟨value, hvalue, hvalues⟩ := bind_eq_ok_iff.1 hvalues
    obtain ⟨others, hothers, hvalues⟩ := bind_eq_ok_iff.1 hvalues
    cases pure_eq_ok_iff.1 hvalues
    obtain ⟨entry, hof, rfl, hdenotes, hreports⟩ := exists_of hentry hvalue
    obtain ⟨outcomes, hall, rfl, hdenote, hreport⟩ := ih hothers
    refine ⟨entry :: outcomes, ?_, rfl, .cons hdenotes hdenote, .cons hreports hreport⟩
    rw [ofAll, hof, hall]
    rfl

/-- The first tree without a value is also the first entry without an outcome. -/
theorem ofAll_eq_error {entries : List Expression} {trees : List Evaluated}
    {cause : ArithmeticError} (h : List.Forall₂ Expression.Becomes entries trees)
    (hvalues : Evaluated.values trees = .error cause) : ofAll entries trees = .error cause := by
  induction h with
  | nil => cases hvalues
  | @cons expression tree _ _ hentry _ ih =>
    rw [Evaluated.values] at hvalues
    rw [ofAll]
    refine bind_eq_error_iff.2 ?_
    rcases bind_eq_error_iff.1 hvalues with hvalue | ⟨value, hvalue, hrest⟩
    · exact .inl (of_eq_error expression hvalue)
    · rcases bind_eq_error_iff.1 hrest with hothers | ⟨others, -, hpure⟩
      · obtain ⟨entry, hof, -⟩ := exists_of hentry hvalue
        exact .inr ⟨entry, hof, bind_eq_error_iff.2 (.inl (ih hothers))⟩
      · cases hpure

end EntryOutcome

/-! ## Outcomes -/

/-- An outcome gathers an expression and a tree: its notation, trace and value are theirs, and are
put together from those of its entries, of which there is one for every entry of the expression. -/
structure Outcome.Gathers (outcome : Outcome) (expression : Expression) (tree : Evaluated) :
    Prop where
  /-- The notation is that of the expression. -/
  text : outcome.text = expression.text
  /-- The trace is that of the tree. -/
  trace : outcome.trace = tree.trace
  /-- The value is that of the tree. -/
  value : tree.value = .ok outcome.value
  /-- The entries are those of the expression, in order. -/
  denote : List.Forall₂ EntryOutcome.Denotes outcome.entries expression.entries
  /-- The entries report the trees of the entries of the expression, in order. -/
  report : List.Forall₂ EntryOutcome.Reports outcome.entries tree.entries
  /-- The notations of the entries, with their comments, make up the notation. -/
  joinedText : outcome.text =
    listSeparator.intercalate (outcome.entries.map EntryOutcome.wholeText)
  /-- The traces of the entries, with their comments, make up the trace. -/
  joinedTrace : outcome.trace =
    listSeparator.intercalate (outcome.entries.map EntryOutcome.wholeTrace)
  /-- The value of a list is the list of the values of the entries. -/
  listValue : ∀ elements, expression = .list elements →
    outcome.value = .list (outcome.entries.map EntryOutcome.value)
  /-- Anything else is a single entry and has its value. -/
  singleValue : (∀ elements, expression ≠ .list elements) →
    ∃ entry, outcome.entries = [entry] ∧ outcome.value = entry.value

namespace Outcome

/-- The notations of entries that denote those of an expression make up its notation. -/
theorem joinedText_of_denote {entries : List EntryOutcome} {expression : Expression}
    (h : List.Forall₂ EntryOutcome.Denotes entries expression.entries) :
    expression.text = listSeparator.intercalate (entries.map EntryOutcome.wholeText) := by
  rw [← expression.intercalate_entries, map_eq_of_forall₂ (h.imp fun _ _ h => h.wholeText)]

/-- The traces of entries that report those of a tree make up its trace. -/
theorem joinedTrace_of_report {entries : List EntryOutcome} {tree : Evaluated}
    (h : List.Forall₂ EntryOutcome.Reports entries tree.entries) :
    tree.trace = listSeparator.intercalate (entries.map EntryOutcome.wholeTrace) := by
  rw [← tree.intercalate_entries, map_eq_of_forall₂ (h.imp fun _ _ h => h.wholeTrace)]

/-- Anything but a list has the outcome of its single entry. -/
theorem entriesOf_single {expression : Expression} (tree : Evaluated)
    (h : ∀ elements, expression ≠ .list elements) :
    entriesOf expression tree = EntryOutcome.of expression tree >>= fun entry => .ok [entry] := by
  rw [entriesOf.eq_def]
  split
  · exact absurd rfl (h _)
  · rfl

/-- A tree with a value has an outcome, which gathers the expression and the tree. -/
theorem exists_of {expression : Expression} {tree : Evaluated} {value : Value}
    (h : expression.Becomes tree) (hvalue : tree.value = .ok value) :
    ∃ outcome, of expression tree = .ok outcome ∧ outcome.Gathers expression tree := by
  rcases h.entries_cases with ⟨elements, trees, rfl, rfl, htrees⟩ | ⟨hsingle, hentries, htree⟩
  · obtain ⟨values, hvalues, hlist⟩ := bind_eq_ok_iff.1 (Evaluated.value.eq_def _ ▸ hvalue)
    cases pure_eq_ok_iff.1 hlist
    obtain ⟨outcomes, hall, rfl, hdenotes, hreports⟩ := EntryOutcome.exists_ofAll htrees hvalues
    have hdenote : List.Forall₂ EntryOutcome.Denotes outcomes
        (Expression.list elements).entries := hdenotes
    have hreport : List.Forall₂ EntryOutcome.Reports outcomes (Evaluated.list trees).entries :=
      hreports
    refine ⟨⟨(Expression.list elements).text, (Evaluated.list trees).trace,
      .list (outcomes.map EntryOutcome.value), outcomes⟩, ?_, rfl, rfl, hvalue,
      hdenote, hreport, joinedText_of_denote hdenote, joinedTrace_of_report hreport,
      fun _ _ => rfl, fun hne => absurd rfl (hne elements)⟩
    rw [of, entriesOf, hall, hvalue]
    rfl
  · obtain ⟨entry, hof, rfl, hdenotes, hreports⟩ := EntryOutcome.exists_of h hvalue
    have hdenote : List.Forall₂ EntryOutcome.Denotes [entry] expression.entries := by
      rw [hentries]
      exact .cons hdenotes .nil
    have hreport : List.Forall₂ EntryOutcome.Reports [entry] tree.entries := by
      rw [htree]
      exact .cons hreports .nil
    refine ⟨⟨expression.text, tree.trace, entry.value, [entry]⟩, ?_, rfl, rfl, hvalue, hdenote,
      hreport,
      joinedText_of_denote hdenote, joinedTrace_of_report hreport,
      fun elements hlist => absurd hlist (hsingle elements), fun _ => ⟨entry, rfl, rfl⟩⟩
    rw [of, entriesOf_single tree hsingle, hof, hvalue]
    rfl

/-- There is no outcome for the cause for which the tree has no value. -/
theorem of_eq_error {expression : Expression} {tree : Evaluated} {cause : ArithmeticError}
    (h : expression.Becomes tree) (hvalue : tree.value = .error cause) :
    of expression tree = .error cause := by
  refine bind_eq_error_iff.2 (.inl ?_)
  rcases h.entries_cases with ⟨elements, trees, rfl, rfl, htrees⟩ | ⟨hsingle, -, -⟩
  · rw [Evaluated.value] at hvalue
    rcases bind_eq_error_iff.1 hvalue with hvalues | ⟨values, -, hlist⟩
    · exact EntryOutcome.ofAll_eq_error htrees hvalues
    · cases hlist
  · rw [entriesOf_single tree hsingle, EntryOutcome.of_eq_error expression hvalue]
    rfl

theorem of_eq_error_iff {expression : Expression} {tree : Evaluated} {cause : ArithmeticError}
    (h : expression.Becomes tree) :
    of expression tree = .error cause ↔ tree.value = .error cause := by
  refine ⟨fun hof => ?_, of_eq_error h⟩
  cases hvalue : tree.value with
  | error other =>
    cases (of_eq_error h hvalue).symm.trans hof
    rfl
  | ok value =>
    obtain ⟨outcome, hok, -⟩ := exists_of h hvalue
    cases hok.symm.trans hof

/-- An outcome of an expression and its tree gathers the two. -/
theorem gathers_of_of {expression : Expression} {tree : Evaluated} {outcome : Outcome}
    (h : expression.Becomes tree) (hof : of expression tree = .ok outcome) :
    outcome.Gathers expression tree := by
  cases hvalue : tree.value with
  | error cause => cases (of_eq_error h hvalue).symm.trans hof
  | ok value =>
    obtain ⟨gathered, hok, hgathers⟩ := exists_of h hvalue
    cases hok.symm.trans hof
    exact hgathers

/-- The entries of an outcome have the values that the entries of the expression are worth. -/
theorem worth_of_of {expression : Expression} {shown : List ShownDie} {tree : Evaluated}
    {outcome : Outcome} (hends : expression.evaluate.Ends shown tree)
    (h : Outcome.of expression tree = .ok outcome) :
    List.Forall₂ (fun entry rolled => entry.Worth rolled.value) expression.entries
      outcome.entries := by
  have hbecomes : expression.Becomes tree := ⟨shown, hends⟩
  refine (forall₂_trans hbecomes.entries (gathers_of_of hbecomes h).report.flip).imp
    fun entry rolled hentry => ?_
  obtain ⟨part, ⟨shown, hpart⟩, hreports⟩ := hentry
  exact ⟨shown, part, hpart, hreports.value⟩

/-- There is no outcome if an entry of the expression is worth nothing. -/
theorem worthless_of_of {expression : Expression} {shown : List ShownDie} {tree : Evaluated}
    {cause : ArithmeticError} (hends : expression.evaluate.Ends shown tree)
    (h : Outcome.of expression tree = .error cause) :
    ∃ entry ∈ expression.entries, entry.Worthless cause := by
  have hbecomes : expression.Becomes tree := ⟨shown, hends⟩
  have hvalue := (of_eq_error_iff hbecomes).1 h
  rcases hbecomes.entries_cases with ⟨elements, trees, rfl, rfl, htrees⟩ | ⟨-, hentries, -⟩
  · rw [Evaluated.value] at hvalue
    rcases bind_eq_error_iff.1 hvalue with hvalues | ⟨values, -, hlist⟩
    · exact Evaluated.exists_of_values_eq_error htrees hvalues
    · cases hlist
  · rw [hentries]
    exact ⟨expression, List.mem_singleton_self _, shown, tree, hends, hvalue⟩

end Outcome

end DiceNotation
