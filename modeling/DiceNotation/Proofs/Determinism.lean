import DiceNotation.Dice.Supply
import DiceNotation.Proofs.Grammar.Literals
import DiceNotation.Proofs.Notation.Built

/-!
# Deterministic expressions

An expression without dice and checks is deterministic: it is evaluated without asking for a die, so
that the tree is the same for every source of dice. An expression of a text is either of this kind
or begins by asking for a die, since dice in a text have at least one. And building leaves nothing
constant to be calculated later: the deterministic expressions of a text consist of plain numbers,
and always have a value.
-/

namespace DiceNotation

open Grammar Rolling

/-! ## Asking for nothing -/

namespace Expression

/-- Entries are deterministic exactly if each of them is. -/
theorem areDeterministic_iff {entries : List Expression} :
    areDeterministic entries = true ↔ ∀ entry ∈ entries, entry.isDeterministic = true := by
  induction entries with
  | nil => exact ⟨fun _ => List.forall_mem_nil _, fun _ => rfl⟩
  | cons entry entries ih => rw [areDeterministic, Bool.and_eq_true, ih, List.forall_mem_cons]

/-- Entries have no leaves exactly if none of them has one. -/
theorem leavesOfAll_eq_nil_iff {entries : List Expression} :
    leavesOfAll entries = [] ↔ ∀ entry ∈ entries, entry.leaves = [] := by
  rw [leavesOfAll_eq, List.flatMap_eq_nil_iff]

/-- An expression is deterministic exactly if it has no leaves. -/
theorem isDeterministic_iff_leaves (expression : Expression) :
    expression.isDeterministic = true ↔ expression.leaves = [] := by
  have hall : ∀ entries : List Expression,
      (∀ entry ∈ entries, entry.isDeterministic = true ↔ entry.leaves = []) →
      (areDeterministic entries = true ↔ leavesOfAll entries = []) := fun entries h => by
    rw [areDeterministic_iff, leavesOfAll_eq_nil_iff]
    exact forall₂_congr h
  induction expression using Expression.induction with
  | number x => exact ⟨fun _ => rfl, fun _ => rfl⟩
  | dice set => exact ⟨nofun, nofun⟩
  | check set => exact ⟨nofun, nofun⟩
  | sum terms ih => exact hall terms ih
  | product factors ih => exact hall factors ih
  | power base exponent hbase hexponent =>
    rw [isDeterministic, Bool.and_eq_true, leaves, List.append_eq_nil_iff]
    exact and_congr hbase hexponent
  | list entries ih => exact hall entries ih
  | commented body before after ih => exact ih

/-- Entries that are evaluated at once are so together. -/
theorem exists_evaluateAll_eq_done {entries : List Expression}
    (h : ∀ entry ∈ entries, ∃ tree, entry.evaluate = .done tree) :
    ∃ trees, evaluateAll entries = .done trees := by
  induction entries with
  | nil => exact ⟨[], rfl⟩
  | cons entry entries ih =>
    obtain ⟨⟨tree, htree⟩, hrest⟩ := List.forall_mem_cons.1 h
    obtain ⟨trees, htrees⟩ := ih hrest
    refine ⟨tree :: trees, ?_⟩
    rw [evaluateAll, htree, htrees]
    rfl

/-- An expression without leaves is evaluated at once. -/
theorem exists_evaluate_eq_done {expression : Expression} (h : expression.leaves = []) :
    ∃ tree, expression.evaluate = .done tree := by
  induction expression using Expression.induction with
  | number x => exact ⟨.number x, rfl⟩
  | dice set => cases h
  | check set => cases h
  | sum terms ih =>
    obtain ⟨trees, htrees⟩ := exists_evaluateAll_eq_done fun term hterm =>
      ih term hterm (leavesOfAll_eq_nil_iff.1 h term hterm)
    refine ⟨.arithmetic .sum trees, ?_⟩
    rw [evaluate, htrees]
    rfl
  | product factors ih =>
    obtain ⟨trees, htrees⟩ := exists_evaluateAll_eq_done fun factor hfactor =>
      ih factor hfactor (leavesOfAll_eq_nil_iff.1 h factor hfactor)
    refine ⟨.arithmetic .product trees, ?_⟩
    rw [evaluate, htrees]
    rfl
  | power base exponent hbase hexponent =>
    obtain ⟨hleft, hright⟩ := List.append_eq_nil_iff.1 h
    obtain ⟨left, hleft⟩ := hbase hleft
    obtain ⟨right, hright⟩ := hexponent hright
    refine ⟨.arithmetic .power [left, right], ?_⟩
    rw [evaluate, hleft, hright]
    rfl
  | list entries ih =>
    obtain ⟨trees, htrees⟩ := exists_evaluateAll_eq_done fun entry hentry =>
      ih entry hentry (leavesOfAll_eq_nil_iff.1 h entry hentry)
    refine ⟨.list trees, ?_⟩
    rw [evaluate, htrees]
    rfl
  | commented body before after ih =>
    obtain ⟨tree, htree⟩ := ih h
    refine ⟨.commented tree before after, ?_⟩
    rw [evaluate, htree]
    rfl

end Expression

/-! ## Asking for a die -/

namespace Rolling

variable {ε δ α β σ : Type}

/-- A procedure that begins by asking for a die. -/
def Asks : Rolling ε α → Prop
  | ask _ _ => True
  | _ => False

/-- A procedure that asks for a die does so with anything behind it. -/
theorem Asks.bind {procedure : Rolling ε α} (h : procedure.Asks) (next : α → Rolling ε β) :
    (procedure >>= next).Asks := by
  cases procedure with
  | ask sides continuation => trivial
  | _ => exact h.elim

/-- Changing the causes of failures changes nothing of what is asked for. -/
theorem Asks.mapError {procedure : Rolling ε α} (h : procedure.Asks) (f : ε → δ) :
    (procedure.mapError f).Asks := by
  cases procedure with
  | ask sides continuation => trivial
  | _ => exact h.elim

/-- A procedure that begins by asking for a die does so on every source, also on one that has run
out. -/
theorem Asks.asked_ne_nil {procedure : Rolling ε α} (h : procedure.Asks) (source : Source σ)
    (state : σ) : (procedure.run source state).asked ≠ [] := by
  cases procedure with
  | ask sides next =>
    rw [run_ask]
    rcases source.roll sides state with ⟨_ | value, after⟩ <;> exact List.cons_ne_nil _ _
  | _ => exact h.elim

end Rolling

/-- Dice that can be rolled ask for a die if there is one. -/
theorem Dice.Expressible.asks_roll {dice : Dice} (h : dice.Expressible) : dice.roll.Asks := by
  have hcount : 0 < dice.count.toNat := UInt32.lt_iff_toNat_lt.1 h.count
  obtain ⟨others, hothers⟩ := Nat.exists_eq_add_of_lt hcount
  have hplain : dice.rollPlain.Asks := by
    rw [Dice.rollPlain, if_neg (Dice.of_validate h.valid).1, hothers]
    trivial
  exact hplain.bind _

namespace Expression

/-- Entries with a leaf ask for a die. -/
theorem asks_evaluateAll {entries : List Expression}
    (h : ∀ entry ∈ entries, entry.leaves ≠ [] → entry.evaluate.Asks)
    (hne : leavesOfAll entries ≠ []) : (evaluateAll entries).Asks := by
  induction entries with
  | nil => exact absurd rfl hne
  | cons entry entries ih =>
    obtain ⟨hentry, hentries⟩ := List.forall_mem_cons.1 h
    rw [evaluateAll]
    by_cases hnone : entry.leaves = []
    · obtain ⟨tree, htree⟩ := exists_evaluate_eq_done hnone
      rw [leavesOfAll, hnone, List.nil_append] at hne
      rw [htree]
      exact (ih hentries hne).bind _
    · exact (hentry hnone).bind _

/-- An expression with leaves asks for a die, if notation can express the leaves. -/
theorem asks_evaluate {expression : Expression}
    (h : ∀ leaf ∈ expression.leaves, leaf.set.Expressible) (hne : expression.leaves ≠ []) :
    expression.evaluate.Asks := by
  have hall : ∀ entries : List Expression,
      (∀ entry ∈ entries, (∀ leaf ∈ entry.leaves, leaf.set.Expressible) → entry.leaves ≠ [] →
        entry.evaluate.Asks) →
      (∀ leaf ∈ leavesOfAll entries, leaf.set.Expressible) → leavesOfAll entries ≠ [] →
      (evaluateAll entries).Asks := fun entries ih hleaves hne => by
    rw [leavesOfAll_eq, List.forall_mem_flatMap] at hleaves
    exact asks_evaluateAll (fun entry hentry => ih entry hentry (hleaves entry hentry)) hne
  induction expression using Expression.induction with
  | number x => exact absurd rfl hne
  | dice set =>
    have hset : set.Expressible := h (.dice set) (List.mem_singleton_self _)
    exact (hset.asks_roll.mapError _).bind _
  | check set =>
    have hset : set.dice.Expressible := h (.check set) (List.mem_singleton_self _)
    exact ((hset.asks_roll.bind _).mapError _).bind _
  | sum terms ih => exact (hall terms ih h hne).bind _
  | product factors ih => exact (hall factors ih h hne).bind _
  | power base exponent hbase hexponent =>
    obtain ⟨hleft, hright⟩ := List.forall_mem_append.1 h
    rw [evaluate]
    by_cases hnone : base.leaves = []
    · obtain ⟨left, htree⟩ := exists_evaluate_eq_done hnone
      rw [leaves, hnone, List.nil_append] at hne
      rw [htree]
      exact (hexponent hright hne).bind _
    · exact (hbase hleft hnone).bind _
  | list entries ih => exact (hall entries ih h hne).bind _
  | commented body before after ih => exact (ih h hne).bind _

/-! ## Plain numbers -/

/-- A plain number, which may have comments around it. -/
def IsPlain (entry : Expression) : Prop :=
  ∃ (x : Number) (before after : Option String), entry = (number x).withComments before after

/-- A plain entry has no leaves. -/
theorem IsPlain.leaves {entry : Expression} (h : entry.IsPlain) : entry.leaves = [] := by
  obtain ⟨x, before, after, rfl⟩ := h
  exact leaves_withComments (number x) before after

/-- A plain entry is evaluated without dice, and has a value. -/
theorem IsPlain.exists_value {entry : Expression} (h : entry.IsPlain) :
    ∃ tree value, entry.evaluate = .done tree ∧ tree.value = .ok value := by
  obtain ⟨x, before, after, rfl⟩ := h
  refine ⟨(Evaluated.number x).withComments before after, .number x, ?_, ?_⟩
  · rw [evaluate_withComments]
    rfl
  · rw [Evaluated.value_withComments, Evaluated.value]

/-- Plain entries are evaluated without dice, and have values. -/
theorem exists_values {entries : List Expression} (h : ∀ entry ∈ entries, entry.IsPlain) :
    ∃ trees values, evaluateAll entries = .done trees ∧ Evaluated.values trees = .ok values := by
  induction entries with
  | nil => exact ⟨[], [], rfl, rfl⟩
  | cons entry entries ih =>
    obtain ⟨hentry, hentries⟩ := List.forall_mem_cons.1 h
    obtain ⟨tree, value, htree, hvalue⟩ := hentry.exists_value
    obtain ⟨trees, values, htrees, hvalues⟩ := ih hentries
    refine ⟨tree :: trees, value :: values, ?_, ?_⟩
    · rw [evaluateAll, htree, htrees]
      rfl
    · rw [Evaluated.values, hvalue, hvalues]
      rfl

/-- Plain numbers have a value, which is known without any roll. -/
theorem exists_value_of_isPlain {expression : Expression}
    (h : ∀ entry ∈ expression.entries, entry.IsPlain) :
    ∃ tree value, expression.evaluate = .done tree ∧ tree.value = .ok value := by
  cases expression with
  | list entries =>
    obtain ⟨trees, values, htrees, hvalues⟩ := @exists_values entries h
    refine ⟨.list trees, .list values, ?_, ?_⟩
    · rw [evaluate, htrees]
      rfl
    · rw [Evaluated.value, hvalues]
      rfl
  | _ => exact (h _ (List.mem_singleton_self _)).exists_value

/-- The leaves of an expression are those of its entries. -/
theorem leaves_eq_flatMap_entries (expression : Expression) :
    expression.leaves = expression.entries.flatMap leaves := by
  cases expression with
  | list entries => exact leavesOfAll_eq entries
  | _ => exact (List.flatMap_singleton _ _).symm

end Expression

/-! ## Texts -/

/-- What an entry of a text is built into has leaves exactly if leaves are written. Notation can
express these, and what has none is a plain number. -/
structure Entry.Classifies (entry : Entry) (built : Expression) : Prop where
  /-- No leaf is lost, and none comes up. -/
  leaves : built.leaves = [] ↔ entry.node.leaves = []
  /-- Without leaves, everything is folded into a number. -/
  plain : built.leaves = [] → built.IsPlain
  /-- The dice of every leaf can be rolled, and there is one. -/
  expressible : ∀ leaf ∈ built.leaves, leaf.set.Expressible

/-- What an entry is built to is plain, or has a leaf. -/
theorem Entry.classifies_of_build {text : String} {entries : List Entry} {entry : Entry}
    {built : Expression} (hread : readEntries text = .ok entries) (hmem : entry ∈ entries)
    (h : entry.build = .ok built) : entry.Classifies built := by
  obtain ⟨body, hbody, rfl⟩ := Entry.exists_of_build h
  obtain ⟨tokens, hderives, -⟩ := exists_derives_of_readEntries hread hmem
  have hbecomes := entry.node.becomes_leaves hbody
  have hnone : body.leaves = [] ↔ entry.node.leaves = [] := by
    rw [← List.length_eq_zero_iff, ← hbecomes.length_eq, List.length_eq_zero_iff]
  refine ⟨?_, fun hleaves => ?_, fun leaf hleaf => ?_⟩
  · rw [Expression.leaves_withComments]
    exact hnone
  · rw [Expression.leaves_withComments] at hleaves
    obtain ⟨x, rfl⟩ := entry.node.number_of_build hbody (hnone.1 hleaves)
    exact ⟨x, _, _, rfl⟩
  · rw [Expression.leaves_withComments] at hleaf
    obtain ⟨written, hwritten, -, hdenotes⟩ := exists_of_forall₂_of_mem hbecomes.flip hleaf
    exact (positive_of_derives hderives written hwritten).expressible hdenotes
      (entry.node.validate_of_build hbody leaf hleaf)

/-- The entries of a text classify the entries of its expression. -/
theorem Expression.exists_classifies_of_ofText {text : String} {expression : Expression}
    (h : ofText text = .ok expression) : ∃ entries, readEntries text = .ok entries ∧
      List.Forall₂ Entry.Classifies entries expression.entries := by
  obtain ⟨entries, hread, hbuild⟩ := exists_of_ofText h
  have hmembers := (List.forall₂_and_left _ _).2 ⟨fun _ hmem => hmem, forall₂_of_ofEntries hbuild⟩
  exact ⟨entries, hread, hmembers.imp fun entry built hentry =>
    entry.classifies_of_build hread hentry.1 hentry.2⟩

/-- An expression of a text has no leaves exactly if none are written. -/
theorem Expression.leaves_eq_nil_iff_of_classifies {entries : List Entry} {expression : Expression}
    (h : List.Forall₂ Entry.Classifies entries expression.entries) :
    expression.leaves = [] ↔ ∀ entry ∈ entries, entry.node.leaves = [] := by
  rw [leaves_eq_flatMap_entries, List.flatMap_eq_nil_iff]
  constructor
  · intro hnone
    exact forall_mem_of_forall₂ h fun entry built hbuilt hentry =>
      hentry.leaves.1 (hnone built hbuilt)
  · intro hnone
    exact forall_mem_of_forall₂ h.flip fun built entry hmem hentry =>
      hentry.leaves.2 (hnone entry hmem)

/-- An expression of a text has no leaves exactly if it consists of plain numbers. -/
theorem Expression.leaves_eq_nil_iff_isPlain {entries : List Entry} {expression : Expression}
    (h : List.Forall₂ Entry.Classifies entries expression.entries) :
    expression.leaves = [] ↔ ∀ entry ∈ expression.entries, entry.IsPlain := by
  rw [leaves_eq_flatMap_entries, List.flatMap_eq_nil_iff]
  constructor
  · intro hnone built hbuilt
    obtain ⟨entry, -, hentry⟩ := exists_of_forall₂_of_mem h.flip hbuilt
    exact hentry.plain (hnone built hbuilt)
  · intro hplain built hbuilt
    exact (hplain built hbuilt).leaves

/-- An expression of a text asks a source for a die exactly if it has leaves. -/
theorem Expression.leaves_eq_nil_iff_asked {entries : List Entry} {expression : Expression}
    (h : List.Forall₂ Entry.Classifies entries expression.entries) {σ : Type} (source : Source σ)
    (state : σ) : expression.leaves = [] ↔ (expression.evaluate.run source state).asked = [] := by
  constructor
  · intro hnone
    obtain ⟨tree, htree⟩ := exists_evaluate_eq_done hnone
    rw [htree]
    rfl
  · intro hasked
    by_contra hne
    have hexpressible : ∀ leaf ∈ expression.leaves, leaf.set.Expressible := by
      rw [leaves_eq_flatMap_entries, List.forall_mem_flatMap]
      exact forall_mem_of_forall₂ h.flip fun built entry _ hentry => hentry.expressible
    exact (asks_evaluate hexpressible hne).asked_ne_nil source state hasked

/-- Whether an expression of a text is deterministic can be told from the text, in which there are
neither dice nor checks, from the expression, which consists of plain numbers, and from evaluating
it on any source, which asks for no die. If so, all sources give the same tree, and it has a value.
Any deterministic expression at all asks no source for a die and has the same tree on all of
them. -/
theorem isDeterministic_iff_asks_nothing :
    (∀ (text : String) (expression : Expression), Expression.ofText text = .ok expression →
      ∃ entries, readEntries text = .ok entries ∧
        (expression.isDeterministic = true ↔ ∀ entry ∈ entries, entry.node.leaves = []) ∧
        (expression.isDeterministic = true ↔ ∀ entry ∈ expression.entries, entry.IsPlain) ∧
        (∀ {σ : Type} (source : Source σ) (state : σ), expression.isDeterministic = true ↔
          (expression.evaluate.run source state).asked = []) ∧
        (expression.isDeterministic = true → ∃ tree value, tree.value = .ok value ∧
          ∀ {σ : Type} (source : Source σ) (state : σ),
            expression.evaluate.run source state = ⟨.ok tree, [], state⟩)) ∧
    ∀ expression : Expression, expression.isDeterministic = true →
      ∃ tree, ∀ {σ : Type} (source : Source σ) (state : σ),
        expression.evaluate.run source state = ⟨.ok tree, [], state⟩ := by
  refine ⟨fun text expression htext => ?_, fun expression hdeterministic => ?_⟩
  · obtain ⟨entries, hread, hclassifies⟩ := Expression.exists_classifies_of_ofText htext
    have hplain := Expression.leaves_eq_nil_iff_isPlain hclassifies
    refine ⟨entries, hread, ?_⟩
    rw [expression.isDeterministic_iff_leaves]
    refine ⟨Expression.leaves_eq_nil_iff_of_classifies hclassifies, hplain,
      Expression.leaves_eq_nil_iff_asked hclassifies, fun hnone => ?_⟩
    obtain ⟨tree, value, htree, hvalue⟩ := Expression.exists_value_of_isPlain (hplain.1 hnone)
    refine ⟨tree, value, hvalue, fun source state => ?_⟩
    rw [htree, run_done]
  · have hnone := expression.isDeterministic_iff_leaves.1 hdeterministic
    obtain ⟨tree, htree⟩ := Expression.exists_evaluate_eq_done hnone
    refine ⟨tree, fun source state => ?_⟩
    rw [htree, run_done]

/-- Two plain numbers are left of `2 + 3 * 4, Bonus: -7 # fixed`. A single die in `2 + 3 * d4` is
asked for, also where there is none. A sum that was not built from a text is not calculated, and
still asks for nothing. -/
theorem isDeterministic_iff_asks_nothing_bonus :
    let plain := Expression.list [.number (.integer 14),
      .commented (.number (.integer (-7))) (some "Bonus") (some "fixed")]
    let random := Expression.sum [.product [.dice ⟨1, 4, none⟩, .number (.integer 3)],
      .number (.integer 2)]
    let unbuilt := Expression.sum [.number (.integer 2), .number (.integer 3)]
    Expression.ofText "2 + 3 * 4, Bonus: -7 # fixed" = .ok plain ∧
      (∃ tree value, tree.value = .ok value ∧
        plain.evaluate.run Supply.source (.listed []) = ⟨.ok tree, [], .listed []⟩) ∧
      Expression.ofText "2 + 3 * d4" = .ok random ∧ random.isDeterministic = false ∧
      (random.evaluate.run Supply.source (.listed [])).asked ≠ [] ∧
      unbuilt.isDeterministic = true ∧
      ∃ tree, unbuilt.evaluate.run Supply.source (.listed []) = ⟨.ok tree, [], .listed []⟩ := by
  intro plain random unbuilt
  have hplain : Expression.ofText "2 + 3 * 4, Bonus: -7 # fixed" = .ok plain := by rfl
  have hrandom : Expression.ofText "2 + 3 * d4" = .ok random := by rfl
  obtain ⟨-, -, -, -, -, hvalue⟩ := isDeterministic_iff_asks_nothing.1 _ plain hplain
  obtain ⟨tree, value, hvalue, hrun⟩ := hvalue rfl
  obtain ⟨-, -, -, -, hasked, -⟩ := isDeterministic_iff_asks_nothing.1 _ random hrandom
  obtain ⟨sum, hsum⟩ := isDeterministic_iff_asks_nothing.2 unbuilt rfl
  have hrolls := (hasked Supply.source (.listed [])).not.1 Bool.false_ne_true
  exact ⟨hplain, ⟨tree, value, hvalue, hrun _ _⟩, hrandom, rfl, hrolls, rfl, sum, hsum _ _⟩

end DiceNotation
