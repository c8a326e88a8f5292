import Mathlib
import DiceNotation.Dice.Supply
import DiceNotation.Proofs.FoldingExact

/-!
# The value of a built text

Rolling an integral expression leaf by leaf is what evaluating it does, and the tree that comes of
it has the exact value of what was rolled. Together with what folding keeps, the value of the
expression built from an integral text is the exact value of the text on the same dice.
-/

namespace DiceNotation

namespace Expression

variable {δ : Type}

/-- Operands are evaluated one after the other, and each has its exact value. -/
theorem exactAll_evaluateAll {f : EvaluationError → δ} {operands : List Expression}
    (h : ∀ operand ∈ operands, operand.evaluate.Always Evaluated.Integral ∧
      operand.exact (fun leaf => leaf.roll.mapError f) =
        Evaluated.exact <$> operand.evaluate.mapError f) :
    ((evaluateAll operands).Always fun trees => ∀ tree ∈ trees, tree.Integral) ∧
      exactAll (fun leaf => leaf.roll.mapError f) operands =
        Evaluated.exactAll <$> (evaluateAll operands).mapError f := by
  induction operands with
  | nil => exact ⟨List.forall_mem_nil _, rfl⟩
  | cons operand operands ih =>
    obtain ⟨hintegral, hexact⟩ := h operand List.mem_cons_self
    obtain ⟨ihintegral, ihexact⟩ := ih fun other hother => h other (List.mem_cons_of_mem _ hother)
    constructor
    · rw [evaluateAll]
      apply hintegral.bind
      intro tree htree
      apply ihintegral.bind
      intro trees htrees
      exact List.forall_mem_cons.mpr ⟨htree, htrees⟩
    · rw [exactAll_cons, hexact, ihexact, evaluateAll]
      simp only [bind_pure_comp, Rolling.mapError_bind, Rolling.mapError_map, map_bind,
        bind_map_left, Functor.map_map, Evaluated.exactAll]

/-- Evaluating an integral expression gives an integral tree, and rolls its leaves in order. -/
theorem Integral.exact_evaluate {expression : Expression} (h : expression.Integral)
    (f : EvaluationError → δ) :
    expression.evaluate.Always Evaluated.Integral ∧
      expression.exact (fun leaf => leaf.roll.mapError f) =
        Evaluated.exact <$> expression.evaluate.mapError f := by
  induction h with
  | number z => exact ⟨.number z, rfl⟩
  | dice set =>
    constructor
    · apply ((set.always_length_roll.imp fun rolled hsize => hsize.2).mapError _).bind
      intro rolled hsize
      exact .dice hsize
    · rw [exact, roll, evaluate]
      simp only [Rolling.mapError_bind, Rolling.mapError_pure, map_bind, map_pure, Evaluated.exact]
  | check set =>
    have hroll : set.roll.Always fun rolled => rolled.rolled.rolls.length ≤ maxRolls := by
      apply (set.dice.always_length_roll.imp fun rolled hsize => hsize.2).bind
      intro rolled hsize
      exact hsize
    constructor
    · apply (hroll.mapError _).bind
      intro rolled hsize
      exact .check hsize
    · rw [exact, roll, evaluate]
      simp only [Rolling.mapError_bind, Rolling.mapError_pure, map_bind, map_pure, Evaluated.exact]
  | sum hterms ih =>
    obtain ⟨hintegral, hexact⟩ := exactAll_evaluateAll ih
    constructor
    · exact hintegral.bind fun trees htrees => .sum htrees
    · rw [exact, hexact, evaluate]
      simp only [Rolling.mapError_bind, Rolling.mapError_pure, map_bind, map_pure, bind_map_left,
        Evaluated.exact]
  | product hfactors ih =>
    obtain ⟨hintegral, hexact⟩ := exactAll_evaluateAll ih
    constructor
    · exact hintegral.bind fun trees htrees => .product htrees
    · rw [exact, hexact, evaluate]
      simp only [Rolling.mapError_bind, Rolling.mapError_pure, map_bind, map_pure, bind_map_left,
        Evaluated.exact]
  | @power base z hbase hz ih =>
    obtain ⟨hintegral, hexact⟩ := ih
    constructor
    · rw [evaluate]
      apply hintegral.bind
      intro tree htree
      exact .power htree (.number z) hz
    · rw [exact, hexact, evaluate]
      simp only [exact, evaluate, Rolling.mapError_bind, Rolling.mapError_pure, map_bind, map_pure,
        bind_map_left, pure_bind, Evaluated.exact, Evaluated.exactAll]

end Expression

/-- A written leaf is rolled like the leaf that is built from it. -/
theorem Node.roll_of_build {node : Node} {built : Expression} (h : node.build = .ok built) :
    node.roll = built.roll.mapError .evaluation := by
  rw [Node.roll, h]

/-- On every source of dice, the value of the expression built from an integral text is the exact
value of the text, and the text asks for the same dice and leaves the source in the same state. -/
theorem value_eq_exact_of_build {σ : Type} (source : Source σ) (state : σ) {node : Node}
    {built : Expression} {tree : Evaluated} {value : Value} (hnode : node.Integral)
    (hbuild : node.build = .ok built)
    (htree : (built.evaluate.run source state).result = .ok tree)
    (hvalue : tree.value = .ok value) :
    ∃ z : Int64, value = .number (.integer z) ∧
      (node.exact Node.roll).run source state =
        ⟨.ok z.toInt, (built.evaluate.run source state).shown,
          (built.evaluate.run source state).state⟩ := by
  obtain ⟨hintegral, hexact⟩ := hnode.exact_build
    (fun leaf => leaf.roll.mapError RollError.evaluation)
    (fun leaf built hleaf => Node.roll_of_build hleaf) hbuild
  obtain ⟨halways, heval⟩ := hintegral.exact_evaluate RollError.evaluation
  obtain ⟨x, hx, hrepresents⟩ :=
    (halways.run source state htree).represents_of_value hvalue
  cases x with
  | decimal y => exact hrepresents.elim
  | integer z =>
    refine ⟨z, hx, ?_⟩
    have hz : z.toInt = tree.exact := hrepresents
    have hrun := Rolling.run_mapError RollError.evaluation _ source state htree
    rw [hexact, heval, Rolling.run_map _ _ _ _ (congrArg Run.result hrun), hrun, hz]

/-- Of `2 - 2d6 highest 1 + 1`, rolled as 3 and 5, the constants are folded into a 3 behind the
dice, and the value is that of 2 - 5 + 1. -/
theorem value_eq_exact_of_build_highest :
    ∃ node built tree, node = Node.sum (.integer "2")
        [(.minus, .dice ⟨some "2", "6", some (.highest, "1")⟩), (.plus, .integer "1")] ∧
      node.Integral ∧ node.build = .ok built ∧
      (built.evaluate.run Supply.source (.listed [3, 5])).result = .ok tree ∧
      tree.value = .ok (.number (.integer (-2))) ∧
      (node.exact Node.roll).run Supply.source (.listed [3, 5]) =
        ⟨.ok (-2), [⟨6, 3⟩, ⟨6, 5⟩], .listed []⟩ := by
  have hnode : (Node.sum (.integer "2") [(.minus, .dice ⟨some "2", "6", some (.highest, "1")⟩),
      (.plus, .integer "1")]).Integral :=
    .sum (.integer "2") (List.forall_mem_cons.mpr ⟨.dice _,
      List.forall_mem_cons.mpr ⟨.integer "1", List.forall_mem_nil _⟩⟩)
  have hbuild : (Node.sum (.integer "2") [(.minus, .dice ⟨some "2", "6", some (.highest, "1")⟩),
      (.plus, .integer "1")]).build = .ok (.sum [.product [.number (.integer (-1)),
        .dice ⟨2, 6, some (.keepHighest 1)⟩], .number (.integer 3)]) := rfl
  have htree : ((Expression.sum [.product [.number (.integer (-1)),
      .dice ⟨2, 6, some (.keepHighest 1)⟩], .number (.integer 3)]).evaluate.run Supply.source
        (.listed [3, 5])).result = .ok (.arithmetic .sum [.arithmetic .product
          [.number (.integer (-1)), .dice ⟨⟨2, 6, some (.keepHighest 1)⟩,
            [⟨3, none, some (.keepHighest 1)⟩, ⟨5, none, none⟩]⟩], .number (.integer 3)]) := by
    cbv
  have hvalue : (Evaluated.arithmetic .sum [.arithmetic .product [.number (.integer (-1)),
      .dice ⟨⟨2, 6, some (.keepHighest 1)⟩, [⟨3, none, some (.keepHighest 1)⟩, ⟨5, none, none⟩]⟩],
        .number (.integer 3)]).value = .ok (.number (.integer (-2))) := by
    rfl
  obtain ⟨z, hz, hrun⟩ :=
    value_eq_exact_of_build Supply.source (.listed [3, 5]) hnode hbuild htree hvalue
  refine ⟨_, _, _, rfl, hnode, hbuild, htree, hvalue, ?_⟩
  cases hz
  rw [hrun]
  cbv

end DiceNotation
