import DiceNotation.Proofs.ExactRuns
import DiceNotation.Proofs.FoldedConstants

/-!
# Where folding overflows

Folding brings constants together that a plain evaluation never combines directly, and moves them
behind the dice. So the partial results differ on both ways, and near the limits folding can make an
overflow of what has a plain value. It does nothing worse: unless a partial result does not fit, the
expression is built, asks for the same dice, and has the plain value.
-/

namespace DiceNotation

open Rolling

/-- If all partial results fit, an evaluated integral expression has its exact value. -/
theorem Evaluated.Settled.exists_value {tree : Evaluated} (h : tree.Settled)
    (hfits : ∀ z ∈ tree.partials, Number.Fits z) :
    ∃ z : Int64, tree.value = .ok (.number (.integer z)) ∧ z.toInt = tree.exact := by
  obtain ⟨_, hvalue, x, rfl, hx⟩ := h.result hfits
  obtain ⟨z, rfl, hz⟩ := hx.exists_integer
  exact ⟨z, hvalue, hz⟩

/-- An expression built from a text that has a plain value is evaluated on the same dice, to a tree
of which this is the exact value. -/
theorem Node.Integral.exists_tree {node : Node} (hnode : node.Integral) {shown : List ShownDie}
    {value : Int} (h : node.plain.Ends shown value) {built : Expression}
    (hbuild : node.build = .ok built) :
    ∃ tree, built.evaluate.Ends shown tree ∧ tree.Integral ∧ tree.exact = value := by
  obtain ⟨hintegral, hexact⟩ := hnode.exact_build
    (fun leaf => leaf.roll.mapError RollError.evaluation)
    (fun leaf built hleaf => Node.roll_of_build hleaf) hbuild
  obtain ⟨halways, heval⟩ := hintegral.exact_evaluate RollError.evaluation
  have hends := node.plainIsExact shown value h
  rw [hexact, heval, ← bind_pure_comp] at hends
  obtain ⟨tree, htree, hvalue⟩ := ends_bind_pure_iff.1 hends
  have hevaluate := ends_mapError_iff.1 htree
  exact ⟨tree, hevaluate, halways.of_ends hevaluate, hvalue⟩

/-- Folding may make an overflow of what has a plain value, and does not change it otherwise. If the
partial results of the constant parts fit, the text is built, and it is refused as an overflow if
one of them does not. What is built is evaluated on the same dice, which leaves the source in the
same state, and has the plain value if its partial results fit, and overflows if one does not. -/
theorem built_of_plain {σ : Type} {source : Source σ} {state : σ} {node : Node} {value : Int}
    (hnode : node.Integral) (hplain : (node.plain.run source state).result = .ok value) :
    ((∀ z ∈ node.constantPartials, Number.Fits z) →
      ∃ built tree, node.build = .ok built ∧
        built.evaluate.run source state =
          ⟨.ok tree, (node.plain.run source state).shown, (node.plain.run source state).state⟩ ∧
        ((∀ z ∈ tree.partials, Number.Fits z) →
          ∃ z : Int64, tree.value = .ok (.number (.integer z)) ∧ z.toInt = value) ∧
        ((∃ z ∈ tree.partials, ¬ Number.Fits z) → tree.value = .error .overflow)) ∧
    ((∃ z ∈ node.constantPartials, ¬ Number.Fits z) →
      node.build = .error (.calculation .overflow)) := by
  obtain ⟨hends, hshows⟩ := ends_of_run hplain
  have hbuilds := hnode.buildsByPartials hends
  constructor
  · intro hfits
    obtain ⟨built, hbuild⟩ := hbuilds.built hfits
    obtain ⟨tree, htree, hintegral, rfl⟩ := hnode.exists_tree hends hbuild
    have hsettled := hintegral.whole.settled
    refine ⟨built, tree, hbuild, htree.run hshows, hsettled.exists_value, ?_⟩
    rintro ⟨z, hz, hnot⟩
    exact hsettled.overflow fun hall => hnot (hall z hz)
  · rintro ⟨z, hz, hnot⟩
    exact hbuilds.overflow fun hall => hnot (hall z hz)

/-- The constants of `1 - 2d6 + 3` are combined to 4, and moved behind the dice. -/
theorem built_of_plain_difference :
    let node := Node.sum (.integer "1")
      [(.minus, .dice ⟨some "2", "6", none⟩), (.plus, .integer "3")]
    node.Integral ∧
      node.plain.run Supply.source (.listed [3, 5]) =
        ⟨.ok (-4), [⟨6, 3⟩, ⟨6, 5⟩], .listed []⟩ ∧
      node.constantPartials = [0, 1, 4] ∧
      ∃ built tree, node.build = .ok built ∧
        built.evaluate.run Supply.source (.listed [3, 5]) =
          ⟨.ok tree, [⟨6, 3⟩, ⟨6, 5⟩], .listed []⟩ ∧
        tree.partials = [1, -1, -8, 0, -8, -4] ∧
        tree.value = .ok (.number (.integer (-4))) := by
  intro node
  have hnode : node.Integral :=
    .sum (.integer "1") (List.forall_mem_cons.2 ⟨.dice _,
      List.forall_mem_cons.2 ⟨.integer "3", List.forall_mem_nil _⟩⟩)
  have hplain : node.plain.run Supply.source (.listed [3, 5]) =
      ⟨.ok (-4), [⟨6, 3⟩, ⟨6, 5⟩], .listed []⟩ := rfl
  have hconstants : node.constantPartials = [0, 1, 4] := rfl
  obtain ⟨built, tree, hbuild, htree, hvalue, -⟩ :=
    (built_of_plain hnode (congrArg Run.result hplain)).1 (by rw [hconstants]; decide)
  rw [hplain] at htree
  have hpartials : tree.partials = [1, -1, -8, 0, -8, -4] := by
    obtain rfl := Except.ok.inj hbuild
    obtain rfl := Except.ok.inj (congrArg Run.result htree)
    rfl
  obtain ⟨z, hz, hexact⟩ := hvalue (by rw [hpartials]; decide)
  obtain rfl : z = -4 := Int64.toInt_inj.1 (hexact.trans (by decide))
  exact ⟨hnode, hplain, hconstants, built, tree, hbuild, htree, hpartials, hz⟩

/-- Two texts that have a plain value, and overflow where their constants are folded. The first one,
`1 - d6 + 9223372036854775807 - 1`, is not even built, since the die no longer stands between the
constants. The second one is built, but its negative constant is moved behind the dice. -/
theorem overflow_of_plain :
    (∃ node, node = Node.sum (.integer "1") [(.minus, .dice ⟨none, "6", none⟩),
        (.plus, .integer "9223372036854775807"), (.minus, .integer "1")] ∧
      node.Integral ∧
      node.plain.run Supply.source (.listed [4]) =
        ⟨.ok 9223372036854775803, [⟨6, 4⟩], .listed []⟩ ∧
      node.build = .error (.calculation .overflow)) ∧
    ∃ node built tree, node = Node.sum (.negation (.integer "9223372036854775807"))
        [(.plus, .product (.integer "9223372036854775807") [(.times, .dice ⟨none, "1", none⟩)]),
          (.plus, .product (.integer "9223372036854775807") [(.times, .dice ⟨none, "1", none⟩)])] ∧
      node.Integral ∧
      node.plain.run Supply.source (.listed [1, 1]) =
        ⟨.ok 9223372036854775807, [⟨1, 1⟩, ⟨1, 1⟩], .listed []⟩ ∧
      node.build = .ok built ∧
      (built.evaluate.run Supply.source (.listed [1, 1])).result = .ok tree ∧
      tree.value = .error .overflow := by
  have hlarge : (Node.product (.integer "9223372036854775807")
      [(.times, .dice ⟨none, "1", none⟩)]).Integral :=
    .product (.integer _) (by decide)
      (List.forall_mem_cons.2 ⟨.dice _, List.forall_mem_nil _⟩)
  constructor
  · refine ⟨_, rfl, .sum (.integer "1") ?_, rfl, rfl⟩
    exact List.forall_mem_cons.2 ⟨.dice _, List.forall_mem_cons.2 ⟨.integer _,
      List.forall_mem_cons.2 ⟨.integer _, List.forall_mem_nil _⟩⟩⟩
  · refine ⟨_, _, _, rfl, .sum (.negation (.integer _)) ?_, rfl, rfl, rfl, rfl⟩
    exact List.forall_mem_cons.2 ⟨hlarge, List.forall_mem_cons.2 ⟨hlarge, List.forall_mem_nil _⟩⟩

end DiceNotation
