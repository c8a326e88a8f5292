import DiceNotation.Proofs.Leaves

/-!
# The leaves of what is built

Building moves constants, drops the ones that change nothing, and wraps operands in products with -1
and in powers of -1. It does not touch the leaves: those of an expression are the written ones, each
as it is built by itself, in the same order. Nothing is lost even where the value is known before
any die is rolled, as behind a factor of zero or under an exponent of zero.
-/

namespace DiceNotation

namespace Expression

/-- A number has no leaves, so those of the other operands are all. -/
theorem flatMap_leaves_kept (operands : List Expression) :
    (kept operands).flatMap leaves = operands.flatMap leaves := by
  induction operands with
  | nil => rfl
  | cons operand operands ih =>
    cases operand with
    | number x => rw [kept_number_cons, ih, List.flatMap_cons, leaves, List.nil_append]
    | _ => rw [kept_cons rfl, List.flatMap_cons, List.flatMap_cons, ih]

/-- A sum or product has the leaves of its operands. -/
theorem leaves_toExpression (chain : Chain) (operands : List Expression) :
    (chain.toExpression operands).leaves = operands.flatMap leaves := by
  cases chain <;> exact leavesOfAll_eq operands

/-- Folding keeps the leaves of the operands. -/
theorem leaves_fold {chain : Chain} {operands : List Expression} {folded : Expression}
    (h : chain.fold operands = .ok folded) : folded.leaves = operands.flatMap leaves := by
  rw [← flatMap_leaves_kept]
  obtain ⟨residual, -, ⟨hkept, rfl⟩ | ⟨-, hkept⟩ | ⟨-, -, rfl⟩ | ⟨-, -, rfl⟩⟩ :=
    Chain.fold_cases h
  · rw [hkept]
    rfl
  · rw [hkept, List.flatMap_singleton]
  · exact leaves_toExpression chain (kept operands)
  · rw [leaves_toExpression, List.flatMap_append, List.flatMap_singleton, leaves, List.append_nil]

/-- Negating an expression adds no leaf and drops none. -/
theorem leaves_negate {body negated : Expression} (h : body.negate = .ok negated) :
    negated.leaves = body.leaves := by
  rcases negate_cases h with ⟨x, y, rfl, -, rfl⟩ | ⟨-, rfl⟩
  · rfl
  · rw [leaves, leavesOfAll_eq, List.flatMap_cons, List.flatMap_singleton, leaves, List.nil_append]

/-- Neither does inverting it. -/
theorem leaves_invert {body inverted : Expression} (h : body.invert = .ok inverted) :
    inverted.leaves = body.leaves := by
  rcases invert_cases h with ⟨x, y, rfl, -, rfl⟩ | ⟨-, rfl⟩
  · rfl
  · rw [leaves, leaves, List.append_nil]

/-- A power has the leaves of its operands. -/
theorem leaves_raise {operands : List Expression} {raised : Expression}
    (h : raise operands = .ok raised) : raised.leaves = operands.flatMap leaves := by
  obtain ⟨base, exponent, rfl, ⟨x, y, z, rfl, rfl, -, rfl⟩ | ⟨-, rfl⟩⟩ := raise_cases h
  · rfl
  · rw [leaves, List.flatMap_cons, List.flatMap_singleton]

end Expression

/-- The sign of a term leaves its leaves as they are. -/
theorem TermSign.leaves_signed {sign : TermSign} {operand term : Expression}
    (h : sign.signed operand = .ok term) : term.leaves = operand.leaves := by
  match sign, h with
  | .plus, h =>
    cases h
    rfl
  | .minus, h => exact Expression.leaves_negate h

/-- So does the sign of a factor. -/
theorem FactorSign.leaves_signed {sign : FactorSign} {operand factor : Expression}
    (h : sign.signed operand = .ok factor) : factor.leaves = operand.leaves := by
  match sign, h with
  | .times, h =>
    cases h
    rfl
  | .over, h => exact Expression.leaves_invert h

/-! ## Bare expressions -/

namespace Expression

/-- Neither several expressions nor one with comments. -/
def Bare : Expression → Prop
  | list _ => False
  | commented _ _ _ => False
  | _ => True

/-- An expression that is neither a list nor commented is its own only entry. -/
theorem Bare.entries {expression : Expression} (h : expression.Bare) :
    expression.entries = [expression] := by
  cases expression with
  | list entries => exact h.elim
  | _ => rfl

/-- Comments make no list of an expression. -/
theorem Bare.entries_withComments {body : Expression} (h : body.Bare)
    (before after : Option String) :
    (body.withComments before after).entries = [body.withComments before after] := by
  cases before <;> cases after
  · exact h.entries
  all_goals rfl

/-- Folding bare expressions results in a bare one. -/
theorem bare_fold {chain : Chain} {operands : List Expression} {folded : Expression}
    (ho : ∀ operand ∈ operands, operand.Bare) (h : chain.fold operands = .ok folded) :
    folded.Bare := by
  obtain ⟨residual, -, ⟨-, rfl⟩ | ⟨-, hkept⟩ | ⟨-, -, rfl⟩ | ⟨-, -, rfl⟩⟩ :=
    Chain.fold_cases h
  · trivial
  · have hmem : folded ∈ kept operands := hkept ▸ List.mem_singleton_self folded
    exact ho folded (mem_kept.mp hmem).1
  all_goals cases chain <;> trivial

/-- No list and no comments come from negating. -/
theorem bare_negate {body negated : Expression} (h : body.negate = .ok negated) :
    negated.Bare := by
  rcases negate_cases h with ⟨x, y, -, -, rfl⟩ | ⟨-, rfl⟩ <;> trivial

/-- Nor do they come from inverting. -/
theorem bare_invert {body inverted : Expression} (h : body.invert = .ok inverted) :
    inverted.Bare := by
  rcases invert_cases h with ⟨x, y, -, -, rfl⟩ | ⟨-, rfl⟩ <;> trivial

/-- Nor do they come from raising to a power. -/
theorem bare_raise {operands : List Expression} {raised : Expression}
    (h : raise operands = .ok raised) : raised.Bare := by
  obtain ⟨base, exponent, -, ⟨x, y, z, -, -, -, rfl⟩ | ⟨-, rfl⟩⟩ := raise_cases h <;> trivial

end Expression

/-! ## Nodes and entries -/

namespace Node

/-- A written leaf becomes a leaf: it is built as this leaf by itself, and denotes it. -/
def Becomes (written : Node) (leaf : Leaf) : Prop :=
  written.build = .ok leaf.expression ∧ written.Denotes leaf

/-- The leaves of a node become the leaves of the expression that it is built into. -/
theorem becomes_leaves (node : Node) {built : Expression} (h : node.build = .ok built) :
    List.Forall₂ Becomes node.leaves built.leaves := by
  refine build_induction (fun node built => List.Forall₂ Becomes node.leaves built.leaves)
    (fun _ _ _ => .nil) (fun _ _ _ => .nil) ?dice ?check ?nb ?negation ?power ?product ?sum node h
  case dice =>
    intro written set hset
    have hbuild : (Node.dice written).build = .ok (.dice set) := by
      rw [build, hset]
      rfl
    exact .cons ⟨hbuild, .dice (WrittenDice.denotes_of_build hset).1⟩ .nil
  case check =>
    intro written comparison threshold built h
    obtain ⟨leaf, rfl, hdenotes, -⟩ := denotes_of_check h
    exact .cons ⟨h, hdenotes⟩ .nil
  case nb =>
    intro difficulty count built h
    obtain ⟨leaf, rfl, hdenotes, -⟩ := denotes_of_nb h
    exact .cons ⟨h, hdenotes⟩ .nil
  case negation =>
    intro body operand negated hbody hnegate
    rw [leaves, Expression.leaves_negate hnegate]
    exact hbody
  case power =>
    intro nodes operands raised hoperands hraise
    rw [leaves, leavesOfAll_eq, Expression.leaves_raise hraise]
    exact List.rel_flatMap hoperands fun _ _ h => h
  case product =>
    intro first rest operand factors folded hfirst hrest hfold
    rw [leaves, leavesOfFactors_eq, Expression.leaves_fold hfold, List.flatMap_cons]
    refine List.rel_append hfirst (List.rel_flatMap hrest ?_)
    rintro factor signed ⟨body, hbody, hsigned⟩
    rw [FactorSign.leaves_signed hsigned]
    exact hbody
  case sum =>
    intro first rest operand terms folded hfirst hrest hfold
    rw [leaves, leavesOfTerms_eq, Expression.leaves_fold hfold, List.flatMap_cons]
    refine List.rel_append hfirst (List.rel_flatMap hrest ?_)
    rintro term signed ⟨body, hbody, hsigned⟩
    rw [TermSign.leaves_signed hsigned]
    exact hbody

/-- The dice of every leaf that is built can be rolled. -/
theorem validate_of_build (node : Node) {built : Expression} (h : node.build = .ok built) :
    ∀ leaf ∈ built.leaves, leaf.set.validate = .ok () := by
  refine of_build (fun built => ∀ leaf ∈ built.leaves, leaf.set.validate = .ok ())
    (fun _ _ => List.forall_mem_nil _) ?dice ?check ?negate ?invert ?raise ?fold node h
  case dice => exact fun _ hvalid => List.forall_mem_singleton.2 hvalid
  case check => exact fun _ hvalid => List.forall_mem_singleton.2 hvalid
  case negate =>
    intro body negated hbody hnegate
    rw [Expression.leaves_negate hnegate]
    exact hbody
  case invert =>
    intro body inverted hbody hinvert
    rw [Expression.leaves_invert hinvert]
    exact hbody
  case raise =>
    intro operands raised hoperands hraise
    rw [Expression.leaves_raise hraise]
    exact List.forall_mem_flatMap.2 hoperands
  case fold =>
    intro chain operands folded hoperands hfold
    rw [Expression.leaves_fold hfold]
    exact List.forall_mem_flatMap.2 hoperands

/-- What is built is neither a list nor commented. -/
theorem bare_of_build (node : Node) {built : Expression} (h : node.build = .ok built) :
    built.Bare := by
  refine of_build Expression.Bare (fun _ _ => trivial) (fun _ _ => trivial) (fun _ _ => trivial)
    ?_ ?_ ?_ ?_ node h
  · exact fun _ _ _ hnegate => Expression.bare_negate hnegate
  · exact fun _ _ _ hinvert => Expression.bare_invert hinvert
  · exact fun _ _ _ hraise => Expression.bare_raise hraise
  · exact fun _ _ _ hoperands hfold => Expression.bare_fold hoperands hfold

end Node

namespace Expression

/-- The expression of some entries consists of one expression for each of them. -/
theorem forall₂_of_ofEntries {entries : List Entry} {built : Expression}
    (h : ofEntries entries = .ok built) :
    List.Forall₂ (fun entry expression => entry.build = .ok expression) entries built.entries := by
  rw [ofEntries] at h
  obtain ⟨expressions, hexpressions, h⟩ := bind_eq_ok_iff.mp h
  rw [buildEntries_eq_mapM, mapM_eq_ok_iff] at hexpressions
  split at h
  · cases pure_eq_ok_iff.mp h
    -- What a single entry is built into is no list, whether it has comments or not.
    suffices hsingle : built.entries = [built] by rwa [hsingle]
    obtain ⟨entry, rest, hentry, -, -⟩ := List.forall₂_cons_right_iff.mp hexpressions
    obtain ⟨body, hbody, rfl⟩ := Entry.exists_of_build hentry
    exact (Node.bare_of_build entry.node hbody).entries_withComments _ _
  · cases pure_eq_ok_iff.mp h
    exact hexpressions

/-- Comments are put around the leaves and change none of them. -/
theorem leaves_withComments (body : Expression) (before after : Option String) :
    (body.withComments before after).leaves = body.leaves := by
  cases before <;> cases after <;> rfl

end Expression

/-- Building keeps the leaves. Those of a node become the leaves of its expression, in order, and
those of every entry of a text become the leaves of the expression in its place. -/
theorem leaves_of_build :
    (∀ (node : Node) (built : Expression), node.build = .ok built →
      List.Forall₂ Node.Becomes node.leaves built.leaves) ∧
    ∀ (entries : List Entry) (built : Expression), Expression.ofEntries entries = .ok built →
      List.Forall₂ (fun entry expression =>
        List.Forall₂ Node.Becomes entry.node.leaves expression.leaves) entries built.entries := by
  refine ⟨fun node built h => node.becomes_leaves h, fun entries built h => ?_⟩
  refine (Expression.forall₂_of_ofEntries h).imp fun entry expression hentry => ?_
  obtain ⟨body, hbody, rfl⟩ := Entry.exists_of_build hentry
  rw [Expression.leaves_withComments]
  exact entry.node.becomes_leaves hbody

/-- The dice of `0 * 2d6 ^ 0` stay, and so does the check in the entry behind them. -/
theorem leaves_of_build_zero :
    let node := Node.product (.integer "0")
      [(.times, .power [.dice ⟨some "2", "6", none⟩, .integer "0"])]
    let built := Expression.product
      [.power (.dice ⟨2, 6, none⟩) (.number (.integer 0)), .number (.integer 0)]
    let entries := [⟨none, node, none⟩, ⟨some "Shoot", .nb .hard "4", none⟩]
    let expressions := [built, .commented (.check (.nb 4 6)) (some "Shoot") none]
    (node.build = .ok built ∧ List.Forall₂ Node.Becomes node.leaves built.leaves) ∧
      Expression.ofEntries entries = .ok (.list expressions) ∧
      List.Forall₂ (fun entry expression =>
        List.Forall₂ Node.Becomes entry.node.leaves expression.leaves) entries expressions := by
  intro node built entries expressions
  have hnode : node.build = .ok built := rfl
  have hentries : Expression.ofEntries entries = .ok (.list expressions) := rfl
  exact ⟨⟨hnode, leaves_of_build.1 node built hnode⟩, hentries,
    leaves_of_build.2 entries (.list expressions) hentries⟩

end DiceNotation
