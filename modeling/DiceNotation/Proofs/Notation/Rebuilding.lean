import DiceNotation.Proofs.Folding
import DiceNotation.Proofs.Notation.Leaves

/-!
# Rebuilding expressions

The notation of an expression is derivable as a tree that follows it operand by operand. This needs
operands that are not of the same kind as the sum or product around them, since those stand without
parentheses. Whatever relates expressions with trees and is handed on from operands to operations
relates the expression with this tree. One such relation is that the tree is built into the
expression rebuilt, with the same leaves, with its sums and products folded, and with its powers
calculated if they can be.
-/

namespace DiceNotation

open Grammar

namespace Expression

mutual

/-- The expression built once more from the same leaves. -/
def rebuild : Expression → Except BuildError Expression
  | .number x => .ok (.number x)
  | .dice leaf => .ok (.dice leaf)
  | .check leaf => .ok (.check leaf)
  | .sum terms => do calculated (Chain.sum.fold (← rebuildAll terms))
  | .product factors => do calculated (Chain.product.fold (← rebuildAll factors))
  | .power base exponent => do
    let base ← base.rebuild
    raise [base, ← exponent.rebuild]
  | .list entries => return .list (← rebuildAll entries)
  | .commented body before after => return .commented (← body.rebuild) before after

/-- Expressions built once more. -/
def rebuildAll : List Expression → Except BuildError (List Expression)
  | [] => .ok []
  | operand :: operands => do
    let operand ← operand.rebuild
    return operand :: (← rebuildAll operands)

end

theorem rebuild_toExpression (chain : Chain) (operands : List Expression) :
    (chain.toExpression operands).rebuild =
      rebuildAll operands >>= fun operands => calculated (chain.fold operands) := by
  cases chain <;> rw [Chain.toExpression, rebuild]

/-- Expressions made of numbers of some kind, of dice that notation can express, of sums and
products whose operands fit, and of powers that are not calculated. -/
inductive Shaped (allowed : Number → Prop) (fits : Chain → List Expression → Prop) :
    Expression → Prop where
  /-- A number. -/
  | number {x : Number} (h : allowed x) : Shaped allowed fits (.number x)
  /-- Dice. -/
  | dice {leaf : Dice} (h : leaf.Expressible) : Shaped allowed fits (.dice leaf)
  /-- A check. -/
  | check {leaf : Check} (h : leaf.dice.Expressible) : Shaped allowed fits (.check leaf)
  /-- A sum or product. -/
  | chain (chain : Chain) {operands : List Expression} (hf : fits chain operands)
    (ho : ∀ operand ∈ operands, Shaped allowed fits operand) :
    Shaped allowed fits (chain.toExpression operands)
  /-- A power of two operands that are not both numbers. -/
  | power {base exponent : Expression} (hn : base.number? = none ∨ exponent.number? = none)
    (hb : Shaped allowed fits base) (he : Shaped allowed fits exponent) :
    Shaped allowed fits (.power base exponent)

end Expression

theorem Expression.Shaped.allowed_number {allowed : Number → Prop}
    {fits : Chain → List Expression → Prop} {x : Number}
    (h : (Expression.number x).Shaped allowed fits) : allowed x := by
  generalize hexpression : Expression.number x = expression at h
  cases h with
  | number hallowed =>
    cases hexpression
    exact hallowed
  | chain chain => cases chain <;> cases hexpression
  | _ => cases hexpression

theorem Expression.Shaped.operands {allowed : Number → Prop}
    {fits : Chain → List Expression → Prop} {chain : Chain} {operands : List Expression}
    (h : (chain.toExpression operands).Shaped allowed fits) :
    fits chain operands ∧ ∀ operand ∈ operands, operand.Shaped allowed fits := by
  generalize hexpression : chain.toExpression operands = expression at h
  cases h with
  | chain other hfits hoperands =>
    cases chain <;> cases other <;> cases hexpression <;> exact ⟨hfits, hoperands⟩
  | _ => cases chain <;> cases hexpression

/-- At least two operands, none of which is an operation of the same kind. -/
structure Chain.Unnested (chain : Chain) (operands : List Expression) : Prop where
  /-- There are at least two operands. -/
  two : 2 ≤ operands.length
  /-- No operand is an operation of the same kind. -/
  kinds : ∀ operand ∈ operands, operand.operation? ≠ some chain.operation

/-- The level of an operation. -/
def Operation.level : Operation → Level
  | sum => .sum
  | product => .product
  | power => .power

/-- The level of the notation of an expression. -/
def Expression.level (expression : Expression) : Level :=
  match expression.operation? with
  | some operation => operation.level
  | none => .negation

theorem derives_sum_of_operation {operation : Operation} {tokens : List Token} {node : Node}
    (h : Derives operation.level tokens node) : Derives .sum tokens node := by
  cases operation with
  | sum => exact h
  | product => exact .term h
  | power => exact .term (.factor h)

/-- The notation of an operand, unless it is an operation that stands without parentheses. -/
theorem reads_operandText {around : Operation} {operand : Expression} {property : Node → Prop}
    (h : Reads operand.level operand.text.toList property)
    (hk : operand.operation? ≠ some around ∨ around = .power) :
    Reads .negation (operandText around operand.operation? operand.text).toList property := by
  obtain ⟨tokens, node, hspaced, hnode, hproperty⟩ := h
  rw [Expression.level] at hnode
  cases hown : operand.operation? with
  | none =>
    rw [hown] at hnode
    exact ⟨tokens, node, hspaced, hnode, hproperty⟩
  | some own =>
    rw [hown] at hnode hk
    have hparentheses : own ≠ around ∨ around = .power :=
      hk.imp_left fun hne heq => hne (congrArg some heq)
    have hclosed := Spaced.append (.single ['(']) (hspaced.append (.single [')']))
    refine ⟨_, node, ?_, .plain (.parentheses (derives_sum_of_operation hnode)), hproperty⟩
    rw [operandText, if_pos hparentheses, String.toList_append, String.toList_append,
      List.append_assoc]
    exact hclosed

theorem toList_intercalate_cons (separator first : String) (rest : List String) :
    (separator.intercalate (first :: rest)).toList =
      first.toList ++ rest.flatMap fun text => separator.toList ++ text.toList := by
  induction rest generalizing first with
  | nil => rw [String.intercalate_singleton, List.flatMap_nil, List.append_nil]
  | cons second rest ih =>
    rw [String.intercalate_cons_cons, String.toList_append, ih, List.flatMap_cons,
      String.toList_append]
    simp only [List.append_assoc]

/-- The notation of an operation is that of its first operand and of the others behind its symbol,
each with a space around it. -/
theorem toList_operationText (operation : Operation) (first : String) (rest : List String) :
    (operationText operation (first :: rest)).toList = first.toList ++ rest.flatMap fun text =>
      " ".toList ++ (operation.symbol.toList ++ (" ".toList ++ text.toList)) := by
  rw [operationText, toList_intercalate_cons]
  simp only [String.toList_append, List.append_assoc]

/-- Operands that can be read are so one after another, each behind the symbol of the operation. -/
theorem exists_pieces {around : Operation} {related : Expression → Node → Prop}
    {operands : List Expression} (h : ∀ operand ∈ operands, Reads .negation
      (operandText around operand.operation? operand.text).toList (related operand)) :
    ∃ pieces : List (List Token × Node),
      Spaced (pieces.flatMap fun piece => around.symbol.toList :: piece.1)
        ((Expression.operandTexts around operands).flatMap fun text =>
          " ".toList ++ (around.symbol.toList ++ (" ".toList ++ text.toList))) ∧
      (∀ piece ∈ pieces, Derives .negation piece.1 piece.2) ∧
      List.Forall₂ related operands (pieces.map Prod.snd) := by
  induction operands with
  | nil => exact ⟨[], .blanks (List.forall_mem_nil _), List.forall_mem_nil _, .nil⟩
  | cons operand operands ih =>
    obtain ⟨hoperand, hothers⟩ := List.forall_mem_cons.1 h
    obtain ⟨tokens, node, hspaced, hnode, hrelated⟩ := hoperand
    obtain ⟨pieces, hpieces, hnodes, hall⟩ := ih hothers
    refine ⟨(tokens, node) :: pieces, ?_, List.forall_mem_cons.2 ⟨hnode, hnodes⟩,
      .cons hrelated hall⟩
    have hsymbol := Spaced.append (.single around.symbol.toList)
      (hspaced.blanks_append isBlank_space)
    exact (hsymbol.blanks_append isBlank_space).append hpieces

/-- The written operation on some operands, without differences and quotients. -/
def Chain.node : Chain → Node → List Node → Node
  | sum, first, rest => .sum first (rest.map fun node => (.plus, node))
  | product, first, rest => .product first (rest.map fun node => (.times, node))

/-- The tokens of a chain of negations whose operators all are the same. -/
theorem derives_chain (chain : Chain) {tokens : List Token} {first : Node}
    {pieces : List (List Token × Node)} (hf : Derives .negation tokens first)
    (hp : ∀ piece ∈ pieces, Derives .negation piece.1 piece.2) (hne : pieces ≠ []) :
    Derives chain.operation.level
      (tokens ++ pieces.flatMap fun piece => chain.operation.symbol.toList :: piece.1)
      (chain.node first (pieces.map Prod.snd)) := by
  cases chain with
  | sum =>
    have hterms : ∀ piece ∈ pieces.map fun piece => (TermSign.plus, piece),
        Derives .product piece.2.1 piece.2.2 :=
      List.forall_mem_map.2 fun piece hpiece => .factor (.base (hp piece hpiece))
    have hsum := Derives.sum (.factor (.base hf)) hterms
      (fun hnil => hne (List.map_eq_nil_iff.1 hnil))
    rw [List.flatMap_map, List.map_map] at hsum
    rw [Chain.node, List.map_map]
    exact hsum
  | product =>
    have hfactors : ∀ piece ∈ pieces.map fun piece => (FactorSign.times, piece),
        Derives .power piece.2.1 piece.2.2 :=
      List.forall_mem_map.2 fun piece hpiece => .base (hp piece hpiece)
    have hproduct := Derives.product (.base hf) hfactors
      (fun hnil => hne (List.map_eq_nil_iff.1 hnil))
    rw [List.flatMap_map, List.map_map] at hproduct
    rw [Chain.node, List.map_map]
    exact hproduct

/-- A relation that holds between an expression and the node that its notation is derivable as, if
it does so for the operands. -/
structure Expression.FollowsNotation (allowed : Number → Prop)
    (related : Expression → Node → Prop) : Prop where
  /-- The numbers of some kind. -/
  number : ∀ x, allowed x → Reads .negation x.text.toList (related (.number x))
  /-- Dice. -/
  dice : ∀ set : Dice, set.Expressible → related (.dice set) (.dice set.written)
  /-- Checks. -/
  check : ∀ set : Check, set.dice.Expressible → related (.check set) set.written
  /-- Sums and products. -/
  chain : ∀ (chain : Chain) first rest node nodes, related first node →
    List.Forall₂ related rest nodes →
    related (chain.toExpression (first :: rest)) (chain.node node nodes)
  /-- Powers. -/
  power : ∀ base exponent node other, related base node → related exponent other →
    related (.power base exponent) (.power [node, other])

namespace Expression

variable {allowed : Number → Prop} {fits : Chain → List Expression → Prop}
  {related : Expression → Node → Prop} {expression : Expression}

/-- The notation of an expression is derivable as something that it is related with. -/
theorem Shaped.reads (h : expression.Shaped allowed fits)
    (hfits : ∀ chain operands, fits chain operands → chain.Unnested operands)
    (hrelated : FollowsNotation allowed related) :
    Reads expression.level expression.text.toList (related expression) := by
  induction h with
  | number hx => exact hrelated.number _ hx
  | dice hleaf => exact (reads_dice hleaf).plain.imp fun _ hnode => hnode ▸ hrelated.dice _ hleaf
  | check hleaf => exact (reads_check hleaf).plain.imp fun _ hnode => hnode ▸ hrelated.check _ hleaf
  | @chain chain operands hoperands _ ih =>
    have hunnested := hfits chain operands hoperands
    have hreads : ∀ operand ∈ operands, Reads .negation
        (operandText chain.operation operand.operation? operand.text).toList (related operand) :=
      fun operand hoperand =>
        reads_operandText (ih operand hoperand) (.inl (hunnested.kinds operand hoperand))
    have htwo := hunnested.two
    cases operands with
    | nil => exact absurd htwo (by decide)
    | cons first rest =>
      obtain ⟨⟨tokens, node, hspaced, hnode, hfirst⟩, hrest⟩ := List.forall_mem_cons.1 hreads
      obtain ⟨pieces, hpieces, hnodes, hall⟩ := exists_pieces hrest
      have hne : pieces ≠ [] := by
        rintro rfl
        cases hall
        exact absurd htwo (Nat.not_le.2 Nat.one_lt_two)
      refine ⟨tokens ++ pieces.flatMap fun piece => chain.operation.symbol.toList :: piece.1, _,
        ?_, ?_, hrelated.chain chain first rest node _ hfirst hall⟩
      · have hjoined := hspaced.append hpieces
        rw [← toList_operationText] at hjoined
        cases chain <;> exact hjoined
      · have hwhole := derives_chain chain hnode hnodes hne
        cases chain <;> exact hwhole
  | @power base exponent _ _ _ ihbase ihexponent =>
    obtain ⟨tokens, node, hspaced, hnode, hbase⟩ := reads_operandText ihbase (.inr rfl)
    obtain ⟨tokens', node', hspaced', hnode', hexponent⟩ := reads_operandText ihexponent (.inr rfl)
    have hrest : ∀ piece ∈ [(tokens', node')], Derives .negation piece.1 piece.2 :=
      List.forall_mem_singleton.2 hnode'
    have hpower := Derives.power hnode hrest (List.cons_ne_nil _ _)
    have hsymbol := (Spaced.append (.single ['^']) (hspaced'.blanks_append isBlank_space))
    have hjoined := hspaced.append (hsymbol.blanks_append isBlank_space)
    refine ⟨_, _, ?_, hpower, hrelated.power base exponent node node' hbase hexponent⟩
    rw [Expression.text, toList_operationText, List.flatMap_singleton, List.flatMap_singleton]
    exact hjoined

/-- An expression is derivable as a sum that it is related with. -/
theorem Shaped.reads_sum (h : expression.Shaped allowed fits)
    (hfits : ∀ chain operands, fits chain operands → chain.Unnested operands)
    (hrelated : FollowsNotation allowed related) :
    Reads .sum expression.text.toList (related expression) := by
  obtain ⟨tokens, node, hspaced, hnode, hproperty⟩ := h.reads hfits hrelated
  refine ⟨tokens, node, hspaced, ?_, hproperty⟩
  rw [Expression.level] at hnode
  split at hnode
  · exact derives_sum_of_operation hnode
  · exact .term (.factor (.base hnode))

end Expression

/-! ## Building once more -/

/-- Added terms are built one by one. -/
theorem buildTerms_map_plus {operands : List Expression} {nodes : List Node}
    (h : List.Forall₂ (fun operand node => node.build = operand.rebuild) operands nodes) :
    Node.buildTerms (nodes.map fun node => (.plus, node)) = Expression.rebuildAll operands := by
  induction h with
  | nil => rfl
  | cons hfirst _ ih =>
    rw [List.map_cons, Node.buildTerms, hfirst, ih, Expression.rebuildAll]
    rfl

/-- Multiplied factors are built one by one. -/
theorem buildFactors_map_times {operands : List Expression} {nodes : List Node}
    (h : List.Forall₂ (fun operand node => node.build = operand.rebuild) operands nodes) :
    Node.buildFactors (nodes.map fun node => (.times, node)) = Expression.rebuildAll operands := by
  induction h with
  | nil => rfl
  | cons hfirst _ ih =>
    rw [List.map_cons, Node.buildFactors, hfirst, ih, Expression.rebuildAll]
    rfl

/-- A sum or product is built from its operands. -/
theorem build_chain (chain : Chain) {base : Expression} {operands : List Expression} {first : Node}
    {nodes : List Node} (hbase : first.build = base.rebuild)
    (hrest : List.Forall₂ (fun operand node => node.build = operand.rebuild) operands nodes) :
    (chain.node first nodes).build = (chain.toExpression (base :: operands)).rebuild := by
  rw [Expression.rebuild_toExpression, Expression.rebuildAll]
  cases chain with
  | sum =>
    rw [Chain.node, Node.build, hbase, buildTerms_map_plus hrest]
    cases base.rebuild with
    | error cause => rfl
    | ok base => cases Expression.rebuildAll operands <;> rfl
  | product =>
    rw [Chain.node, Node.build, hbase, buildFactors_map_times hrest]
    cases base.rebuild with
    | error cause => rfl
    | ok base => cases Expression.rebuildAll operands <;> rfl

/-- A power is built from its two operands. -/
theorem build_power {base exponent : Expression} {node other : Node}
    (hbase : node.build = base.rebuild) (hexponent : other.build = exponent.rebuild) :
    (Node.power [node, other]).build = (Expression.power base exponent).rebuild := by
  rw [Node.build, Node.buildAll, Node.buildAll, Node.buildAll, hbase, hexponent,
    Expression.rebuild]
  cases base.rebuild with
  | error cause => rfl
  | ok base => cases exponent.rebuild <;> rfl

namespace Expression

variable {allowed : Number → Prop} {fits : Chain → List Expression → Prop}
  {expression : Expression}

/-- What the notation of an expression is derivable as is built into the expression rebuilt, if its
numbers read back. -/
theorem rebuild_followsNotation
    (hnumber : ∀ x, allowed x → ReadsAs .negation x.text.toList (.ok (.number x))) :
    FollowsNotation allowed fun expression node => node.build = expression.rebuild where
  number := hnumber
  dice _ h := build_writtenDice h
  check _ h := build_writtenCheck h
  chain chain _ _ _ _ hbase hrest := build_chain chain hbase hrest
  power _ _ _ _ hbase hexponent := build_power hbase hexponent

/-- An expression reads at the level of sums as the expression rebuilt. -/
theorem Shaped.readsAs_sum (h : expression.Shaped allowed fits)
    (hfits : ∀ chain operands, fits chain operands → chain.Unnested operands)
    (hnumber : ∀ x, allowed x → ReadsAs .negation x.text.toList (.ok (.number x))) :
    ReadsAs .sum expression.text.toList expression.rebuild :=
  h.reads_sum hfits (rebuild_followsNotation hnumber)

end Expression

end DiceNotation
