import DiceNotation.Proofs.BuiltLeaves
import DiceNotation.Proofs.FoldingExact
import DiceNotation.Proofs.Notation.Flattening

/-!
# The meaning of notation

The notation of an expression of integers means what the expression means. It is read as a tree with
the same leaves, and the two have the same exact value, whatever the leaves are worth. They need not
have the same shape: a sum that is a term of a sum stands without parentheses, so its terms are read
as terms of the sum around it, and a negative number is read as the negation of a number.
-/

namespace DiceNotation

open Grammar

/-! ## Assigned values -/

/-- The first of some integers, which is taken away; when none is left, it is zero. -/
def nextInteger : StateM (List Int) Int := fun values => (values.headD 0, values.tail)

/-- The exact value of a written expression of which the leaves, from left to right, are worth some
integers. -/
def Node.exactWith (values : List Int) (node : Node) : Int :=
  ((node.exact fun _ => nextInteger).run values).1

/-- The exact value of an expression of which the leaves, from left to right, are worth some
integers. -/
def Expression.exactWith (values : List Int) (expression : Expression) : Int :=
  ((expression.exact fun _ => nextInteger).run values).1

/-! ## Flattening -/

namespace Expression

variable {m : Type → Type} [Monad m] [LawfulMonad m]

theorem exactAll_append (leaf : Expression → m Int) (operands others : List Expression) :
    exactAll leaf (operands ++ others) =
      exactAll leaf operands >>= fun values => (values ++ ·) <$> exactAll leaf others := by
  induction operands with
  | nil => simp [exactAll]
  | cons operand operands ih =>
    rw [List.cons_append, exactAll_cons, exactAll_cons, ih]
    simp only [map_bind, bind_map_left, bind_assoc, Functor.map_map, List.cons_append]

/-- The operands of an operand of the same kind are worth what the operand is worth. -/
theorem exact_opened (leaf : Expression → m Int) (chain : Chain) (operand : Expression) :
    chain.operation.exact <$> exactAll leaf (chain.opened operand) = operand.exact leaf := by
  rcases chain.opened_cases operand with hopened | ⟨-, hopened⟩
  · rw [← exact_toExpression, ← hopened]
  · rw [hopened, exactAll_cons, exactAll]
    cases chain <;> simp [Chain.operation, Operation.exact]

/-- An operation combines the value of its first operand with that of the operation on the
others. -/
theorem exact_operation_cons (leaf : Expression → m Int) (chain : Chain) (operand : Expression)
    (operands : List Expression) :
    chain.operation.exact <$> exactAll leaf (operand :: operands) =
      operand.exact leaf >>= fun value =>
        chain.exact value <$> (chain.operation.exact <$> exactAll leaf operands) := by
  rw [exactAll_cons]
  simp only [map_bind, Functor.map_map, Chain.operation_exact_cons]

/-- Opening operands of the same kind keeps the exact value of an operation. -/
theorem exact_flatMap_opened (leaf : Expression → m Int) (chain : Chain)
    (operands : List Expression) :
    chain.operation.exact <$> exactAll leaf (operands.flatMap chain.opened) =
      chain.operation.exact <$> exactAll leaf operands := by
  induction operands with
  | nil => rfl
  | cons operand operands ih =>
    rw [exact_operation_cons, ← ih, ← exact_opened leaf chain operand, List.flatMap_cons,
      exactAll_append]
    simp only [map_bind, bind_map_left, Functor.map_map, Chain.operation_exact_append]

theorem exactAll_congr {leaf : Expression → m Int} {operands : List Expression}
    {change : Expression → Expression}
    (h : ∀ operand ∈ operands, (change operand).exact leaf = operand.exact leaf) :
    exactAll leaf (operands.map change) = exactAll leaf operands := by
  induction operands with
  | nil => rfl
  | cons operand operands ih =>
    obtain ⟨hoperand, hothers⟩ := List.forall_mem_cons.1 h
    rw [List.map_cons, exactAll_cons, exactAll_cons, hoperand, ih hothers]

/-- Flattening keeps the exact value. -/
theorem exact_flatten (leaf : Expression → m Int) (expression : Expression) :
    expression.flatten.exact leaf = expression.exact leaf := by
  induction expression using Expression.chain_induction with
  | number x => rfl
  | dice set => rfl
  | check set => rfl
  | chain chain operands ih =>
    rw [flatten_toExpression, exact_toExpression, exact_toExpression, exact_flatMap_opened,
      exactAll_congr ih]
  | power base exponent hbase hexponent => rw [flatten, exact, exact, hbase, hexponent]
  | list entries => rfl
  | commented body before after ih => exact ih

theorem flatMap_leaves_opened (chain : Chain) (operand : Expression) :
    (chain.opened operand).flatMap leaves = operand.leaves := by
  rcases chain.opened_cases operand with hopened | ⟨-, hopened⟩
  · rw [← leaves_toExpression, ← hopened]
  · rw [hopened, List.flatMap_singleton]

/-- Flattening keeps the leaves. -/
theorem leaves_flatten (expression : Expression) :
    expression.flatten.leaves = expression.leaves := by
  induction expression using Expression.chain_induction with
  | number x => rfl
  | dice set => rfl
  | check set => rfl
  | chain chain operands ih =>
    rw [flatten_toExpression, leaves_toExpression, leaves_toExpression, List.flatMap_assoc,
      List.flatMap_map]
    exact List.flatMap_congr fun operand hoperand => by
      rw [flatMap_leaves_opened, ih operand hoperand]
  | power base exponent hbase hexponent => rw [flatten, leaves, leaves, hbase, hexponent]
  | list entries ih =>
    rw [flatten, flattenAll_eq_map, leaves, leaves, leavesOfAll_eq, leavesOfAll_eq,
      List.flatMap_map]
    exact List.flatMap_congr ih
  | commented body before after ih => exact ih

theorem Integral.operands {chain : Chain} {operands : List Expression}
    (h : (chain.toExpression operands).Integral) : ∀ operand ∈ operands, operand.Integral := by
  cases chain with
  | sum =>
    cases h with
    | sum h => exact h
  | product =>
    cases h with
    | product h => exact h

/-- Flattening an integral expression gives an integral one. -/
theorem Integral.flatten {expression : Expression} (h : expression.Integral) :
    expression.flatten.Integral := by
  have hchain : ∀ (chain : Chain) (operands : List Expression),
      (∀ operand ∈ operands, operand.flatten.Integral) →
      (chain.toExpression operands).flatten.Integral := by
    intro chain operands hoperands
    rw [flatten_toExpression]
    refine integral_toExpression (List.forall_mem_flatMap.2 (List.forall_mem_map.2 ?_))
    intro operand hoperand
    rcases chain.opened_cases operand.flatten with hopened | ⟨-, hopened⟩
    · exact Integral.operands (hopened ▸ hoperands operand hoperand)
    · rw [hopened]
      exact List.forall_mem_singleton.2 (hoperands operand hoperand)
  induction h with
  | number z => exact .number z
  | dice set => exact .dice set
  | check set => exact .check set
  | sum _ ih => exact hchain .sum _ ih
  | product _ ih => exact hchain .product _ ih
  | power _ hz ih => exact .power ih hz

end Expression

/-! ## Reading -/

namespace Node

variable {m : Type → Type} [Monad m] [LawfulMonad m] {written : Node → m Int}
  {leaf : Expression → m Int}

/-- A written expression means an expression: it has the same leaves, and the same exact value
whatever the leaves are worth and in whatever effects their values come about. -/
structure Means (node : Node) (expression : Expression) : Prop where
  /-- There are only integers, dice and checks, and every exponent is a natural number. -/
  integral : node.Integral
  /-- The leaves are the same, from left to right. -/
  leaves : List.Forall₂ Becomes node.leaves expression.leaves
  /-- The exact values are the same. -/
  exact : ∀ {m : Type → Type} [Monad m] [LawfulMonad m] (written : Node → m Int)
    (leaf : Expression → m Int),
    (∀ node built, node.build = .ok built → written node = leaf built) →
    node.exact written = expression.exact leaf

/-- A leaf means what it is built into. -/
theorem means_of_build {node : Node} {expression : Expression} (hnode : node.Integral)
    (h : node.build = .ok expression) : node.Means expression where
  integral := hnode
  leaves := node.becomes_leaves h
  exact _ leaf hleaf := (hnode.exact_build leaf hleaf h).2

theorem literal_repr (n : Nat) : literal n.repr = n := by
  rw [literal, Nat.toList_repr, readSigned_toDigits, Option.getD_some]

/-- A written integer means the integer. -/
theorem means_writtenInteger (z : Int64) :
    (writtenInteger z.toInt).Means (.number (.integer z)) := by
  rw [writtenInteger]
  split
  · have habs : (z.toInt.natAbs : Int) = z.toInt := by omega
    refine ⟨.integer _, .nil, fun written leaf _ => ?_⟩
    simp only [exact, Expression.exact, Number.exact, literal_repr, habs]
  · have habs : -(z.toInt.natAbs : Int) = z.toInt := by omega
    refine ⟨.negation (.integer _), .nil, fun written leaf _ => ?_⟩
    simp only [exact, Expression.exact, Number.exact, literal_repr, pure_bind, habs]

/-! ### Operations -/

/-- Terms that are added one by one are worth their sum. -/
theorem exactTerms_map_plus {nodes : List Node} {operands : List Expression}
    (h : List.Forall₂ (fun node operand => node.exact written = operand.exact leaf) nodes operands)
    (value : Int) :
    exactTerms written value (nodes.map fun node => (.plus, node)) =
      (fun values => value + values.sum) <$> Expression.exactAll leaf operands := by
  induction h generalizing value with
  | nil => simp [exactTerms, Expression.exactAll]
  | cons hfirst _ ih =>
    rw [List.map_cons, exactTerms, Expression.exactAll_cons, hfirst]
    simp only [ih, map_bind, Functor.map_map, List.sum_cons, Int.add_assoc]

/-- Factors that are multiplied one by one are worth their product. -/
theorem exactFactors_map_times {nodes : List Node} {operands : List Expression}
    (h : List.Forall₂ (fun node operand => node.exact written = operand.exact leaf) nodes operands)
    (value : Int) :
    exactFactors written value (nodes.map fun node => (.times, node)) =
      (fun values => value * values.prod) <$> Expression.exactAll leaf operands := by
  induction h generalizing value with
  | nil => simp [exactFactors, Expression.exactAll]
  | cons hfirst _ ih =>
    rw [List.map_cons, exactFactors, Expression.exactAll_cons, hfirst]
    simp only [ih, map_bind, Functor.map_map, List.prod_cons, Int.mul_assoc]

/-- A written operation has the exact value of the operation on what its operands mean. -/
theorem exact_node (chain : Chain) {first : Node} {nodes : List Node} {base : Expression}
    {operands : List Expression} (hfirst : first.exact written = base.exact leaf)
    (h : List.Forall₂ (fun node operand => node.exact written = operand.exact leaf) nodes
      operands) :
    (chain.node first nodes).exact written =
      (chain.toExpression (base :: operands)).exact leaf := by
  rw [Expression.exact_toExpression]
  cases chain with
  | sum => exact exact_bind .sum hfirst (exactTerms_map_plus h)
  | product => exact exact_bind .product hfirst (exactFactors_map_times h)

theorem leaves_node (chain : Chain) (first : Node) (nodes : List Node) :
    (chain.node first nodes).leaves = (first :: nodes).flatMap leaves := by
  cases chain with
  | sum => rw [Chain.node, leaves, leavesOfTerms_eq, List.flatMap_map, List.flatMap_cons]
  | product => rw [Chain.node, leaves, leavesOfFactors_eq, List.flatMap_map, List.flatMap_cons]

theorem integral_node (chain : Chain) {first : Node} {nodes : List Node} (hfirst : first.Integral)
    (h : ∀ node ∈ nodes, node.Integral) : (chain.node first nodes).Integral := by
  cases chain with
  | sum => exact .sum hfirst (List.forall_mem_map.2 h)
  | product =>
    exact .product hfirst (List.forall_mem_map.2 fun _ _ => rfl) (List.forall_mem_map.2 h)

/-- A written operation means the operation on what its operands mean. -/
theorem means_node (chain : Chain) {first : Node} {nodes : List Node} {base : Expression}
    {operands : List Expression} (hfirst : first.Means base)
    (h : List.Forall₂ Means nodes operands) :
    (chain.node first nodes).Means (chain.toExpression (base :: operands)) where
  integral := integral_node chain hfirst.integral
    (forall_mem_of_forall₂ h fun _ _ _ hmeans => hmeans.integral)
  leaves := by
    rw [leaves_node, Expression.leaves_toExpression]
    exact List.rel_flatMap (.cons hfirst h) fun _ _ hmeans => hmeans.leaves
  exact written leaf hleaf := exact_node chain (hfirst.exact written leaf hleaf)
    (h.imp fun _ _ hmeans => hmeans.exact written leaf hleaf)

/-- A written power of a literal means the power of what its base means. -/
theorem means_power {node : Node} {base : Expression} {z : Int64} (h : node.Means base)
    (hz : 0 ≤ z.toInt) :
    (power [node, writtenInteger z.toInt]).Means (.power base (.number (.integer z))) := by
  have hinteger := means_writtenInteger z
  rw [writtenInteger, if_pos hz] at hinteger ⊢
  refine ⟨.power h.integral ?_, ?_, fun written leaf hleaf => ?_⟩
  · rw [literal_repr]
    exact Int.natCast_nonneg _
  · rw [leaves, leavesOfAll, leavesOfAll, leavesOfAll, leaves, Expression.leaves]
    exact List.rel_append h.leaves .nil
  · rw [exact, exactAll, exactAll, exactAll, h.exact written leaf hleaf,
      hinteger.exact written leaf hleaf]
    simp only [Expression.exact, bind_assoc, pure_bind]

end Node

namespace Expression

/-- The numbers of a shaped integral expression are integers. -/
theorem Shaped.isInteger {allowed : Number → Prop} {fits : Chain → List Expression → Prop}
    {expression : Expression} (h : expression.Shaped allowed fits) (hi : expression.Integral) :
    expression.Shaped (fun x => x.isInteger = true) fits := by
  induction h with
  | number =>
    cases hi
    exact .number rfl
  | dice hleaf => exact .dice hleaf
  | check hleaf => exact .check hleaf
  | chain chain hfits _ ih =>
    exact .chain chain hfits fun operand hoperand =>
      ih operand hoperand (hi.operands operand hoperand)
  | power hnumbers _ _ ihbase ihexponent =>
    cases hi with
    | power hbase _ => exact .power hnumbers (ihbase hbase) (ihexponent (.number _))

/-- The notation of an integral expression is derivable as something that means the expression. A
number is derivable as it is written, so that an exponent is a literal again. -/
theorem means_followsNotation : FollowsNotation (fun x => x.isInteger = true)
    fun expression node => expression.Integral → node.Means expression ∧
      ∀ z, expression = .number (.integer z) → node = writtenInteger z.toInt where
  number x hx := by
    cases x with
    | decimal y => cases hx
    | integer z =>
      refine (reads_integer z).imp fun node hnode _ => ?_
      rw [hnode]
      refine ⟨Node.means_writtenInteger z, fun other hother => ?_⟩
      cases hother
      rfl
  dice set h _ := ⟨Node.means_of_build (.dice _) (build_writtenDice h), nofun⟩
  check set h _ := ⟨Node.means_of_build (.check _ _ _) (build_writtenCheck h), nofun⟩
  chain chain first rest node nodes hfirst hrest hi := by
    obtain ⟨hbase, hothers⟩ := List.forall_mem_cons.1 hi.operands
    refine ⟨Node.means_node chain (hfirst hbase).1 ?_, fun z hz => ?_⟩
    · refine ((List.forall₂_and_left _ _).2 ⟨hothers, hrest⟩).flip.imp fun node operand h => ?_
      exact (h.2 h.1).1
    · cases chain <;> cases hz
  power base exponent node other hbase hexponent hi := by
    cases hi with
    | power hintegral hz =>
      rw [(hexponent (.number _)).2 _ rfl]
      exact ⟨Node.means_power (hbase hintegral).1 hz, nofun⟩

end Expression

/-- The notation of an expression that is built from integers and from dice and checks with positive
numbers means what the expression means. It is read as one entry, a tree with the same leaves from
left to right, and whatever integers are assigned to the leaves, the tree and the expression have
the same exact value. -/
theorem exists_readEntries_text {node : Node} {expression : Expression} (hnode : node.Integral)
    (hpos : ∀ leaf ∈ node.leaves, leaf.Positive) (h : node.build = .ok expression) :
    expression.Integral ∧
      ∃ again, readEntries expression.text = .ok [⟨none, again, none⟩] ∧ again.Integral ∧
        List.Forall₂ Node.Becomes again.leaves expression.leaves ∧
        ∀ values, again.exactWith values = expression.exactWith values := by
  have hintegral : expression.Integral :=
    (hnode.exact_build (m := Id) (fun _ => (0 : Int)) (fun _ _ _ => rfl) h).1
  obtain ⟨hopened, htext⟩ := opened_flatten ((Node.built_of_build h hpos).isInteger hintegral)
  obtain ⟨tokens, again, hspaced, hderives, hmeans⟩ :=
    hopened.reads_sum (fun _ _ hfits => hfits.1) Expression.means_followsNotation
  obtain ⟨hagain, hleaves, hexact⟩ := (hmeans hintegral.flatten).1
  rw [htext] at hspaced
  rw [Expression.leaves_flatten] at hleaves
  refine ⟨hintegral, again, readEntries_of_derivableAs ⟨tokens, hspaced, hderives⟩, hagain, hleaves,
    fun values => ?_⟩
  rw [Node.exactWith, Expression.exactWith, hexact (fun _ => nextInteger) (fun _ => nextInteger)
    (fun _ _ _ => rfl), Expression.exact_flatten]

/-- A difference, in which a sum with a power is a term. -/
theorem exists_readEntries_text_difference :
    let node := Node.sum (.integer "2") [(.minus, .dice ⟨none, "6", none⟩), (.plus,
      .sum (.nb .hard "3") [(.plus, .power [.dice ⟨some "2", "8", none⟩, .integer "2"])])]
    let expression := Expression.sum
      [.product [.number (.integer (-1)), .dice ⟨1, 6, none⟩],
        .sum [.check (.nb 3 6), .power (.dice ⟨2, 8, none⟩) (.number (.integer 2))],
        .number (.integer 2)]
    node.Integral ∧ (∀ leaf ∈ node.leaves, leaf.Positive) ∧ node.build = .ok expression ∧
      ∃ again, readEntries "(-1 * 1d6) + (3d6 >= 6) + (2d8 ^ 2) + 2" = .ok [⟨none, again, none⟩] ∧
        List.Forall₂ Node.Becomes again.leaves expression.leaves ∧
        again.exactWith [4, 1, 9] = 80 := by
  intro node expression
  have hnode : node.Integral := by
    refine .sum (.integer _) (List.forall_mem_cons.2 ⟨.dice _, List.forall_mem_singleton.2 ?_⟩)
    exact .sum (.nb _ _) (List.forall_mem_singleton.2 (.power (.dice _) (by decide)))
  have hpos : ∀ leaf ∈ node.leaves, leaf.Positive := by
    refine List.forall_mem_cons.2 ⟨⟨nofun, by decide, nofun⟩, List.forall_mem_cons.2 ⟨?_,
      List.forall_mem_singleton.2 ⟨?_, by decide, nofun⟩⟩⟩
    · change 0 < literal "3"
      decide
    · rintro _ ⟨⟩
      decide
  have hbuild : node.build = .ok expression := rfl
  have htext : expression.text = "(-1 * 1d6) + (3d6 >= 6) + (2d8 ^ 2) + 2" := by cbv
  have hvalue : expression.exactWith [4, 1, 9] = 80 := by cbv
  obtain ⟨-, again, hread, -, hleaves, hexact⟩ := exists_readEntries_text hnode hpos hbuild
  rw [htext] at hread
  exact ⟨hnode, hpos, hbuild, again, hread, hleaves, (hexact [4, 1, 9]).trans hvalue⟩

end DiceNotation
