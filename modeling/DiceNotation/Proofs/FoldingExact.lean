import DiceNotation.Proofs.ExactArithmetic
import DiceNotation.Proofs.Folding
import DiceNotation.Proofs.SetSize
import Mathlib.Tactic.Ring

/-!
# Folding keeps the exact value

The expression built from an integral text has the exact value of the text, whatever its leaves are
worth and in whatever effects their values come about: constants may be moved past the leaves, but
no leaf is moved past another one. Rolled on any source of dice, the value of the expression is
therefore that of the text calculated operand by operand without folding.
-/

namespace DiceNotation

namespace Chain

/-- Combines two integers. -/
def exact : Chain → Int → Int → Int
  | sum => (· + ·)
  | product => (· * ·)

/-- The exact value of a chain is that of its first value and of the others. -/
theorem operation_exact_cons (chain : Chain) (value : Int) (values : List Int) :
    chain.operation.exact (value :: values) = chain.exact value (chain.operation.exact values) := by
  cases chain with
  | sum => exact List.sum_cons
  | product => exact List.prod_cons

/-- The exact value of two parts of a chain is that of their exact values. -/
theorem operation_exact_append (chain : Chain) (left right : List Int) :
    chain.operation.exact (left ++ right) =
      chain.exact (chain.operation.exact left) (chain.operation.exact right) := by
  cases chain with
  | sum => exact List.sum_append
  | product => exact List.prod_append

/-- Two values can be exchanged. -/
theorem exact_comm (chain : Chain) (a b : Int) : chain.exact a b = chain.exact b a := by
  cases chain with
  | sum => exact Int.add_comm a b
  | product => exact Int.mul_comm a b

/-- Values can be grouped in any way. -/
theorem exact_assoc (chain : Chain) (a b c : Int) :
    chain.exact (chain.exact a b) c = chain.exact a (chain.exact b c) := by
  cases chain with
  | sum => exact Int.add_assoc a b c
  | product => exact Int.mul_assoc a b c

/-- A value can be moved in front of another one. -/
theorem exact_left_comm (chain : Chain) (a b c : Int) :
    chain.exact a (chain.exact b c) = chain.exact b (chain.exact a c) := by
  rw [← exact_assoc, chain.exact_comm a b, exact_assoc]

/-- The identity changes nothing, and an integer that equals it is it. -/
theorem exact_identity {chain : Chain} {residual : Number} {n : Int} (hn : residual.Represents n)
    (h : (residual == chain.identity) = true) (value : Int) : chain.exact n value = value := by
  cases residual with
  | decimal x => exact hn.elim
  | integer z =>
    have hz : z.toInt = n := hn
    cases chain with
    | sum =>
      have hzero : z = 0 := eq_of_beq (α := Int64) h
      rw [← hz, hzero]
      exact Int.zero_add value
    | product =>
      have hone : z = 1 := eq_of_beq (α := Int64) h
      rw [← hz, hone]
      exact Int.one_mul value

/-- A residual is the exact combination of the constants it comes from. -/
theorem represents_residual {chain : Chain} {numbers : List Number}
    (hnumbers : ∀ x ∈ numbers, x.Represents x.exact) {residual : Number}
    (h : numbers.foldlM chain.combine chain.identity = .ok residual) :
    residual.Represents (chain.operation.exact (numbers.map Number.exact)) := by
  have hexact : List.Forall₂ Number.Represents numbers (numbers.map Number.exact) :=
    List.forall₂_map_right_iff.mpr (List.forall₂_same.mpr hnumbers)
  cases chain with
  | sum => exact Operation.represents_of_combine hexact (fun hpower => by cases hpower) h
  | product => exact Operation.represents_of_combine hexact (fun hpower => by cases hpower) h

end Chain

namespace Expression

variable {m : Type → Type} [Monad m] [LawfulMonad m] {leaf : Expression → m Int}

/-- The operands are worth the first one and the others. -/
theorem exactAll_cons (operand : Expression) (operands : List Expression) :
    exactAll leaf (operand :: operands) =
      operand.exact leaf >>= fun value => (value :: ·) <$> exactAll leaf operands := by
  simp only [exactAll, bind_pure_comp]

/-- A number in front of operands is worth itself. -/
theorem exactAll_number_cons (x : Number) (operands : List Expression) :
    exactAll leaf (.number x :: operands) = (x.exact :: ·) <$> exactAll leaf operands := by
  simp only [exactAll_cons, exact, pure_bind]

/-- A number behind operands is worth itself. -/
theorem exactAll_concat (operands : List Expression) (x : Number) :
    exactAll leaf (operands ++ [.number x]) = (· ++ [x.exact]) <$> exactAll leaf operands := by
  induction operands with
  | nil => simp [exactAll, exact]
  | cons operand operands ih =>
    rw [List.cons_append, exactAll_cons, exactAll_cons, ih]
    simp only [map_bind, Functor.map_map, List.cons_append]

/-- A sum or product is worth what its operands are worth together. -/
theorem exact_toExpression (chain : Chain) (operands : List Expression) :
    (chain.toExpression operands).exact leaf =
      chain.operation.exact <$> exactAll leaf operands := by
  cases chain with
  | sum => exact bind_pure_comp _ _
  | product => exact bind_pure_comp _ _

/-- Constants may be combined ahead of the other operands: they have no effects. -/
theorem exactAll_split (chain : Chain) (operands : List Expression) :
    chain.operation.exact <$> exactAll leaf operands =
      (fun values => chain.exact (chain.operation.exact ((constants operands).map Number.exact))
        (chain.operation.exact values)) <$> exactAll leaf (kept operands) := by
  induction operands with
  | nil => cases chain <;> simp [exactAll, Chain.exact, Chain.operation, Operation.exact]
  | cons operand operands ih =>
    cases hnumber : operand.number? with
    | none =>
      rw [constants_cons hnumber, kept_cons hnumber, exactAll_cons, exactAll_cons,
        map_bind, map_bind]
      congr 1
      funext value
      have hvalue := congrArg (chain.exact value <$> ·) ih
      simp only [Functor.map_map] at hvalue ⊢
      simp only [Chain.operation_exact_cons, hvalue, chain.exact_left_comm value]
    | some x =>
      obtain rfl := number?_eq_some_iff.mp hnumber
      rw [exactAll_number_cons, constants_number_cons, kept_number_cons]
      have hvalue := congrArg (chain.exact x.exact <$> ·) ih
      simp only [Functor.map_map] at hvalue ⊢
      simp only [Chain.operation_exact_cons, hvalue, List.map_cons, Chain.exact_assoc]

/-- A number that is an integral expression is of the integer kind. -/
theorem Integral.represents {x : Number} (h : Integral (.number x)) : x.Represents x.exact := by
  cases h
  rfl

/-- A number that represents an integer is integral. -/
theorem integral_of_represents {x : Number} {n : Int} (h : x.Represents n) :
    Integral (.number x) := by
  cases x with
  | integer z => exact .number z
  | decimal y => exact h.elim

/-- A sum or product of integral operands is integral. -/
theorem integral_toExpression {chain : Chain} {operands : List Expression}
    (h : ∀ operand ∈ operands, operand.Integral) : (chain.toExpression operands).Integral := by
  cases chain with
  | sum => exact .sum h
  | product => exact .product h

/-- Folding keeps the exact value of an operation and the order of its leaves. -/
theorem exact_fold (leaf : Expression → m Int) {chain : Chain} {operands : List Expression}
    {folded : Expression} (hoperands : ∀ operand ∈ operands, operand.Integral)
    (h : chain.fold operands = .ok folded) :
    folded.Integral ∧
      folded.exact leaf = chain.operation.exact <$> exactAll leaf operands := by
  obtain ⟨residual, hresidual, hcases⟩ := Chain.fold_cases h
  have hnumbers : ∀ x ∈ constants operands, x.Represents x.exact := by
    intro x hx
    obtain ⟨operand, hmem, hoperand⟩ := List.mem_filterMap.mp hx
    obtain rfl := number?_eq_some_iff.mp hoperand
    exact (hoperands _ hmem).represents
  have hrepresents := Chain.represents_residual hnumbers hresidual
  have hkept : ∀ operand ∈ kept operands, operand.Integral :=
    fun operand hmem => hoperands operand (mem_kept.mp hmem).1
  rw [exactAll_split]
  rcases hcases with ⟨hempty, rfl⟩ | ⟨hidentity, halone⟩ | ⟨hidentity, -, rfl⟩ | ⟨-, -, rfl⟩
  · refine ⟨integral_of_represents hrepresents, ?_⟩
    rw [hempty, exact, hrepresents.exact, exactAll, map_pure]
    cases chain <;> simp [Chain.exact, Chain.operation, Operation.exact]
  · refine ⟨hkept folded (by rw [halone]; exact List.mem_singleton_self folded), ?_⟩
    rw [halone, exactAll_cons, exactAll]
    simp only [Chain.exact_identity hrepresents hidentity]
    cases chain <;> simp [Chain.operation, Operation.exact]
  · refine ⟨integral_toExpression hkept, ?_⟩
    simp only [exact_toExpression, Chain.exact_identity hrepresents hidentity]
  · refine ⟨integral_toExpression ?_, ?_⟩
    · intro operand hmem
      rcases List.mem_append.mp hmem with hmem | hmem
      · exact hkept operand hmem
      · rw [List.mem_singleton.mp hmem]
        exact integral_of_represents hrepresents
    · rw [exact_toExpression, exactAll_concat, Functor.map_map, ← hrepresents.exact]
      congr 1
      funext values
      rw [Chain.operation_exact_append, Chain.exact_comm]
      cases chain <;> simp [Chain.exact, Chain.operation, Operation.exact]

/-- Negating an expression negates its exact value. -/
theorem exact_negate (leaf : Expression → m Int) {body negated : Expression}
    (hbody : body.Integral) (h : body.negate = .ok negated) :
    negated.Integral ∧ negated.exact leaf = (- ·) <$> body.exact leaf := by
  rcases negate_cases h with ⟨x, y, rfl, hy, rfl⟩ | ⟨-, rfl⟩
  · have hrepresents := hbody.represents.negate hy
    refine ⟨integral_of_represents hrepresents, ?_⟩
    simp only [exact, map_pure]
    rw [hrepresents.exact]
  · refine ⟨.product ?_, ?_⟩
    · intro factor hfactor
      rcases List.mem_cons.mp hfactor with rfl | hfactor
      · exact .number (-1)
      · rw [List.mem_singleton.mp hfactor]
        exact hbody
    · rw [exact, exactAll_number_cons, exactAll_cons, exactAll]
      simp [Operation.exact, Number.exact]

/-- A power of an integral expression with a constant natural exponent is integral. -/
theorem exact_raise (leaf : Expression → m Int) {base raised : Expression} {z : Int64}
    (hbase : base.Integral) (hz : 0 ≤ z.toInt)
    (h : raise [base, .number (.integer z)] = .ok raised) :
    raised.Integral ∧
      raised.exact leaf = (fun value => value ^ z.toInt.toNat) <$> base.exact leaf := by
  obtain ⟨b, e, hoperands, hcases⟩ := raise_cases h
  cases hoperands
  rcases hcases with ⟨x, y, r, rfl, hy, hr, rfl⟩ | ⟨-, rfl⟩
  · cases hy
    have hrepresents := hbase.represents.power (y := .integer z) rfl hz hr
    refine ⟨integral_of_represents hrepresents, ?_⟩
    simp only [exact, map_pure]
    rw [hrepresents.exact]
  · refine ⟨.power hbase hz, ?_⟩
    simp [exact, Operation.exact, Number.exact]

end Expression

namespace Node

variable {m : Type → Type} [Monad m] [LawfulMonad m] {written : Node → m Int}
  {leaf : Expression → m Int}

/-- An integer that is built is the literal it is written as. -/
theorem toInt_of_readInt64 {digits : String} {z : Int64}
    (h : Decimal.readInt64 digits.toList = some z) : z.toInt = literal digits := by
  rw [Decimal.readInt64, Option.bind_eq_some_iff] at h
  obtain ⟨n, hn, h⟩ := h
  split at h
  · rename_i hfits
    cases h
    rw [literal, hn, Option.getD_some]
    exact Int64.toInt_ofInt_of_le hfits.1 hfits.2
  · cases h

/-- A whole number is built as the integer that its digits stand for. -/
theorem build_integer {digits : String} {built : Expression}
    (h : (integer digits).build = .ok built) :
    ∃ z, built = .number (.integer z) ∧ z.toInt = literal digits := by
  rw [build] at h
  split at h
  · rename_i z hz
    cases h
    exact ⟨z, rfl, toInt_of_readInt64 hz⟩
  · cases h

/-- Dice are built as dice. -/
theorem build_dice {written : WrittenDice} {built : Expression}
    (h : (dice written).build = .ok built) : ∃ set, built = .dice set := by
  obtain ⟨set, -, h⟩ := bind_eq_ok_iff.mp h
  exact ⟨set, (pure_eq_ok_iff.mp h).symm⟩

/-- A check is built as a check. -/
theorem build_check {written : WrittenDice} {comparison threshold : String} {built : Expression}
    (h : (check written comparison threshold).build = .ok built) : ∃ set, built = .check set := by
  rw [build] at h
  obtain ⟨value, -, h⟩ := bind_eq_ok_iff.mp h
  obtain ⟨condition, -, h⟩ := bind_eq_ok_iff.mp h
  obtain ⟨set, -, h⟩ := bind_eq_ok_iff.mp h
  exact ⟨⟨set, condition⟩, (pure_eq_ok_iff.mp h).symm⟩

/-- A short check is built as a check. -/
theorem build_nb {difficulty : Difficulty} {count : String} {built : Expression}
    (h : (nb difficulty count).build = .ok built) : ∃ set, built = .check set := by
  rw [build] at h
  obtain ⟨value, -, h⟩ := bind_eq_ok_iff.mp h
  obtain ⟨valid, -, h⟩ := bind_eq_ok_iff.mp h
  exact ⟨Check.nb value difficulty.threshold, (pure_eq_ok_iff.mp h).symm⟩

/-- Terms added up one by one are the sum of the terms that are built. -/
theorem exactTerms_eq {rest : List (TermSign × Node)}
    (hrest : ∀ term ∈ rest, ∀ built, term.2.build = .ok built →
      built.Integral ∧ term.2.exact written = built.exact leaf)
    {terms : List Expression} (h : buildTerms rest = .ok terms) :
    (∀ term ∈ terms, term.Integral) ∧ ∀ value, exactTerms written value rest =
      (fun values => value + values.sum) <$> Expression.exactAll leaf terms := by
  induction rest generalizing terms with
  | nil =>
    cases h
    refine ⟨List.forall_mem_nil _, fun value => ?_⟩
    simp [exactTerms, Expression.exactAll]
  | cons first rest ih =>
    obtain ⟨sign, node⟩ := first
    obtain ⟨operand, term, others, hoperand, hterm, hothers, rfl⟩ := buildTerms_cons h
    obtain ⟨hintegral, hexact⟩ := hrest _ List.mem_cons_self operand hoperand
    obtain ⟨ihintegral, ihexact⟩ :=
      ih (fun other hother => hrest other (List.mem_cons_of_mem _ hother)) hothers
    cases sign with
    | plus =>
      cases hterm
      refine ⟨List.forall_mem_cons.mpr ⟨hintegral, ihintegral⟩, fun value => ?_⟩
      dsimp only at hexact
      simp only [exactTerms, Expression.exactAll_cons, hexact, ihexact, map_bind,
        Functor.map_map, List.sum_cons, Int.add_assoc]
    | minus =>
      obtain ⟨hnegated, hvalue⟩ := Expression.exact_negate leaf hintegral hterm
      refine ⟨List.forall_mem_cons.mpr ⟨hnegated, ihintegral⟩, fun value => ?_⟩
      dsimp only at hexact
      simp only [exactTerms, Expression.exactAll_cons, hexact, hvalue, ihexact, map_bind,
        bind_map_left, Functor.map_map, List.sum_cons, Int.sub_eq_add_neg, Int.add_assoc]

/-- Factors multiplied one by one are the product of the factors that are built. -/
theorem exactFactors_eq {rest : List (FactorSign × Node)}
    (hsigns : ∀ factor ∈ rest, factor.1 = .times)
    (hrest : ∀ factor ∈ rest, ∀ built, factor.2.build = .ok built →
      built.Integral ∧ factor.2.exact written = built.exact leaf)
    {factors : List Expression} (h : buildFactors rest = .ok factors) :
    (∀ factor ∈ factors, factor.Integral) ∧ ∀ value, exactFactors written value rest =
      (fun values => value * values.prod) <$> Expression.exactAll leaf factors := by
  induction rest generalizing factors with
  | nil =>
    cases h
    refine ⟨List.forall_mem_nil _, fun value => ?_⟩
    simp [exactFactors, Expression.exactAll]
  | cons first rest ih =>
    obtain ⟨sign, node⟩ := first
    obtain ⟨operand, factor, others, hoperand, hfactor, hothers, rfl⟩ := buildFactors_cons h
    obtain ⟨hintegral, hexact⟩ := hrest _ List.mem_cons_self operand hoperand
    obtain ⟨ihintegral, ihexact⟩ :=
      ih (fun other hother => hsigns other (List.mem_cons_of_mem _ hother))
        (fun other hother => hrest other (List.mem_cons_of_mem _ hother)) hothers
    obtain rfl : sign = .times := hsigns _ List.mem_cons_self
    cases hfactor
    refine ⟨List.forall_mem_cons.mpr ⟨hintegral, ihintegral⟩, fun value => ?_⟩
    dsimp only at hexact
    simp only [exactFactors, Expression.exactAll_cons, hexact, ihexact, map_bind,
      Functor.map_map, List.prod_cons, Int.mul_assoc]

/-- A chain has the exact value of the operation on all operands, if the others are combined with
the value of the first one. -/
theorem exact_bind (chain : Chain) {first : Node} {operand : Expression} {others : List Expression}
    {combined : Int → m Int} (hfirst : first.exact written = operand.exact leaf)
    (hothers : ∀ value, combined value =
      (fun values => chain.exact value (chain.operation.exact values)) <$>
        Expression.exactAll leaf others) :
    (first.exact written >>= combined) =
      chain.operation.exact <$> Expression.exactAll leaf (operand :: others) := by
  rw [Expression.exactAll_cons, hfirst, funext hothers]
  simp only [map_bind, Functor.map_map, Chain.operation_exact_cons]

/-- So it has the exact value of what the operands are folded to, if they are integral. -/
theorem exact_fold_bind {chain : Chain} {first : Node} {operand folded : Expression}
    {others : List Expression} {combined : Int → m Int}
    (hfirst : operand.Integral ∧ first.exact written = operand.exact leaf)
    (hothers : (∀ other ∈ others, other.Integral) ∧ ∀ value, combined value =
      (fun values => chain.exact value (chain.operation.exact values)) <$>
        Expression.exactAll leaf others)
    (h : chain.fold (operand :: others) = .ok folded) :
    folded.Integral ∧ (first.exact written >>= combined) = folded.exact leaf := by
  obtain ⟨hfolded, hvalue⟩ := Expression.exact_fold leaf
    (List.forall_mem_cons.mpr ⟨hfirst.1, hothers.1⟩) h
  exact ⟨hfolded, (exact_bind chain hfirst.2 hothers.2).trans hvalue.symm⟩

/-- The expression built from an integral text is integral and has the exact value of the text,
in any interpretation that gives written leaves what the built ones are worth. -/
theorem Integral.exact_build {node : Node} (leaf : Expression → m Int) (hnode : node.Integral)
    (hleaf : ∀ node built, build node = .ok built → written node = leaf built)
    {built : Expression} (h : node.build = .ok built) :
    built.Integral ∧ node.exact written = built.exact leaf := by
  induction hnode generalizing built with
  | integer digits =>
    obtain ⟨z, rfl, hz⟩ := build_integer h
    exact ⟨.number z, by simp only [exact, Expression.exact, Number.exact, hz]⟩
  | dice set =>
    obtain ⟨leaf', rfl⟩ := build_dice h
    exact ⟨.dice leaf', by simp only [exact, Expression.exact, hleaf _ _ h]⟩
  | check set comparison threshold =>
    obtain ⟨leaf', rfl⟩ := build_check h
    exact ⟨.check leaf', by simp only [exact, Expression.exact, hleaf _ _ h]⟩
  | nb difficulty count =>
    obtain ⟨leaf', rfl⟩ := build_nb h
    exact ⟨.check leaf', by simp only [exact, Expression.exact, hleaf _ _ h]⟩
  | negation hbody ih =>
    rw [build] at h
    obtain ⟨body, hbuilt, h⟩ := bind_eq_ok_iff.mp h
    obtain ⟨hintegral, hexact⟩ := ih hbuilt
    obtain ⟨hnegated, hvalue⟩ := Expression.exact_negate leaf hintegral h
    exact ⟨hnegated, by simp only [exact, hexact, hvalue, bind_pure_comp]⟩
  | power hbase hdigits ih =>
    rw [build, buildAll, buildAll, buildAll] at h
    obtain ⟨operands, hoperands, h⟩ := bind_eq_ok_iff.mp h
    obtain ⟨base, hbuilt, hoperands⟩ := bind_eq_ok_iff.mp hoperands
    obtain ⟨last, hlast, hoperands⟩ := bind_eq_ok_iff.mp hoperands
    obtain ⟨exponent, hexponent, hlast⟩ := bind_eq_ok_iff.mp hlast
    cases hlast
    cases hoperands
    obtain ⟨z, rfl, hz⟩ := build_integer hexponent
    obtain ⟨hintegral, hexact⟩ := ih hbuilt
    obtain ⟨hraised, hvalue⟩ :=
      Expression.exact_raise leaf hintegral (by rw [hz]; exact hdigits) h
    refine ⟨hraised, ?_⟩
    rw [hvalue, hz]
    simp [exact, exactAll, hexact, Operation.exact]
  | product hfirst hsigns hrest ihfirst ihrest =>
    rw [build] at h
    obtain ⟨first, hbuilt, h⟩ := bind_eq_ok_iff.mp h
    obtain ⟨factors, hfactors, h⟩ := bind_eq_ok_iff.mp h
    have hothers := exactFactors_eq hsigns
      (fun factor hfactor built hbuilt => ihrest factor hfactor hbuilt) hfactors
    exact exact_fold_bind (ihfirst hbuilt) hothers (mapError_eq_ok_iff.mp h)
  | sum hfirst hrest ihfirst ihrest =>
    rw [build] at h
    obtain ⟨first, hbuilt, h⟩ := bind_eq_ok_iff.mp h
    obtain ⟨terms, hterms, h⟩ := bind_eq_ok_iff.mp h
    have hothers := exactTerms_eq (fun term hterm built hbuilt => ihrest term hterm hbuilt) hterms
    exact exact_fold_bind (ihfirst hbuilt) hothers (mapError_eq_ok_iff.mp h)

end Node

end DiceNotation
