import DiceNotation.Building
import DiceNotation.Proofs.Fallible

/-!
# What folding does

Folding combines the constants among the operands of a sum or product from left to right and keeps
the other operands in their order. The residual stands behind them unless it is the identity, and
an operand that is left alone stands by itself.
-/

namespace DiceNotation

namespace Expression

/-- The number that an expression is, if it is one. -/
def number? : Expression → Option Number
  | number x => some x
  | _ => none

/-- What has no number is no number. -/
theorem number?_eq_none_iff {operand : Expression} :
    operand.number? = none ↔ ∀ x, operand ≠ .number x := by
  cases operand <;> simp [number?]

/-- What has a number is that number. -/
theorem number?_eq_some_iff {operand : Expression} {x : Number} :
    operand.number? = some x ↔ operand = .number x := by
  cases operand <;> simp [number?]

/-- The constants among some operands, in order. -/
def constants (operands : List Expression) : List Number := operands.filterMap number?

/-- The operands that are no constants, in order. -/
def kept (operands : List Expression) : List Expression :=
  operands.filter fun operand => operand.number?.isNone

@[simp] theorem constants_nil : constants [] = [] := rfl

@[simp] theorem kept_nil : kept [] = [] := rfl

@[simp] theorem constants_number_cons (x : Number) (operands : List Expression) :
    constants (.number x :: operands) = x :: constants operands := rfl

@[simp] theorem kept_number_cons (x : Number) (operands : List Expression) :
    kept (.number x :: operands) = kept operands := rfl

/-- What is no number adds nothing to the constants. -/
theorem constants_cons {operand : Expression} (h : operand.number? = none)
    (operands : List Expression) : constants (operand :: operands) = constants operands := by
  rw [constants, List.filterMap_cons_none h, constants]

/-- What is no number is kept. -/
theorem kept_cons {operand : Expression} (h : operand.number? = none)
    (operands : List Expression) :
    kept (operand :: operands) = operand :: kept operands := by
  rw [kept, List.filter_cons_of_pos (by rw [h]; rfl), kept]

/-- The kept operands are those that are no numbers. -/
theorem mem_kept {operand : Expression} {operands : List Expression} :
    operand ∈ kept operands ↔ operand ∈ operands ∧ operand.number? = none := by
  rw [kept, List.mem_filter, Option.isNone_iff_eq_none]

end Expression

namespace Chain

open Expression

/-- The operation that a chain folds. -/
def operation : Chain → Operation
  | sum => .sum
  | product => .product

/-- Partitioning calculates with the constants alone and keeps the other operands. -/
theorem partition_eq (chain : Chain) (residual : Number) (operands : List Expression) :
    chain.partition residual operands = do
      let total ← (constants operands).foldlM chain.combine residual
      return (total, kept operands) := by
  induction operands generalizing residual with
  | nil => rfl
  | cons operand operands ih =>
    by_cases hnumber : operand.number? = none
    · rw [constants_cons hnumber, kept_cons hnumber, partition, ih]
      · cases (constants operands).foldlM chain.combine residual <;> rfl
      · exact number?_eq_none_iff.mp hnumber
    · cases operand with
      | number x =>
        rw [partition, constants_number_cons, List.foldlM_cons, kept_number_cons, bind_assoc]
        congr 1
        funext total
        exact ih total
      | _ => exact absurd rfl hnumber

/-- The operation on the operands that are kept and on a residual that is not the identity. -/
def assemble (chain : Chain) (residual : Number) : List Expression → Expression
  | [] => .number residual
  | [operand] =>
    if residual == chain.identity then operand else chain.toExpression [operand, .number residual]
  | first :: second :: rest =>
    if residual == chain.identity then chain.toExpression (first :: second :: rest)
    else chain.toExpression (first :: second :: rest ++ [.number residual])

/-- Folding assembles what is kept with the combined constants. -/
theorem fold_eq (chain : Chain) (operands : List Expression) :
    chain.fold operands = do
      let residual ← (constants operands).foldlM chain.combine chain.identity
      return chain.assemble residual (kept operands) := by
  rw [fold, partition_eq, bind_assoc]
  congr 1
  funext residual
  rw [pure_bind]
  dsimp only
  rcases kept operands with _ | ⟨first, _ | ⟨second, rest⟩⟩
  · rfl
  all_goals
    rw [assemble]
    cases residual == chain.identity <;> rfl

/-- Everything that folding can result in. -/
theorem fold_cases {chain : Chain} {operands : List Expression} {folded : Expression}
    (h : chain.fold operands = .ok folded) :
    ∃ residual, (constants operands).foldlM chain.combine chain.identity = .ok residual ∧
      ((kept operands = [] ∧ folded = .number residual) ∨
        ((residual == chain.identity) = true ∧ kept operands = [folded]) ∨
        ((residual == chain.identity) = true ∧ 2 ≤ (kept operands).length ∧
          folded = chain.toExpression (kept operands)) ∨
        ((residual == chain.identity) = false ∧ kept operands ≠ [] ∧
          folded = chain.toExpression (kept operands ++ [.number residual]))) := by
  rw [fold_eq] at h
  obtain ⟨residual, hresidual, h⟩ := bind_eq_ok_iff.mp h
  have hfolded := pure_eq_ok_iff.mp h
  refine ⟨residual, hresidual, ?_⟩
  cases hidentity : residual == chain.identity with
  | true =>
    rcases hkept : kept operands with _ | ⟨first, _ | ⟨second, rest⟩⟩
    · rw [hkept] at hfolded
      exact .inl ⟨rfl, hfolded.symm⟩
    · rw [hkept, assemble, if_pos hidentity] at hfolded
      exact .inr (.inl ⟨rfl, by rw [hfolded]⟩)
    · rw [hkept, assemble, if_pos hidentity] at hfolded
      exact .inr (.inr (.inl ⟨rfl, by simp, hfolded.symm⟩))
  | false =>
    have hne : ¬ (residual == chain.identity) = true := by rw [hidentity]; exact Bool.false_ne_true
    rcases hkept : kept operands with _ | ⟨first, _ | ⟨second, rest⟩⟩
    · rw [hkept] at hfolded
      exact .inl ⟨rfl, hfolded.symm⟩
    · rw [hkept, assemble, if_neg hne] at hfolded
      exact .inr (.inr (.inr ⟨rfl, by simp, hfolded.symm⟩))
    · rw [hkept, assemble, if_neg hne] at hfolded
      exact .inr (.inr (.inr ⟨rfl, by simp, hfolded.symm⟩))

end Chain

namespace Expression

/-- A calculation of a number is done at once. -/
theorem exists_of_calculated {calculation : Except ArithmeticError Number} {built : Expression}
    (h : (do return .number (← calculated calculation)) = Except.ok built) :
    ∃ x, calculation = .ok x ∧ built = .number x := by
  obtain ⟨x, hx, h⟩ := bind_eq_ok_iff.mp h
  exact ⟨x, mapError_eq_ok_iff.mp hx, (pure_eq_ok_iff.mp h).symm⟩

/-- A number is negated at once, and anything else is multiplied by -1. -/
theorem negate_cases {body negated : Expression} (h : body.negate = .ok negated) :
    (∃ x y, body = .number x ∧ x.negate = .ok y ∧ negated = .number y) ∨
      (body.number? = none ∧ negated = .product [.number (.integer (-1)), body]) := by
  cases body with
  | number x =>
    obtain ⟨y, hy, hnegated⟩ := exists_of_calculated h
    exact .inl ⟨x, y, rfl, hy, hnegated⟩
  | _ =>
    cases h
    exact .inr ⟨rfl, rfl⟩

/-- A number is inverted at once, and anything else is raised to the power of -1. -/
theorem invert_cases {body inverted : Expression} (h : body.invert = .ok inverted) :
    (∃ x y, body = .number x ∧ Number.one.divide x = .ok y ∧ inverted = .number y) ∨
      (body.number? = none ∧ inverted = .power body (.number (.integer (-1)))) := by
  cases body with
  | number x =>
    obtain ⟨y, hy, hinverted⟩ := exists_of_calculated h
    exact .inl ⟨x, y, rfl, hy, hinverted⟩
  | _ =>
    cases h
    exact .inr ⟨rfl, rfl⟩

/-- A power has two operands, and is calculated at once if both are numbers. -/
theorem raise_cases {operands : List Expression} {raised : Expression}
    (h : raise operands = .ok raised) :
    ∃ base exponent, operands = [base, exponent] ∧
      ((∃ x y z, base = .number x ∧ exponent = .number y ∧ x.power y = .ok z ∧
          raised = .number z) ∨
        ((base.number? = none ∨ exponent.number? = none) ∧ raised = .power base exponent)) := by
  rw [raise.eq_def] at h
  split at h
  · rename_i x y
    obtain ⟨z, hz, hraised⟩ := exists_of_calculated h
    exact ⟨_, _, rfl, .inl ⟨x, y, z, rfl, rfl, hz, hraised⟩⟩
  · rename_i hnumbers
    rcases operands with _ | ⟨base, _ | ⟨exponent, _ | ⟨third, rest⟩⟩⟩
    · cases h
    · cases h
    · cases h
      refine ⟨base, exponent, rfl, .inr ⟨?_, rfl⟩⟩
      cases hbase : base.number? with
      | none => exact .inl rfl
      | some x =>
        cases hexponent : exponent.number? with
        | none => exact .inr rfl
        | some y =>
          rw [number?_eq_some_iff.mp hbase, number?_eq_some_iff.mp hexponent] at hnumbers
          exact absurd rfl (hnumbers x y)
    · cases h

end Expression

/-- A term behind its sign. -/
def TermSign.signed : TermSign → Expression → Except BuildError Expression
  | .plus, operand => .ok operand
  | .minus, operand => operand.negate

/-- A factor behind its sign. -/
def FactorSign.signed : FactorSign → Expression → Except BuildError Expression
  | .times, operand => .ok operand
  | .over, operand => operand.invert

namespace Node

open Decimal

/-- What holds of a written expression if it holds of its operands holds of every one. -/
theorem induction {property : Node → Prop} (integer : ∀ digits, property (.integer digits))
    (decimal : ∀ digits, property (.decimal digits)) (dice : ∀ written, property (.dice written))
    (check : ∀ written comparison threshold, property (.check written comparison threshold))
    (nb : ∀ difficulty count, property (.nb difficulty count))
    (negation : ∀ body, property body → property (.negation body))
    (power : ∀ operands, (∀ operand ∈ operands, property operand) → property (.power operands))
    (product : ∀ first rest, property first → (∀ factor ∈ rest, property factor.2) →
      property (.product first rest))
    (sum : ∀ first rest, property first → (∀ term ∈ rest, property term.2) →
      property (.sum first rest)) (node : Node) : property node :=
  @Node.rec property (fun nodes => ∀ node ∈ nodes, property node)
    (fun rest => ∀ factor ∈ rest, property factor.2) (fun rest => ∀ term ∈ rest, property term.2)
    (fun factor => property factor.2) (fun term => property term.2)
    integer decimal dice check nb negation power product sum
    (List.forall_mem_nil _) (fun _ _ h hs => List.forall_mem_cons.2 ⟨h, hs⟩)
    (List.forall_mem_nil _) (fun _ _ h hs => List.forall_mem_cons.2 ⟨h, hs⟩)
    (List.forall_mem_nil _) (fun _ _ h hs => List.forall_mem_cons.2 ⟨h, hs⟩)
    (fun _ _ h => h) (fun _ _ h => h) node

/-- Operands are built one after another. -/
theorem buildAll_eq_mapM (nodes : List Node) : buildAll nodes = nodes.mapM build := by
  induction nodes with
  | nil => rfl
  | cons node nodes ih => rw [buildAll, ih, List.mapM_cons]

/-- Every term is built and put behind its sign. -/
theorem buildTerms_eq_mapM (rest : List (TermSign × Node)) :
    buildTerms rest = rest.mapM fun term => term.2.build >>= term.1.signed := by
  induction rest with
  | nil => rfl
  | cons term rest ih =>
    obtain ⟨sign, node⟩ := term
    rw [buildTerms, ih, List.mapM_cons, bind_assoc]
    cases sign <;> rfl

/-- Every factor is built and put behind its sign. -/
theorem buildFactors_eq_mapM (rest : List (FactorSign × Node)) :
    buildFactors rest = rest.mapM fun factor => factor.2.build >>= factor.1.signed := by
  induction rest with
  | nil => rfl
  | cons factor rest ih =>
    obtain ⟨sign, node⟩ := factor
    rw [buildFactors, ih, List.mapM_cons, bind_assoc]
    cases sign <;> rfl

/-- The first of some operands is built, put behind its sign, and stands first. -/
theorem exists_of_mapM_signed {σ : Type} {signed : σ → Expression → Except BuildError Expression}
    {sign : σ} {node : Node} {rest : List (σ × Node)} {operands : List Expression}
    (h : ((sign, node) :: rest).mapM (fun other => other.2.build >>= signed other.1) =
      .ok operands) :
    ∃ operand first others, node.build = .ok operand ∧ signed sign operand = .ok first ∧
      rest.mapM (fun other => other.2.build >>= signed other.1) = .ok others ∧
      operands = first :: others := by
  rw [List.mapM_cons] at h
  obtain ⟨first, hfirst, h⟩ := bind_eq_ok_iff.mp h
  obtain ⟨others, hothers, h⟩ := bind_eq_ok_iff.mp h
  obtain ⟨operand, hoperand, hsigned⟩ := bind_eq_ok_iff.mp hfirst
  exact ⟨operand, first, others, hoperand, hsigned, hothers, (pure_eq_ok_iff.mp h).symm⟩

/-- If terms are built, the first one is, and its sign is applied. -/
theorem buildTerms_cons {sign : TermSign} {node : Node} {rest : List (TermSign × Node)}
    {terms : List Expression} (h : buildTerms ((sign, node) :: rest) = .ok terms) :
    ∃ operand term others, node.build = .ok operand ∧
      sign.signed operand = .ok term ∧ buildTerms rest = .ok others ∧ terms = term :: others := by
  simp only [buildTerms_eq_mapM] at h ⊢
  exact exists_of_mapM_signed h

/-- If factors are built, the first one is, and its sign is applied. -/
theorem buildFactors_cons {sign : FactorSign} {node : Node} {rest : List (FactorSign × Node)}
    {factors : List Expression} (h : buildFactors ((sign, node) :: rest) = .ok factors) :
    ∃ operand factor others, node.build = .ok operand ∧ sign.signed operand = .ok factor ∧
      buildFactors rest = .ok others ∧ factors = factor :: others := by
  simp only [buildFactors_eq_mapM] at h ⊢
  exact exists_of_mapM_signed h

/-- Builds a chain of operands, the first of which has no sign. -/
def buildChain {σ : Type} (chain : Chain) (signed : σ → Expression → Except BuildError Expression)
    (first : Node) (rest : List (σ × Node)) : Except BuildError Expression := do
  let operand ← first.build
  let others ← rest.mapM fun other => other.2.build >>= signed other.1
  calculated (chain.fold (operand :: others))

/-- A product is built as the chain of its factors. -/
theorem build_product_eq_chain (first : Node) (rest : List (FactorSign × Node)) :
    (product first rest).build = buildChain .product FactorSign.signed first rest := by
  rw [build, buildFactors_eq_mapM]
  rfl

/-- A sum is built as the chain of its terms. -/
theorem build_sum_eq_chain (first : Node) (rest : List (TermSign × Node)) :
    (sum first rest).build = buildChain .sum TermSign.signed first rest := by
  rw [build, buildTerms_eq_mapM]
  rfl

/-- If a chain is built, its operands are, and what is built from them is folded. -/
theorem exists_of_buildChain {σ : Type} {chain : Chain}
    {signed : σ → Expression → Except BuildError Expression} {first : Node}
    {rest : List (σ × Node)} {built : Expression} {related : Node → Expression → Prop}
    (hfirst : ∀ {built}, first.build = .ok built → related first built)
    (hrest : ∀ other ∈ rest, ∀ {built}, other.2.build = .ok built → related other.2 built)
    (h : buildChain chain signed first rest = .ok built) :
    ∃ operand others, related first operand ∧
      List.Forall₂ (fun other operand =>
        ∃ body, related other.2 body ∧ signed other.1 body = .ok operand) rest others ∧
      chain.fold (operand :: others) = .ok built := by
  obtain ⟨operand, hoperand, h⟩ := bind_eq_ok_iff.mp h
  obtain ⟨others, hothers, hfold⟩ := bind_eq_ok_iff.mp h
  refine ⟨operand, others, hfirst hoperand,
    forall₂_of_mapM hothers fun other hother operand hbuild => ?_, mapError_eq_ok_iff.mp hfold⟩
  obtain ⟨body, hbody, hsigned⟩ := bind_eq_ok_iff.mp hbuild
  exact ⟨body, hrest other hother hbody, hsigned⟩

/-- What relates the leaves with what is built from them, and is kept by the operations on operands,
relates every written expression with what is built from it. -/
theorem build_induction (related : Node → Expression → Prop)
    (integer : ∀ digits z, readInt64 digits.toList = some z →
      related (.integer digits) (.number (.integer z)))
    (decimal : ∀ digits x, readFloat digits.toList = some x →
      related (.decimal digits) (.number (.decimal x)))
    (dice : ∀ written set, written.build = .ok set → related (.dice written) (.dice set))
    (check : ∀ written comparison threshold built,
      (Node.check written comparison threshold).build = .ok built →
      related (.check written comparison threshold) built)
    (nb : ∀ difficulty count built, (Node.nb difficulty count).build = .ok built →
      related (.nb difficulty count) built)
    (negation : ∀ body operand negated, related body operand → operand.negate = .ok negated →
      related (.negation body) negated)
    (power : ∀ nodes operands raised, List.Forall₂ related nodes operands →
      Expression.raise operands = .ok raised → related (.power nodes) raised)
    (product : ∀ first rest operand factors folded, related first operand →
      List.Forall₂ (fun factor signed =>
        ∃ body, related factor.2 body ∧ factor.1.signed body = .ok signed) rest factors →
      Chain.product.fold (operand :: factors) = .ok folded → related (.product first rest) folded)
    (sum : ∀ first rest operand terms folded, related first operand →
      List.Forall₂ (fun term signed =>
        ∃ body, related term.2 body ∧ term.1.signed body = .ok signed) rest terms →
      Chain.sum.fold (operand :: terms) = .ok folded → related (.sum first rest) folded)
    (node : Node) {built : Expression} (h : node.build = .ok built) : related node built := by
  induction node using Node.induction generalizing built with
  | integer digits =>
    rw [build] at h
    split at h
    · rename_i z hread
      cases h
      exact integer digits z hread
    · cases h
  | decimal digits =>
    rw [build] at h
    split at h
    · rename_i x hread
      cases h
      exact decimal digits x hread
    · cases h
  | dice written =>
    rw [build] at h
    obtain ⟨set, hset, h⟩ := bind_eq_ok_iff.mp h
    cases pure_eq_ok_iff.mp h
    exact dice written set hset
  | check written comparison threshold => exact check written comparison threshold built h
  | nb difficulty count => exact nb difficulty count built h
  | negation body ih =>
    rw [build] at h
    obtain ⟨operand, hoperand, hnegate⟩ := bind_eq_ok_iff.mp h
    exact negation body operand built (ih hoperand) hnegate
  | power nodes ih =>
    rw [build, buildAll_eq_mapM] at h
    obtain ⟨operands, hoperands, hraise⟩ := bind_eq_ok_iff.mp h
    exact power nodes operands built
      (forall₂_of_mapM hoperands fun node hnode _ hbuild => ih node hnode hbuild) hraise
  | product first rest hfirst hrest =>
    rw [build_product_eq_chain] at h
    obtain ⟨operand, factors, hoperand, hfactors, hfold⟩ := exists_of_buildChain hfirst hrest h
    exact product first rest operand factors built hoperand hfactors hfold
  | sum first rest hfirst hrest =>
    rw [build_sum_eq_chain] at h
    obtain ⟨operand, terms, hoperand, hterms, hfold⟩ := exists_of_buildChain hfirst hrest h
    exact sum first rest operand terms built hoperand hterms hfold

end Node

/-- The expression of an entry with these comments. -/
def Expression.withComments (body : Expression) : Option String → Option String → Expression
  | none, none => body
  | before, after => .commented body before after

/-- An entry is built of its expression, with trimmed comments around it. -/
theorem Entry.build_eq (entry : Entry) :
    entry.build = entry.node.build >>= fun body =>
      .ok (body.withComments (trimComment entry.before) (trimComment entry.after)) := by
  rw [Entry.build]
  congr 1
  funext body
  rcases trimComment entry.before with _ | before <;>
    rcases trimComment entry.after with _ | after <;> rfl

/-- If an entry is built, its expression is. -/
theorem Entry.exists_of_build {entry : Entry} {expression : Expression}
    (h : entry.build = .ok expression) :
    ∃ body, entry.node.build = .ok body ∧
      expression = body.withComments (trimComment entry.before) (trimComment entry.after) := by
  rw [build_eq] at h
  obtain ⟨body, hbody, h⟩ := bind_eq_ok_iff.mp h
  cases h
  exact ⟨body, hbody, rfl⟩

/-- Entries are built one after another. -/
theorem buildEntries_eq_mapM (entries : List Entry) :
    buildEntries entries = entries.mapM Entry.build := by
  induction entries with
  | nil => rfl
  | cons entry entries ih => rw [buildEntries, ih, List.mapM_cons]

end DiceNotation
