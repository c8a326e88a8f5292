import DiceNotation.Proofs.PlainEvaluation

/-!
# Constants that are folded

Building calculates with the constant parts of a text, before any dice are rolled, and in another
order than a plain evaluation does: the constants of a sum or product are combined with each other,
whatever stands between them. So it goes through partial results of its own. If all of these fit, an
integral text whose leaves can be built is built, and otherwise it is refused as an overflow.
-/

namespace DiceNotation

/-! ## Building that overflows exactly if something does not fit -/

/-- Something is built if everything fits, and is refused as an overflow if not. -/
structure Builds {α : Type} (fits : Prop) (building : Except BuildError α) : Prop where
  /-- If everything fits, something is built. -/
  built : fits → ∃ a, building = .ok a
  /-- If not, building overflows. -/
  overflow : ¬ fits → building = .error (.calculation .overflow)

namespace Builds

variable {α β : Type} {fits fits' : Prop} {building : Except BuildError α}

/-- What is built without a condition is built. -/
theorem of_ok {a : α} (h : building = .ok a) : Builds True building :=
  ⟨fun _ => ⟨a, h⟩, fun hnot => absurd trivial hnot⟩

/-- Equivalent conditions decide the same. -/
theorem congr (h : Builds fits building) (hfits : fits' ↔ fits) : Builds fits' building :=
  ⟨fun hall => h.built (hfits.1 hall), fun hnot => h.overflow fun hall => hnot (hfits.2 hall)⟩

/-- The second of two steps is only taken if everything fits in the first. -/
theorem bind {next : α → Except BuildError β} (h : Builds fits building)
    (hnext : ∀ a, building = .ok a → Builds fits' (next a)) :
    Builds (fits ∧ fits') (building >>= next) := by
  by_cases hfits : fits
  · obtain ⟨a, ha⟩ := h.built hfits
    have hsecond := hnext a ha
    rw [ha]
    exact ⟨fun hall => hsecond.built hall.2,
      fun hnot => hsecond.overflow fun hrest => hnot ⟨hfits, hrest⟩⟩
  · rw [h.overflow hfits]
    exact ⟨fun hall => absurd hall.1 hfits, fun _ => rfl⟩

/-- Every item of a list is built if everything fits in all of them. -/
theorem mapM {fits : α → Prop} {f : α → Except BuildError β} {items : List α}
    (h : ∀ a ∈ items, Builds (fits a) (f a)) :
    Builds (∀ a ∈ items, fits a) (items.mapM f) := by
  induction items with
  | nil => exact (of_ok rfl).congr (iff_true_intro (List.forall_mem_nil _))
  | cons a items ih =>
    obtain ⟨ha, hitems⟩ := List.forall_mem_cons.1 h
    rw [List.mapM_cons, List.forall_mem_cons]
    refine ha.bind fun b _ => ((ih hitems).bind fun others _ => of_ok rfl).congr ?_
    exact (and_iff_left trivial).symm

end Builds

/-- A calculation that is a part of building decides what it does. -/
theorem Settles.builds {α : Type} {fits : Prop} {right : α → Prop}
    {calculation : Except ArithmeticError α} (h : Settles fits right calculation) :
    Builds fits (calculated calculation) := by
  constructor
  · intro hfits
    obtain ⟨a, ha, -⟩ := h.result hfits
    exact ⟨a, by rw [ha]; rfl⟩
  · intro hnot
    rw [h.overflow hnot]
    rfl

/-! ## Constant expressions -/

namespace Expression

/-- The exact value of an expression without dice and checks. -/
def constant (expression : Expression) : Option Int := expression.exact fun _ => none

/-- An expression is folded if it has no exact value of its own, except as a number. -/
def Folded (expression : Expression) : Prop :=
  expression.constant = expression.number?.map Number.exact

/-- A number is folded. -/
theorem folded_number (x : Number) : (Expression.number x).Folded := rfl

/-- Where one of some operands has no constant value, they have none together. -/
theorem exactAll_eq_none {operands : List Expression} {operand : Expression}
    (hmem : operand ∈ operands) (h : operand.constant = none) :
    exactAll (fun _ => none) operands = (none : Option (List Int)) := by
  induction operands with
  | nil => cases hmem
  | cons first operands ih =>
    rw [exactAll_cons]
    rcases List.mem_cons.1 hmem with rfl | hmem
    · rw [show operand.exact (fun _ => none) = (none : Option Int) from h]
      rfl
    · rw [ih hmem]
      cases first.exact (fun _ => none : Expression → Option Int) <;> rfl

/-- The constant of a sum or product is calculated from those of its operands. -/
theorem constant_toExpression (chain : Chain) (operands : List Expression) :
    (chain.toExpression operands).constant =
      chain.operation.exact <$> exactAll (fun _ => none) operands :=
  exact_toExpression chain operands

/-- A sum or product is no number. -/
theorem number?_toExpression (chain : Chain) (operands : List Expression) :
    (chain.toExpression operands).number? = none := by
  cases chain <;> rfl

/-- An operation on an operand that is kept is folded. -/
theorem folded_toExpression (chain : Chain) {operands : List Expression} {operand : Expression}
    (hmem : operand ∈ operands) (hfolded : operand.Folded) (h : operand.number? = none) :
    (chain.toExpression operands).Folded := by
  rw [Folded, h] at hfolded
  rw [Folded, constant_toExpression, exactAll_eq_none hmem hfolded, number?_toExpression]
  rfl

/-- Folding folds. -/
theorem folded_fold {chain : Chain} {operands : List Expression} {folded : Expression}
    (hoperands : ∀ operand ∈ operands, operand.Folded) (h : chain.fold operands = .ok folded) :
    folded.Folded := by
  obtain ⟨residual, -, hcases⟩ := Chain.fold_cases h
  rcases hcases with ⟨-, rfl⟩ | ⟨-, halone⟩ | ⟨-, hmany, rfl⟩ | ⟨-, hne, rfl⟩
  · exact folded_number residual
  · have hmem : folded ∈ kept operands := by rw [halone]; exact List.mem_singleton_self folded
    exact hoperands folded (mem_kept.1 hmem).1
  · obtain ⟨operand, hmem⟩ := List.exists_mem_of_length_pos (Nat.lt_of_lt_of_le Nat.two_pos hmany)
    obtain ⟨hoperand, hnumber⟩ := mem_kept.1 hmem
    exact folded_toExpression chain hmem (hoperands operand hoperand) hnumber
  · obtain ⟨operand, hmem⟩ := List.exists_mem_of_ne_nil _ hne
    obtain ⟨hoperand, hnumber⟩ := mem_kept.1 hmem
    exact folded_toExpression chain (List.mem_append_left _ hmem) (hoperands operand hoperand)
      hnumber

/-- The negation of what is folded is folded. -/
theorem folded_negate {body negated : Expression} (hbody : body.Folded)
    (h : body.negate = .ok negated) : negated.Folded := by
  rcases negate_cases h with ⟨x, y, rfl, -, rfl⟩ | ⟨hnumber, rfl⟩
  · exact folded_number y
  · exact folded_toExpression .product
      (List.mem_cons_of_mem _ (List.mem_singleton_self body)) hbody hnumber

/-- A power with an operand that is no number is folded if its operands are. -/
theorem folded_power {base exponent : Expression} (hbase : base.Folded)
    (hexponent : exponent.Folded) (h : base.number? = none ∨ exponent.number? = none) :
    (Expression.power base exponent).Folded := by
  have hnone : base.exact (fun _ => none) = (none : Option Int) ∨
      exponent.exact (fun _ => none) = (none : Option Int) := by
    refine h.imp (fun hnumber => ?_) fun hnumber => ?_
    · rw [Folded, hnumber] at hbase
      exact hbase
    · rw [Folded, hnumber] at hexponent
      exact hexponent
  rw [Folded, constant, exact]
  rcases hnone with hnone | hnone
  · rw [hnone]
    rfl
  · rw [hnone]
    cases base.exact (fun _ => none : Expression → Option Int) <;> rfl

/-- A power that is built of folded operands is folded. -/
theorem folded_raise {operands : List Expression} {raised : Expression}
    (hoperands : ∀ operand ∈ operands, operand.Folded) (h : raise operands = .ok raised) :
    raised.Folded := by
  obtain ⟨base, exponent, rfl, hcases⟩ := raise_cases h
  obtain ⟨hbase, hexponent⟩ := List.forall_mem_cons.1 hoperands
  rcases hcases with ⟨x, y, z, -, -, -, rfl⟩ | ⟨hnumber, rfl⟩
  · exact folded_number z
  · exact folded_power hbase (List.forall_mem_singleton.1 hexponent) hnumber

/-- The inverse of what is folded is folded. -/
theorem folded_invert {body inverted : Expression} (hbody : body.Folded)
    (h : body.invert = .ok inverted) : inverted.Folded := by
  rcases invert_cases h with ⟨x, y, rfl, -, rfl⟩ | ⟨hnumber, rfl⟩
  · exact folded_number y
  · exact folded_power hbody (folded_number _) (.inl hnumber)

/-- Operands behind their signs are folded if a sign leaves what is folded folded. -/
theorem folded_of_signed {β : Type} {sign : β → Expression → Except BuildError Expression}
    (hsign : ∀ mark body signed, body.Folded → sign mark body = .ok signed → signed.Folded)
    {rest : List (β × Node)} {operands : List Expression}
    (h : List.Forall₂ (fun (operand : β × Node) signed =>
      ∃ body, Expression.Folded body ∧ sign operand.1 body = .ok signed) rest operands) :
    ∀ operand ∈ operands, operand.Folded := by
  intro operand hmem
  obtain ⟨_, -, body, hbody, hoperand⟩ := exists_of_forall₂_of_mem h.flip hmem
  exact hsign _ body operand hbody hoperand

/-! ## Operations on constants -/

/-- The constants among some integral operands represent their exact values. -/
theorem represents_constants {operands : List Expression}
    (h : ∀ operand ∈ operands, operand.Integral ∧ operand.Folded) :
    List.Forall₂ Number.Represents (constants operands) (operands.filterMap constant) := by
  induction operands with
  | nil => exact .nil
  | cons operand operands ih =>
    obtain ⟨⟨hintegral, hfolded⟩, hrest⟩ := List.forall_mem_cons.1 h
    cases hnumber : operand.number? with
    | none =>
      rw [Folded, hnumber] at hfolded
      rw [constants_cons hnumber, List.filterMap_cons_none hfolded]
      exact ih hrest
    | some x =>
      obtain rfl := number?_eq_some_iff.1 hnumber
      rw [constants_number_cons, List.filterMap_cons_some (folded_number x)]
      exact .cons hintegral.represents (ih hrest)

/-- Operands are folded if the running results of their constants fit. -/
theorem builds_fold (chain : Chain) {operands : List Expression}
    (h : ∀ operand ∈ operands, operand.Integral ∧ operand.Folded) :
    Builds (∀ z ∈ chain.operation.partials (operands.filterMap constant), Number.Fits z)
      (calculated (chain.fold operands)) := by
  have hnumbers := represents_constants h
  have hsettles : Settles
      (∀ z ∈ chain.operation.partials (operands.filterMap constant), Number.Fits z)
      (Number.Represents · (chain.operation.exact (operands.filterMap constant)))
      ((constants operands).foldlM chain.combine chain.identity) := by
    cases chain with
    | sum => exact Operation.settles_combine hnumbers fun hsum => by cases hsum
    | product => exact Operation.settles_combine hnumbers fun hproduct => by cases hproduct
  have hfold : Settles
      (∀ z ∈ chain.operation.partials (operands.filterMap constant), Number.Fits z)
      (fun _ => True) (chain.fold operands) := by
    rw [Chain.fold_eq]
    exact hsettles.bind_pure fun _ _ => trivial
  exact hfold.builds

/-- A constant is negated if the result fits, and anything else always. -/
theorem builds_negate {body : Expression} (hintegral : body.Integral) (hfolded : body.Folded) :
    Builds (∀ z ∈ (body.constant.map (- ·)).toList, Number.Fits z) body.negate := by
  cases hnumber : body.number? with
  | none =>
    obtain ⟨negated, hnegated⟩ : ∃ negated, body.negate = .ok negated := by
      cases body with
      | number x => cases hnumber
      | _ => exact ⟨_, rfl⟩
    rw [Folded, hnumber] at hfolded
    rw [hfolded]
    exact (Builds.of_ok hnegated).congr (iff_true_intro (List.forall_mem_nil _))
  | some x =>
    obtain rfl := number?_eq_some_iff.1 hnumber
    have hnegate : x.negate = Number.ofInt (-x.exact) := by
      obtain ⟨z, rfl, -⟩ := hintegral.represents.exists_integer
      rfl
    have hsettles := (Number.settles_ofInt (-x.exact)).builds
    rw [folded_number, negate, hnegate]
    refine (hsettles.bind fun y _ => Builds.of_ok rfl).congr ?_
    exact List.forall_mem_singleton.trans (and_iff_left trivial).symm

/-- A constant is raised to a natural power if the result fits, and anything else always. -/
theorem builds_raise {base : Expression} {z : Int64} (hintegral : base.Integral)
    (hfolded : base.Folded) (hz : 0 ≤ z.toInt) :
    Builds (∀ w ∈ (base.constant.map (· ^ z.toInt.toNat)).toList, Number.Fits w)
      (raise [base, .number (.integer z)]) := by
  cases hnumber : base.number? with
  | none =>
    obtain ⟨raised, hraised⟩ : ∃ raised, raise [base, .number (.integer z)] = .ok raised := by
      cases base with
      | number x => cases hnumber
      | _ => exact ⟨_, rfl⟩
    rw [Folded, hnumber] at hfolded
    rw [hfolded]
    exact (Builds.of_ok hraised).congr (iff_true_intro (List.forall_mem_nil _))
  | some x =>
    obtain rfl := number?_eq_some_iff.1 hnumber
    have hpower : x.power (.integer z) = Number.ofInt (x.exact ^ z.toInt.toNat) :=
      hintegral.represents.power_eq (y := .integer z) rfl hz
    have hsettles := (Number.settles_ofInt (x.exact ^ z.toInt.toNat)).builds
    rw [folded_number, raise, hpower]
    refine (hsettles.bind fun y _ => Builds.of_ok rfl).congr ?_
    exact List.forall_mem_singleton.trans (and_iff_left trivial).symm

end Expression

/-! ## Constant parts of a text -/

/-- A term behind its sign. -/
def TermSign.apply : TermSign → Node → Node
  | .plus, node => node
  | .minus, node => .negation node

namespace Node

open Decimal

/-- What is built is folded. -/
theorem folded_of_build {node : Node} {built : Expression} (h : node.build = .ok built) :
    built.Folded := by
  refine build_induction (fun _ built => built.Folded) (fun _ _ _ => Expression.folded_number _)
    (fun _ _ _ => Expression.folded_number _) (fun _ _ _ => rfl) ?_ ?_ ?_ ?_ ?_ ?_ node h
  · intro written comparison threshold built hbuild
    obtain ⟨set, rfl⟩ := build_check hbuild
    rfl
  · intro difficulty count built hbuild
    obtain ⟨set, rfl⟩ := build_nb hbuild
    rfl
  · exact fun body operand negated hbody => Expression.folded_negate hbody
  · intro nodes operands raised hoperands hraise
    refine Expression.folded_raise (fun operand hmem => ?_) hraise
    obtain ⟨_, -, hfolded⟩ := exists_of_forall₂_of_mem hoperands.flip hmem
    exact hfolded
  · intro first rest operand factors folded hfirst hrest hfold
    refine Expression.folded_fold
      (List.forall_mem_cons.2 ⟨hfirst, Expression.folded_of_signed ?_ hrest⟩) hfold
    intro sign body signed hbody hsign
    cases sign with
    | times =>
      cases hsign
      exact hbody
    | _ => exact Expression.folded_invert hbody hsign
  · intro first rest operand terms folded hfirst hrest hfold
    refine Expression.folded_fold
      (List.forall_mem_cons.2 ⟨hfirst, Expression.folded_of_signed ?_ hrest⟩) hfold
    intro sign body signed hbody hsign
    cases sign with
    | plus =>
      cases hsign
      exact hbody
    | minus => exact Expression.folded_negate hbody hsign

/-- The exact value of a written expression without dice and checks. -/
def constant (node : Node) : Option Int := node.exact fun _ => none

mutual

/-- The partial results of building a written expression exactly: those of the operands, and then
those of the operation on the constants among them. -/
def constantPartials : Node → List Int
  | integer _ => []
  | decimal _ => []
  | dice _ => []
  | check _ _ _ => []
  | nb _ _ => []
  | negation body => body.constantPartials ++ (negation body).constant.toList
  | power operands => constantPartialsOfAll operands ++ (power operands).constant.toList
  | product first rest => first.constantPartials ++ constantPartialsOfFactors rest ++
    Operation.product.partials ((first :: rest.map Prod.snd).filterMap constant)
  | sum first rest => first.constantPartials ++ constantPartialsOfTerms rest ++
    Operation.sum.partials
      ((first :: rest.map fun term => term.1.apply term.2).filterMap constant)

/-- The partial results of building several written expressions. -/
def constantPartialsOfAll : List Node → List Int
  | [] => []
  | node :: nodes => node.constantPartials ++ constantPartialsOfAll nodes

/-- The partial results of building factors. -/
def constantPartialsOfFactors : List (FactorSign × Node) → List Int
  | [] => []
  | (_, node) :: rest => node.constantPartials ++ constantPartialsOfFactors rest

/-- The partial results of building terms, with those of negating the subtracted ones. -/
def constantPartialsOfTerms : List (TermSign × Node) → List Int
  | [] => []
  | (.plus, node) :: rest => node.constantPartials ++ constantPartialsOfTerms rest
  | (.minus, node) :: rest => node.constantPartials ++ (negation node).constant.toList ++
    constantPartialsOfTerms rest

end

/-- The partial results of factors do not depend on their signs. -/
theorem constantPartialsOfFactors_eq (rest : List (FactorSign × Node)) :
    constantPartialsOfFactors rest = (rest.map Prod.snd).flatMap constantPartials := by
  induction rest with
  | nil => rfl
  | cons factor rest ih => rw [constantPartialsOfFactors, ih, List.map_cons, List.flatMap_cons]

/-- A subtracted term is a negation. -/
theorem constantPartialsOfTerms_eq (rest : List (TermSign × Node)) :
    constantPartialsOfTerms rest =
      (rest.map fun term => term.1.apply term.2).flatMap constantPartials := by
  induction rest with
  | nil => rfl
  | cons term rest ih =>
    obtain ⟨sign, node⟩ := term
    cases sign with
    | plus => rw [constantPartialsOfTerms, ih, List.map_cons, List.flatMap_cons, TermSign.apply]
    | minus =>
      rw [constantPartialsOfTerms, ih, List.map_cons, List.flatMap_cons, TermSign.apply,
        constantPartials]

/-- A sum is built of its terms, and a subtracted term is a negation. -/
theorem build_sum_eq (first : Node) (rest : List (TermSign × Node)) :
    (sum first rest).build =
      (first :: rest.map fun term => term.1.apply term.2).mapM build >>= fun operands =>
        calculated (Chain.sum.fold operands) := by
  have hterms : buildTerms rest = (rest.map fun term => term.1.apply term.2).mapM build := by
    rw [buildTerms_eq_mapM, List.mapM_map]
    congr 1
    funext term
    obtain ⟨sign, node⟩ := term
    cases sign with
    | plus => exact bind_pure node.build
    | minus => rfl
  rw [build, hterms, List.mapM_cons]
  simp only [bind_assoc, pure_bind]

/-- A product without divisors is built of its factors. -/
theorem build_product_eq {first : Node} {rest : List (FactorSign × Node)}
    (hsigns : ∀ factor ∈ rest, factor.1 = .times) :
    (product first rest).build =
      (first :: rest.map Prod.snd).mapM build >>= fun operands =>
        calculated (Chain.product.fold operands) := by
  have hfactors : buildFactors rest = (rest.map Prod.snd).mapM build := by
    have htimes : rest.map (fun factor => (FactorSign.times, factor.2)) = rest := by
      refine (List.map_congr_left fun factor hfactor => ?_).trans (List.map_id _)
      rw [← hsigns factor hfactor]
      rfl
    rw [← htimes, buildFactors_eq_mapM, List.mapM_map, List.map_map, List.mapM_map]
    congr 1
    funext factor
    exact bind_pure factor.2.build
  rw [build, hfactors, List.mapM_cons]
  simp only [bind_assoc, pure_bind]

/-- What is built from an integral text is integral, and has the constant value of the text. -/
theorem Integral.constant_build {node : Node} (hnode : node.Integral) {built : Expression}
    (h : node.build = .ok built) : built.Integral ∧ node.constant = built.constant :=
  hnode.exact_build (fun _ => none) (fun _ _ _ => rfl) h

/-- The constant of a negation is the opposite of that of its body. -/
theorem constant_negation (body : Node) :
    (negation body).constant = body.constant.map (- ·) := by
  rw [constant, exact, constant]
  cases body.exact (fun _ => none : Node → Option Int) <;> rfl

/-- A power with a literal exponent is built of its base. -/
theorem build_power_eq {base : Node} {digits : String} {z : Int64}
    (hread : readInt64 digits.toList = some z) :
    (power [base, integer digits]).build =
      base.build >>= fun operand => Expression.raise [operand, .number (.integer z)] := by
  rw [build, buildAll, buildAll, buildAll, build, hread]
  simp only [bind_assoc, pure_bind]
  rfl

/-- The partial results of a power are those of its base, and its constant. -/
theorem constantPartials_power (base : Node) (digits : String) :
    (power [base, integer digits]).constantPartials =
      base.constantPartials ++ (base.constant.map (· ^ (literal digits).toNat)).toList := by
  have hconstant : (power [base, integer digits]).constant =
      base.constant.map (· ^ (literal digits).toNat) := by
    rw [constant, exact, exactAll, exactAll, exactAll, exact, constant]
    cases base.exact (fun _ => none : Node → Option Int) <;> rfl
  rw [constantPartials, hconstant, constantPartialsOfAll, constantPartialsOfAll,
    constantPartialsOfAll, constantPartials, List.append_nil, List.append_nil]

/-- A text that is built if the partial results of its constant parts fit, and is refused as an
overflow if one of them does not. -/
def BuildsByPartials (node : Node) : Prop :=
  Builds (∀ z ∈ node.constantPartials, Number.Fits z) node.build

/-- A negation is built by its partial results if its body is. -/
theorem BuildsByPartials.negation {body : Node} (hbody : body.Integral)
    (h : body.BuildsByPartials) : (negation body).BuildsByPartials := by
  rw [BuildsByPartials, constantPartials, constant_negation, List.forall_mem_append, build]
  refine h.bind fun operand hoperand => ?_
  obtain ⟨hintegral, hconstant⟩ := hbody.constant_build hoperand
  rw [hconstant]
  exact Expression.builds_negate hintegral (folded_of_build hoperand)

/-- A signed term is built by its partial results if the term is. -/
theorem BuildsByPartials.apply {sign : TermSign} {node : Node} (hnode : node.Integral)
    (h : node.BuildsByPartials) : (sign.apply node).BuildsByPartials := by
  cases sign with
  | plus => exact h
  | minus => exact h.negation hnode

/-- A signed integral term is integral. -/
theorem Integral.apply {node : Node} (h : node.Integral) (sign : TermSign) :
    (sign.apply node).Integral := by
  cases sign with
  | plus => exact h
  | minus => exact .negation h

/-- A chain of operands is built if they are and if the running results of their constants fit. -/
theorem builds_chain (chain : Chain) {nodes : List Node}
    (h : ∀ node ∈ nodes, node.Integral ∧ node.BuildsByPartials) :
    Builds (∀ z ∈ nodes.flatMap constantPartials ++
        chain.operation.partials (nodes.filterMap constant), Number.Fits z)
      (nodes.mapM build >>= fun operands => calculated (chain.fold operands)) := by
  have hall : (∀ z ∈ nodes.flatMap constantPartials, Number.Fits z) ↔
      ∀ node ∈ nodes, ∀ z ∈ node.constantPartials, Number.Fits z :=
    List.forall_mem_flatMap
  rw [List.forall_mem_append, hall]
  refine (Builds.mapM fun node hnode => (h node hnode).2).bind fun operands hoperands => ?_
  have hrelated : List.Forall₂ (fun node operand => node.constant = operand.constant ∧
      operand.Integral ∧ operand.Folded) nodes operands :=
    forall₂_of_mapM hoperands fun node hnode operand hbuild => by
      obtain ⟨hintegral, hconstant⟩ := (h node hnode).1.constant_build hbuild
      exact ⟨hconstant, hintegral, folded_of_build hbuild⟩
  have hsame : nodes.map constant = operands.map Expression.constant :=
    map_eq_of_forall₂ (hrelated.imp fun _ _ hnode => hnode.1)
  have hconstants : nodes.filterMap constant = operands.filterMap Expression.constant := by
    have hfilter := congrArg (List.filterMap id) hsame
    rwa [List.filterMap_map, List.filterMap_map] at hfilter
  rw [hconstants]
  refine Expression.builds_fold chain fun operand hmem => ?_
  obtain ⟨_, -, -, hproperties⟩ := exists_of_forall₂_of_mem hrelated.flip hmem
  exact hproperties

/-- If an integral text has a plain value, building it comes down to whether the partial results of
its constant parts fit. -/
theorem Integral.buildsByPartials {node : Node} (hnode : node.Integral) {shown : List ShownDie}
    {value : Int} (h : node.plain.Ends shown value) : node.BuildsByPartials := by
  have hleaf : ∀ {leaf : Node}, leaf.constantPartials = [] → (∃ built, leaf.build = .ok built) →
      leaf.BuildsByPartials := by
    rintro leaf hpartials ⟨built, hbuilt⟩
    refine (Builds.of_ok hbuilt).congr (iff_true_intro ?_)
    rw [hpartials]
    exact List.forall_mem_nil _
  induction hnode generalizing shown value with
  | integer digits =>
    obtain ⟨z, hread, -⟩ := ends_plain_integer h
    exact hleaf rfl ⟨.number (.integer z), by rw [build, hread]⟩
  | dice written => exact hleaf rfl (exists_build_of_ends_roll h)
  | check written comparison threshold => exact hleaf rfl (exists_build_of_ends_roll h)
  | nb difficulty count => exact hleaf rfl (exists_build_of_ends_roll h)
  | negation hbody ih =>
    obtain ⟨x, first, second, hx, -⟩ := Rolling.ends_bind_iff.1 h
    exact (ih hx).negation hbody
  | @power base digits hbase hdigits ih =>
    obtain ⟨values, first, second, hvalues, -⟩ := Rolling.ends_bind_iff.1 h
    obtain ⟨x, others, shown, shown', hx, hothers, -⟩ := ends_plainAll_cons hvalues
    obtain ⟨y, last, shown, shown', hy, -⟩ := ends_plainAll_cons hothers
    obtain ⟨z, hread, -⟩ := ends_plain_integer hy
    have hz : z.toInt = literal digits := toInt_of_readInt64 hread
    rw [BuildsByPartials, constantPartials_power, List.forall_mem_append, build_power_eq hread,
      ← hz]
    refine (ih hx).bind fun operand hoperand => ?_
    obtain ⟨hintegral, hconstant⟩ := hbase.constant_build hoperand
    rw [hconstant]
    exact Expression.builds_raise hintegral (folded_of_build hoperand) (by rw [hz]; exact hdigits)
  | @product first rest hfirst hsigns hrest ihfirst ihrest =>
    obtain ⟨x, shown, shown', hx, hfactors, -⟩ := Rolling.ends_bind_iff.1 h
    rw [BuildsByPartials, constantPartials, constantPartialsOfFactors_eq, ← List.flatMap_cons,
      build_product_eq hsigns]
    refine builds_chain .product (List.forall_mem_cons.2 ⟨⟨hfirst, ihfirst hx⟩, ?_⟩)
    refine List.forall_mem_map.2 fun factor hfactor => ⟨hrest factor hfactor, ?_⟩
    obtain ⟨shown, value, hends⟩ := exists_ends_of_plainFactors hfactors factor hfactor
    exact ihrest factor hfactor hends
  | @sum first rest hfirst hrest ihfirst ihrest =>
    obtain ⟨x, shown, shown', hx, hterms, -⟩ := Rolling.ends_bind_iff.1 h
    rw [BuildsByPartials, constantPartials, constantPartialsOfTerms_eq, ← List.flatMap_cons,
      build_sum_eq]
    refine builds_chain .sum (List.forall_mem_cons.2 ⟨⟨hfirst, ihfirst hx⟩, ?_⟩)
    refine List.forall_mem_map.2 fun term hterm => ⟨(hrest term hterm).apply term.1, ?_⟩
    obtain ⟨shown, value, hends⟩ := exists_ends_of_plainTerms hterms term hterm
    exact (ihrest term hterm hends).apply (hrest term hterm)

end Node

end DiceNotation
