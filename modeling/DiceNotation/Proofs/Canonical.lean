import DiceNotation.Proofs.BuiltLeaves
import DiceNotation.Proofs.IntegerPowers
import DiceNotation.Proofs.Notation.Decimals

/-!
# The form of what is built

Whatever is written, what is built from it has one form. A sum or product has at least two operands,
of which only the last may be a number, and then one that changes something. The negation of what is
no number is the exception: it is a product with -1 in front. A power has an operand that is no
number, every number is finite, and there are no lists and no comments inside.
-/

namespace DiceNotation

open Decimal

/-! ## Numbers -/

/-- An integer result is finite. -/
theorem isFinite_of_ofInt {z : Int} {x : Number} (h : Number.ofInt z = .ok x) : x.IsFinite := by
  rw [Number.ofInt] at h
  split at h
  · cases h
    trivial
  · cases h

/-- A decimal result that is not refused is finite. -/
theorem isFinite_of_ofFloat {x : Float} {y : Number} (h : Number.ofFloat x = .ok y) :
    y.IsFinite := by
  rw [Number.ofFloat] at h
  split at h
  · cases h
  · rename_i hnan
    split at h
    · cases h
    · rename_i hinf
      cases h
      change x.toModel.unpack.isFinite = true
      have hnan' : ¬ x.toModel.unpack.isNaN = true := hnan
      have hinf' : ¬ x.toModel.unpack.isInf = true := hinf
      cases hunpack : x.toModel.unpack with
      | notANumber => exact absurd (by rw [hunpack]; rfl) hnan'
      | infinity sign => exact absurd (by rw [hunpack]; rfl) hinf'
      | _ => rfl

/-- Combining numbers gives a finite number. -/
theorem isFinite_of_combine {chain : Chain} {x y z : Number} (h : chain.combine x y = .ok z) :
    z.IsFinite := by
  cases chain <;> cases x <;> cases y <;>
    first | exact isFinite_of_ofInt h | exact isFinite_of_ofFloat h

/-- A quotient is finite. -/
theorem isFinite_of_divide {x y z : Number} (h : x.divide y = .ok z) : z.IsFinite := by
  rw [Number.divide] at h
  split at h
  · cases h
  · exact isFinite_of_ofFloat h

/-- A power of integers is finite. -/
theorem isFinite_of_integerPower {base : Int} {exponent : Nat} {z : Number}
    (h : Number.integerPower base exponent = .ok z) : z.IsFinite := by
  rw [Number.integerPower_eq] at h
  exact isFinite_of_ofInt h

/-- A power of numbers is finite. -/
theorem isFinite_of_power {x y z : Number} (h : x.power y = .ok z) : z.IsFinite := by
  unfold Number.power at h
  split at h
  · cases h
  · split at h
    · split at h
      · exact isFinite_of_integerPower h
      · exact isFinite_of_ofFloat h
    · exact isFinite_of_ofFloat h

/-- The negation of a finite number is finite. -/
theorem isFinite_of_negate {x y : Number} (hx : x.IsFinite) (h : x.negate = .ok y) :
    y.IsFinite := by
  cases x with
  | integer z => exact isFinite_of_ofInt h
  | decimal x =>
    cases h
    obtain ⟨m, e, hmagnitude⟩ := exists_magnitude hx
    exact isFinite_neg hmagnitude

/-- The residual of a sum or product is finite. -/
theorem isFinite_residual {chain : Chain} {numbers : List Number} {residual : Number}
    (h : numbers.foldlM chain.combine chain.identity = .ok residual) : residual.IsFinite := by
  have hstart : ∀ start : Number, start.IsFinite →
      numbers.foldlM chain.combine start = .ok residual → residual.IsFinite := by
    clear h
    induction numbers with
    | nil =>
      intro start hstart h
      cases h
      exact hstart
    | cons x numbers ih =>
      intro start _ h
      rw [List.foldlM_cons] at h
      obtain ⟨next, hnext, h⟩ := bind_eq_ok_iff.1 h
      exact ih next (isFinite_of_combine hnext) h
  exact hstart chain.identity (by cases chain <;> trivial) h

/-! ## Operands -/

/-- Operands of which only the last may be a number, and then not the one that changes nothing. -/
structure Chain.Settled (chain : Chain) (operands : List Expression) : Prop where
  /-- The operands before the last are no numbers. -/
  others : ∀ operand ∈ operands.dropLast, operand.number? = none
  /-- A number at the end changes something. -/
  last : ∀ x, operands.getLast? = some (.number x) → (x == chain.identity) = false

/-- Among settled operands, every number changes something. -/
theorem Chain.Settled.changes {chain : Chain} {operands : List Expression}
    (h : chain.Settled operands) {x : Number} (hx : .number x ∈ operands) :
    (x == chain.identity) = false := by
  have hne : operands ≠ [] := List.ne_nil_of_mem hx
  have hlast : operands.getLast? = some (operands.getLast hne) :=
    List.getLast?_eq_getLast_of_ne_nil hne
  rw [← List.dropLast_concat_getLast hne] at hx
  rcases List.mem_append.1 hx with hfront | hend
  · have hnone := h.others _ hfront
    cases hnone
  · rw [← List.mem_singleton.1 hend] at hlast
    exact h.last x hlast

/-- The operands that are kept are settled by themselves. -/
theorem Chain.settled_kept (chain : Chain) (operands : List Expression) :
    chain.Settled (Expression.kept operands) := by
  refine ⟨fun operand hmem => ?_, fun x hlast => ?_⟩
  · exact (Expression.mem_kept.1 (List.mem_of_mem_dropLast hmem)).2
  · have hnone := (Expression.mem_kept.1 (List.mem_of_getLast? hlast)).2
    cases hnone

/-- The operands that are kept are settled with a number behind them that changes something. -/
theorem Chain.settled_kept_number {chain : Chain} {residual : Number}
    (h : (residual == chain.identity) = false) (operands : List Expression) :
    chain.Settled (Expression.kept operands ++ [.number residual]) := by
  refine ⟨fun operand hmem => ?_, fun x hlast => ?_⟩
  · rw [List.dropLast_concat] at hmem
    exact (Expression.mem_kept.1 hmem).2
  · rw [List.getLast?_concat] at hlast
    cases hlast
    exact h

namespace Expression

/-! ## Parts -/

mutual

/-- An expression and all expressions in it. -/
def parts : Expression → List Expression
  | number x => [number x]
  | dice set => [dice set]
  | check set => [check set]
  | sum terms => sum terms :: partsOfAll terms
  | product factors => product factors :: partsOfAll factors
  | power base exponent => power base exponent :: (base.parts ++ exponent.parts)
  | list entries => list entries :: partsOfAll entries
  | commented body before after => commented body before after :: body.parts

/-- Several expressions and all expressions in them. -/
def partsOfAll : List Expression → List Expression
  | [] => []
  | operand :: operands => operand.parts ++ partsOfAll operands

end

/-- The parts of several expressions are the parts of each of them. -/
theorem partsOfAll_eq (operands : List Expression) :
    partsOfAll operands = operands.flatMap parts := by
  induction operands with
  | nil => rfl
  | cons operand operands ih => rw [partsOfAll, ih, List.flatMap_cons]

/-- The parts of a sum or product are itself and the parts of its operands. -/
theorem parts_toExpression (chain : Chain) (operands : List Expression) :
    (chain.toExpression operands).parts =
      chain.toExpression operands :: operands.flatMap parts := by
  rw [← partsOfAll_eq]
  cases chain <;> rfl

/-- The form of what is built, at the top: nothing is left to fold or to calculate, and the negation
of what is no number stands as a product with -1 in front. -/
def Formed : Expression → Prop
  | number x => x.IsFinite
  | dice _ => True
  | check _ => True
  | sum terms => 2 ≤ terms.length ∧ Chain.sum.Settled terms
  | product factors => 2 ≤ factors.length ∧
    (Chain.product.Settled factors ∨
      ∃ body, factors = [number (.integer (-1)), body] ∧ body.number? = none)
  | power base exponent => base.number? = none ∨ exponent.number? = none
  | list _ => False
  | commented _ _ _ => False

/-- Expressions of which every part has the form of what is built. -/
def Canonical (expression : Expression) : Prop := ∀ part ∈ expression.parts, part.Formed

namespace Canonical

/-- A finite number has the form of what is built. -/
theorem of_number {x : Number} (h : x.IsFinite) : (Expression.number x).Canonical :=
  List.forall_mem_singleton.2 h

/-- A sum or product has the form if itself is formed and its operands have it. -/
theorem chain_iff {chain : Chain} {operands : List Expression} :
    (chain.toExpression operands).Canonical ↔
      (chain.toExpression operands).Formed ∧ ∀ operand ∈ operands, operand.Canonical := by
  rw [Canonical, parts_toExpression, List.forall_mem_cons, List.forall_mem_flatMap]
  rfl

/-- A power has the form if one operand is no number and both have it. -/
theorem power_iff {base exponent : Expression} :
    (Expression.power base exponent).Canonical ↔
      (base.number? = none ∨ exponent.number? = none) ∧ base.Canonical ∧ exponent.Canonical := by
  rw [Canonical, parts, List.forall_mem_cons, List.forall_mem_append]
  rfl

/-- Two operands or more in which nothing is left to fold make a sum or product of the form. -/
theorem of_settled {chain : Chain} {operands : List Expression} (htwo : 2 ≤ operands.length)
    (hsettled : chain.Settled operands) (ho : ∀ operand ∈ operands, operand.Canonical) :
    (chain.toExpression operands).Canonical := by
  refine chain_iff.2 ⟨?_, ho⟩
  cases chain with
  | sum => exact ⟨htwo, hsettled⟩
  | product => exact ⟨htwo, .inl hsettled⟩

/-- Folding keeps the form. -/
theorem fold {chain : Chain} {operands : List Expression} {folded : Expression}
    (ho : ∀ operand ∈ operands, operand.Canonical) (h : chain.fold operands = .ok folded) :
    folded.Canonical := by
  have hkept : ∀ operand ∈ kept operands, operand.Canonical :=
    fun operand hmem => ho operand (mem_kept.1 hmem).1
  obtain ⟨residual, hresidual, hcases⟩ := Chain.fold_cases h
  have hnumber : (Expression.number residual).Canonical := of_number (isFinite_residual hresidual)
  rcases hcases with ⟨-, rfl⟩ | ⟨-, hsingle⟩ | ⟨-, htwo, rfl⟩ | ⟨hchanges, hne, rfl⟩
  · exact hnumber
  · exact hkept folded (by rw [hsingle]; exact List.mem_singleton_self folded)
  · exact of_settled htwo (chain.settled_kept operands) hkept
  · have htwo : 2 ≤ (kept operands ++ [Expression.number residual]).length := by
      have hlength := List.length_pos_of_ne_nil hne
      rw [List.length_append, List.length_singleton]
      omega
    exact of_settled htwo (Chain.settled_kept_number hchanges operands)
      (List.forall_mem_append.2 ⟨hkept, List.forall_mem_singleton.2 hnumber⟩)

/-- Negating keeps the form, in which a product with -1 in front has a place of its own. -/
theorem negate {body negated : Expression} (hb : body.Canonical)
    (h : body.negate = .ok negated) : negated.Canonical := by
  rcases negate_cases h with ⟨x, y, rfl, hy, rfl⟩ | ⟨hnone, rfl⟩
  · have hx : x.IsFinite := hb _ (List.mem_singleton_self _)
    exact of_number (isFinite_of_negate hx hy)
  · have hoperands : ∀ operand ∈ [Expression.number (.integer (-1)), body], operand.Canonical :=
      List.forall_mem_cons.2 ⟨of_number trivial, List.forall_mem_singleton.2 hb⟩
    exact (@chain_iff .product _).2 ⟨⟨Nat.le_refl 2, .inr ⟨body, rfl, hnone⟩⟩, hoperands⟩

/-- The inverse of an expression of the form has it. -/
theorem invert {body inverted : Expression} (hb : body.Canonical)
    (h : body.invert = .ok inverted) : inverted.Canonical := by
  rcases invert_cases h with ⟨x, y, rfl, hy, rfl⟩ | ⟨hnone, rfl⟩
  · exact of_number (isFinite_of_divide hy)
  · exact power_iff.2 ⟨.inl hnone, hb, of_number trivial⟩

/-- A power that is built of operands of the form has it. -/
theorem raise {operands : List Expression} {raised : Expression}
    (ho : ∀ operand ∈ operands, operand.Canonical) (h : Expression.raise operands = .ok raised) :
    raised.Canonical := by
  obtain ⟨base, exponent, rfl, ⟨x, y, z, rfl, rfl, hz, rfl⟩ | ⟨hnone, rfl⟩⟩ := raise_cases h
  · exact of_number (isFinite_of_power hz)
  · obtain ⟨hbase, hexponent⟩ := List.forall_mem_cons.1 ho
    exact power_iff.2 ⟨hnone, hbase, List.forall_mem_singleton.1 hexponent⟩

end Canonical

end Expression

/-! ## What is built -/

/-- Whatever is built has the form, in all of its parts. -/
theorem Node.canonical_of_build (node : Node) {built : Expression} (h : node.build = .ok built) :
    built.Canonical := by
  refine of_build Expression.Canonical (fun _ hfinite => .of_number hfinite) ?_ ?_ ?_ ?_ ?_ ?_
    node h
  · exact fun _ _ => List.forall_mem_singleton.2 trivial
  · exact fun _ _ => List.forall_mem_singleton.2 trivial
  · exact fun _ _ hbody hnegate => hbody.negate hnegate
  · exact fun _ _ hbody hinvert => hbody.invert hinvert
  · exact fun _ _ hoperands hraise => .raise hoperands hraise
  · exact fun _ _ _ hoperands hfold => .fold hoperands hfold

/-- Every part of what is built of a node has the form, and so has every part of each expression of
a text, apart from the comments around it. -/
theorem formed_of_build :
    (∀ (node : Node) (built : Expression), node.build = .ok built →
      ∀ part ∈ built.parts, part.Formed) ∧
    ∀ (entries : List Entry) (expression : Expression),
      Expression.ofEntries entries = .ok expression →
      ∀ entry ∈ expression.entries, ∃ (body : Expression) (before after : Option String),
        entry = body.withComments before after ∧ ∀ part ∈ body.parts, part.Formed := by
  refine ⟨fun node built h => node.canonical_of_build h, fun entries expression h => ?_⟩
  have hall := Expression.forall₂_of_ofEntries h
  refine forall_mem_of_forall₂ hall.flip fun built entry _ hentry => ?_
  obtain ⟨body, hbody, hbuilt⟩ := Entry.exists_of_build hentry
  exact ⟨body, _, _, hbuilt, entry.node.canonical_of_build hbody⟩

/-- The negation in front of `-2d6 - 3 / (nb hard 4) * 2 + 5 - 4` and the subtracted term are
products with -1 in front. The factors are folded into a 6 behind the divisor, and the terms into a
1. -/
theorem formed_of_build_difference :
    let node := Node.sum (.negation (.dice ⟨some "2", "6", none⟩))
      [(.minus, .product (.integer "3") [(.over, .nb .hard "4"), (.times, .integer "2")]),
        (.plus, .integer "5"), (.minus, .integer "4")]
    let quotient := Expression.product
      [.power (.check (.nb 4 6)) (.number (.integer (-1))), .number (.integer 6)]
    let built := Expression.sum
      [.product [.number (.integer (-1)), .dice ⟨2, 6, none⟩],
        .product [.number (.integer (-1)), quotient], .number (.integer 1)]
    let entries := [⟨some "Hits", node, none⟩, ⟨none, .integer "7", none⟩]
    let expressions := [.commented built (some "Hits") none, .number (.integer 7)]
    (node.build = .ok built ∧ quotient ∈ built.parts ∧ ∀ part ∈ built.parts, part.Formed) ∧
      Expression.ofEntries entries = .ok (.list expressions) ∧
      ∀ entry ∈ expressions, ∃ (body : Expression) (before after : Option String),
        entry = body.withComments before after ∧ ∀ part ∈ body.parts, part.Formed := by
  intro node quotient built entries expressions
  have hnode : node.build = .ok built := rfl
  have hentries : Expression.ofEntries entries = .ok (.list expressions) := rfl
  have hquotient : quotient ∈ quotient.parts := List.mem_cons_self
  have hpart : quotient ∈ built.parts := by
    simp [built, Expression.parts, Expression.partsOfAll, hquotient]
  exact ⟨⟨hnode, hpart, formed_of_build.1 node built hnode⟩, hentries,
    formed_of_build.2 entries (.list expressions) hentries⟩

end DiceNotation
