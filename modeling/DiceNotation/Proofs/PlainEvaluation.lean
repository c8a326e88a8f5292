import DiceNotation.Proofs.Endings
import DiceNotation.Proofs.FoldingExact

/-!
# Evaluation without folding

A written expression can also be evaluated plainly, without being built: operand by operand from
left to right, with every literal and every result in the range of 64-bit integers, and dice rolled
where they stand. Where that succeeds, it gives the exact value, and every leaf can be built.
-/

namespace DiceNotation

open Rolling

/-- An integer result, which has to fit. -/
def fitting (n : Int) : Rolling RollError Int :=
  if Number.Fits n then .done n else .fail (.calculation .overflow)

/-- A result that has to fit is given without any die, if it fits. -/
theorem ends_fitting_iff {n result : Int} {shown : List ShownDie} :
    (fitting n).Ends shown result ↔ shown = [] ∧ n = result ∧ Number.Fits n := by
  rw [fitting]
  split
  · rename_i hfits
    exact ends_pure_iff.trans (and_congr_right fun _ => (and_iff_left hfits).symm)
  · rename_i hnot
    exact iff_of_false not_ends_fail fun h => hnot h.2.2

namespace Node

mutual

/-- The value of a written expression of integers, dice and checks, calculated from left to right
without folding. Decimal numbers and divisors are not evaluated. -/
def plain : Node → Rolling RollError Int
  | integer digits =>
    match Decimal.readInt64 digits.toList with
    | some z => return z.toInt
    | none => .fail (.meaningless (.invalidNumber digits))
  | decimal _ => .fail .notEvaluated
  | dice written => (dice written).roll
  | check written comparison threshold => (check written comparison threshold).roll
  | nb difficulty count => (nb difficulty count).roll
  | negation body => do fitting (-(← body.plain))
  | power operands => do fitting (Operation.power.exact (← plainAll operands))
  | product first rest => do plainFactors (← first.plain) rest
  | sum first rest => do plainTerms (← first.plain) rest

/-- The values of written expressions, one after the other. -/
def plainAll : List Node → Rolling RollError (List Int)
  | [] => return []
  | node :: nodes => do
    let value ← node.plain
    return value :: (← plainAll nodes)

/-- The product of a value and the factors behind it, one factor at a time. -/
def plainFactors (value : Int) : List (FactorSign × Node) → Rolling RollError Int
  | [] => return value
  | (.times, node) :: rest => do plainFactors (← fitting (value * (← node.plain))) rest
  | (.over, _) :: _ => .fail .notEvaluated

/-- The sum of a value and the terms behind it, one term at a time. -/
def plainTerms (value : Int) : List (TermSign × Node) → Rolling RollError Int
  | [] => return value
  | (.plus, node) :: rest => do plainTerms (← fitting (value + (← node.plain))) rest
  | (.minus, node) :: rest => do plainTerms (← fitting (value - (← node.plain))) rest

end

/-- A whole number has a plain value if it can be read. -/
theorem ends_plain_integer {digits : String} {shown : List ShownDie} {value : Int}
    (h : (integer digits).plain.Ends shown value) :
    ∃ z, Decimal.readInt64 digits.toList = some z ∧ shown = [] ∧ z.toInt = value := by
  rw [plain] at h
  split at h
  · rename_i z hread
    obtain ⟨hshown, hvalue⟩ := ends_pure_iff.1 h
    exact ⟨z, hread, hshown, hvalue⟩
  · exact absurd h not_ends_fail

/-- The value of a leaf that is rolled is that of the leaf that is built. -/
theorem exists_build_of_ends_roll {leaf : Node} {shown : List ShownDie} {value : Int}
    (h : leaf.roll.Ends shown value) : ∃ built, leaf.build = .ok built := by
  rw [Node.roll] at h
  split at h
  · rename_i built hbuild
    exact ⟨built, hbuild⟩
  · exact absurd h not_ends_fail

/-- Operands have plain values one after another. -/
theorem ends_plainAll_cons {node : Node} {nodes : List Node} {shown : List ShownDie}
    {values : List Int} (h : (plainAll (node :: nodes)).Ends shown values) :
    ∃ value others first second, node.plain.Ends first value ∧
      (plainAll nodes).Ends second others ∧ shown = first ++ second ∧ values = value :: others := by
  rw [plainAll] at h
  obtain ⟨value, first, second, hfirst, hrest, rfl⟩ := ends_bind_iff.1 h
  obtain ⟨others, hothers, rfl⟩ := ends_bind_pure_iff.1 hrest
  exact ⟨value, others, first, second, hfirst, hothers, rfl, rfl⟩

/-- A result that fits is gone on with. -/
theorem ends_of_fitting {node : Node} {f : Int → Int} {next : Int → Rolling RollError Int}
    {shown : List ShownDie} {result : Int}
    (h : (node.plain >>= fun value => fitting (f value) >>= next).Ends shown result) :
    ∃ value first second, node.plain.Ends first value ∧ (next (f value)).Ends second result ∧
      shown = first ++ second := by
  obtain ⟨value, first, rest, hfirst, hrest, rfl⟩ := ends_bind_iff.1 h
  obtain ⟨_, none, second, hfitting, hsecond, rfl⟩ := ends_bind_iff.1 hrest
  obtain ⟨rfl, rfl, -⟩ := ends_fitting_iff.1 hfitting
  exact ⟨value, first, second, hfirst, hsecond, rfl⟩

/-! ## The exact value -/

/-- What is plainly evaluated has its value as the exact one, on the same dice. -/
def PlainIsExact (node : Node) : Prop :=
  ∀ shown value, node.plain.Ends shown value → (node.exact Node.roll).Ends shown value

/-- Operands with plain values have these as their exact ones. -/
theorem ends_exactAll_of_plainAll {nodes : List Node} (h : ∀ node ∈ nodes, node.PlainIsExact)
    {shown : List ShownDie} {values : List Int} (hplain : (plainAll nodes).Ends shown values) :
    (exactAll Node.roll nodes).Ends shown values := by
  induction nodes generalizing shown values with
  | nil => exact hplain
  | cons node nodes ih =>
    obtain ⟨hnode, hnodes⟩ := List.forall_mem_cons.1 h
    obtain ⟨value, others, first, second, hvalue, hothers, rfl, rfl⟩ := ends_plainAll_cons hplain
    exact ends_bind_iff.2 ⟨value, first, second, hnode _ _ hvalue,
      ends_bind_pure_iff.2 ⟨others, ih hnodes hothers, rfl⟩, rfl⟩

/-- Factors that are multiplied plainly, from left to right, have the exact product. -/
theorem ends_exactFactors_of_plainFactors {rest : List (FactorSign × Node)}
    (h : ∀ factor ∈ rest, factor.2.PlainIsExact) {start : Int} {shown : List ShownDie}
    {value : Int} (hplain : (plainFactors start rest).Ends shown value) :
    (exactFactors Node.roll start rest).Ends shown value := by
  induction rest generalizing start shown with
  | nil => exact hplain
  | cons factor rest ih =>
    obtain ⟨sign, node⟩ := factor
    obtain ⟨hnode, hrest⟩ := List.forall_mem_cons.1 h
    cases sign with
    | times =>
      obtain ⟨x, first, second, hx, hnext, rfl⟩ := ends_of_fitting hplain
      exact ends_bind_iff.2 ⟨x, first, second, hnode _ _ hx, ih hrest hnext, rfl⟩
    | _ => exact absurd hplain not_ends_fail

/-- Terms that are added plainly, from left to right, have the exact sum. -/
theorem ends_exactTerms_of_plainTerms {rest : List (TermSign × Node)}
    (h : ∀ term ∈ rest, term.2.PlainIsExact) {start : Int} {shown : List ShownDie}
    {value : Int} (hplain : (plainTerms start rest).Ends shown value) :
    (exactTerms Node.roll start rest).Ends shown value := by
  induction rest generalizing start shown with
  | nil => exact hplain
  | cons term rest ih =>
    obtain ⟨sign, node⟩ := term
    obtain ⟨hnode, hrest⟩ := List.forall_mem_cons.1 h
    cases sign <;>
    · obtain ⟨x, first, second, hx, hnext, rfl⟩ := ends_of_fitting hplain
      exact ends_bind_iff.2 ⟨x, first, second, hnode _ _ hx, ih hrest hnext, rfl⟩

/-- Plain evaluation gives the exact value. -/
theorem plainIsExact (node : Node) : node.PlainIsExact := by
  induction node using Node.induction with
  | integer digits =>
    intro shown value h
    obtain ⟨z, hread, rfl, rfl⟩ := ends_plain_integer h
    rw [exact, ← toInt_of_readInt64 hread]
    exact .done _
  | decimal digits => exact fun shown value h => absurd h not_ends_fail
  | dice written => exact fun shown value h => h
  | check written comparison threshold => exact fun shown value h => h
  | nb difficulty count => exact fun shown value h => h
  | negation body ih =>
    intro shown value h
    obtain ⟨x, first, second, hx, hnegated, rfl⟩ := ends_bind_iff.1 h
    obtain ⟨rfl, rfl, -⟩ := ends_fitting_iff.1 hnegated
    rw [List.append_nil]
    exact ends_bind_pure_iff.2 ⟨x, ih _ _ hx, rfl⟩
  | power operands ih =>
    intro shown value h
    obtain ⟨values, first, second, hvalues, hpower, rfl⟩ := ends_bind_iff.1 h
    obtain ⟨rfl, rfl, -⟩ := ends_fitting_iff.1 hpower
    rw [List.append_nil]
    exact ends_bind_pure_iff.2 ⟨values, ends_exactAll_of_plainAll ih hvalues, rfl⟩
  | product node rest hnode hrest =>
    intro shown value h
    obtain ⟨x, first, second, hx, hfactors, rfl⟩ := ends_bind_iff.1 h
    exact ends_bind_iff.2 ⟨x, first, second, hnode _ _ hx,
      ends_exactFactors_of_plainFactors hrest hfactors, rfl⟩
  | sum node rest hnode hrest =>
    intro shown value h
    obtain ⟨x, first, second, hx, hterms, rfl⟩ := ends_bind_iff.1 h
    exact ends_bind_iff.2 ⟨x, first, second, hnode _ _ hx,
      ends_exactTerms_of_plainTerms hrest hterms, rfl⟩

/-! ## Operands -/

/-- If a product has a plain value, all its factors have one. -/
theorem exists_ends_of_plainFactors {rest : List (FactorSign × Node)} {start : Int}
    {shown : List ShownDie} {value : Int} (h : (plainFactors start rest).Ends shown value) :
    ∀ factor ∈ rest, ∃ shown value, factor.2.plain.Ends shown value := by
  induction rest generalizing start shown with
  | nil => exact List.forall_mem_nil _
  | cons factor rest ih =>
    obtain ⟨sign, node⟩ := factor
    cases sign with
    | times =>
      obtain ⟨x, first, second, hx, hnext, -⟩ := ends_of_fitting h
      exact List.forall_mem_cons.2 ⟨⟨first, x, hx⟩, ih hnext⟩
    | _ => exact absurd h not_ends_fail

/-- If a sum has a plain value, all its terms have one. -/
theorem exists_ends_of_plainTerms {rest : List (TermSign × Node)} {start : Int}
    {shown : List ShownDie} {value : Int} (h : (plainTerms start rest).Ends shown value) :
    ∀ term ∈ rest, ∃ shown value, term.2.plain.Ends shown value := by
  induction rest generalizing start shown with
  | nil => exact List.forall_mem_nil _
  | cons term rest ih =>
    obtain ⟨sign, node⟩ := term
    cases sign <;>
    · obtain ⟨x, first, second, hx, hnext, -⟩ := ends_of_fitting h
      exact List.forall_mem_cons.2 ⟨⟨first, x, hx⟩, ih hnext⟩

end Node

end DiceNotation
