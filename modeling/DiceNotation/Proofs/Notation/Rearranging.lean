import DiceNotation.Proofs.Notation.Flat
import DiceNotation.Proofs.Notation.Spaces

/-!
# Rebuilding moves numbers

Rebuilding an expression never makes its notation heavier. If the weight stays, then no constants
were combined, and all that happened is that the number of a sum or product was moved behind the
other operands. The notation then has the same length, and it is the same notation only if the
number stood there before.
-/

namespace DiceNotation

/-! ## Lists of pairs -/

section Pairs

variable {α β γ : Type} {R : α → β → Prop}

/-- Texts that are equal and are made of pieces of the same lengths have equal pieces. -/
theorem forall₂_eq_of_flatMap_eq {f : α → List γ} {g : β → List γ} {as : List α} {bs : List β}
    (h : List.Forall₂ (fun a b => (g b).length = (f a).length) as bs)
    (heq : bs.flatMap g = as.flatMap f) : List.Forall₂ (fun a b => g b = f a) as bs := by
  induction h with
  | nil => exact .nil
  | cons hlength _ ih =>
    rw [List.flatMap_cons, List.flatMap_cons] at heq
    obtain ⟨hfirst, hrest⟩ := List.append_inj heq hlength
    exact .cons hfirst (ih hrest)

theorem length_flatMap_eq {f : α → List γ} {g : β → List γ} {as : List α} {bs : List β}
    (h : List.Forall₂ (fun a b => (g b).length = (f a).length) as bs) :
    (bs.flatMap g).length = (as.flatMap f).length := by
  induction h with
  | nil => rfl
  | cons hlength _ ih =>
    rw [List.flatMap_cons, List.flatMap_cons, List.length_append, List.length_append, hlength, ih]

/-- Weights that do not grow one by one do not grow in total, and stay in total only if they stay
one by one. -/
theorem sum_le_of_forall₂ {f : α → Nat} {g : β → Nat} {as : List α} {bs : List β}
    (h : List.Forall₂ (fun a b => g b ≤ f a ∧ (g b = f a → R a b)) as bs) :
    (bs.map g).sum ≤ (as.map f).sum ∧
      ((bs.map g).sum = (as.map f).sum → List.Forall₂ R as bs) := by
  induction h with
  | nil => exact ⟨Nat.le_refl _, fun _ => .nil⟩
  | cons hfirst _ ih =>
    obtain ⟨hle, hrel⟩ := hfirst
    obtain ⟨hsum, hrest⟩ := ih
    rw [List.map_cons, List.map_cons, List.sum_cons, List.sum_cons]
    exact ⟨Nat.add_le_add hle hsum, fun heq => .cons (hrel (by omega)) (hrest (by omega))⟩

theorem exists_of_forall₂_append {as : List α} {bs cs : List β}
    (h : List.Forall₂ R as (bs ++ cs)) :
    ∃ front behind, as = front ++ behind ∧ List.Forall₂ R front bs ∧ List.Forall₂ R behind cs :=
  ⟨as.take bs.length, as.drop bs.length, (List.take_append_drop _ _).symm,
    List.forall₂_take_append as bs cs h, List.forall₂_drop_append as bs cs h⟩

/-- Two texts that are cut at different characters differ, if none of them stands in front of the
other cut. -/
theorem append_cons_ne {front behind front' behind' : List γ} {a b : γ} (hab : a ≠ b)
    (ha : a ∉ front') (hb : b ∉ front) : front ++ a :: behind ≠ front' ++ b :: behind' := by
  intro heq
  rcases List.append_eq_append_iff.1 heq with ⟨middle, rfl, hrest⟩ | ⟨middle, rfl, hrest⟩
  · cases middle with
    | nil => exact hab (List.cons.inj hrest).1
    | cons c middle =>
      rw [(List.cons.inj hrest).1] at ha
      exact ha (List.mem_append_right _ List.mem_cons_self)
  · cases middle with
    | nil => exact hab (List.cons.inj hrest).1.symm
    | cons c middle =>
      rw [(List.cons.inj hrest).1] at hb
      exact hb (List.mem_append_right _ List.mem_cons_self)

end Pairs

/-! ## Numbers that stand last -/

namespace Expression

mutual

/-- Whether in every sum and product no operand but the last is a number. -/
def numbersLast : Expression → Bool
  | .number _ => true
  | .dice _ => true
  | .check _ => true
  | .sum terms => (terms.dropLast.all fun term => term.number?.isNone) && allNumbersLast terms
  | .product factors =>
    (factors.dropLast.all fun factor => factor.number?.isNone) && allNumbersLast factors
  | .power base exponent => base.numbersLast && exponent.numbersLast
  | .list entries => allNumbersLast entries
  | .commented body _ _ => body.numbersLast

/-- Whether numbers stand last in all of some expressions. -/
def allNumbersLast : List Expression → Bool
  | [] => true
  | operand :: operands => operand.numbersLast && allNumbersLast operands

end

theorem allNumbersLast_iff {operands : List Expression} :
    allNumbersLast operands = true ↔ ∀ operand ∈ operands, operand.numbersLast = true := by
  induction operands with
  | nil => exact ⟨fun _ => List.forall_mem_nil _, fun _ => rfl⟩
  | cons operand operands ih =>
    rw [allNumbersLast, Bool.and_eq_true, ih, List.forall_mem_cons]

theorem numbersLast_toExpression {chain : Chain} {operands : List Expression} :
    (chain.toExpression operands).numbersLast = true ↔
      (∀ operand ∈ operands.dropLast, operand.number? = none) ∧
        ∀ operand ∈ operands, operand.numbersLast = true := by
  cases chain <;>
    rw [Chain.toExpression, numbersLast, Bool.and_eq_true, allNumbersLast_iff, List.all_eq_true] <;>
    simp only [Option.isNone_iff_eq_none]

/-- Among some operands with a single constant there is one number. -/
theorem exists_of_constants_singleton {operands : List Expression} {x : Number}
    (h : constants operands = [x]) :
    ∃ front behind, operands = front ++ .number x :: behind ∧
      kept operands = front ++ behind := by
  induction operands with
  | nil => cases h
  | cons operand operands ih =>
    cases hnumber : operand.number? with
    | none =>
      rw [constants_cons hnumber] at h
      obtain ⟨front, behind, rfl, hkept⟩ := ih h
      exact ⟨operand :: front, behind, rfl, by rw [kept_cons hnumber, hkept, List.cons_append]⟩
    | some y =>
      rw [number?_eq_some_iff.1 hnumber, constants_number_cons] at h
      obtain ⟨rfl, hnil⟩ := List.cons.inj h
      refine ⟨[], operands, by rw [number?_eq_some_iff.1 hnumber, List.nil_append], ?_⟩
      rw [number?_eq_some_iff.1 hnumber, kept_number_cons, List.nil_append]
      exact kept_eq_self (List.filterMap_eq_nil_iff.1 hnil)

/-- A rebuilt expression has a notation of the same length as its source, and the same notation only
if numbers stand last in the source. -/
structure Aligned (source rebuilt : Expression) : Prop where
  /-- The lengths are the same. -/
  length : rebuilt.text.toList.length = source.text.toList.length
  /-- The same notation needs numbers at the end. -/
  last : rebuilt.text = source.text → source.numbersLast = true

/-- A rebuilt operand is aligned with its source and of the same kind, and a leaf is the same. -/
structure Rearranged (source rebuilt : Expression) : Prop extends source.Aligned rebuilt where
  /-- The kind is the same. -/
  kind : rebuilt.operation? = source.operation?
  /-- Leaves stay as they are. -/
  leaf : source.operation? = none → rebuilt = source

namespace Rearranged

variable {source rebuilt : Expression}

theorem number? (h : source.Rearranged rebuilt) : rebuilt.number? = source.number? := by
  cases hkind : source.operation? with
  | none => rw [h.leaf hkind]
  | some operation =>
    have hrebuilt := h.kind
    rw [hkind] at hrebuilt
    have hnone : ∀ expression : Expression, expression.operation? = some operation →
        expression.number? = none := by
      intro expression heq
      cases expression <;> first | rfl | cases heq
    rw [hnone rebuilt hrebuilt, hnone source hkind]

theorem length_operandText (h : source.Rearranged rebuilt) (around : Operation) :
    (operandText around rebuilt.operation? rebuilt.text).toList.length =
      (operandText around source.operation? source.text).toList.length := by
  have hlength := h.length
  rw [h.kind]
  cases source.operation? with
  | none => exact hlength
  | some operation =>
    rw [operandText, operandText]
    split
    · simp only [String.toList_append, List.length_append, hlength]
    · exact hlength

theorem length_joined (h : source.Rearranged rebuilt) (around : Operation) :
    (rebuilt.joined around).length = (source.joined around).length := by
  rw [joined, joined]
  simp only [List.length_append, h.length_operandText]

/-- The same text of an operand needs numbers at the end of its source. -/
theorem last_of_operandText (h : source.Rearranged rebuilt) {around : Operation}
    (heq : (operandText around rebuilt.operation? rebuilt.text).toList =
      (operandText around source.operation? source.text).toList) :
    source.numbersLast = true := by
  refine h.last ?_
  rw [h.kind] at heq
  cases hown : source.operation? with
  | none =>
    rw [hown] at heq
    exact String.toList_inj.1 heq
  | some operation =>
    rw [hown, operandText, operandText] at heq
    split at heq
    · rw [String.toList_append, String.toList_append, String.toList_append, String.toList_append]
        at heq
      exact String.toList_inj.1 (List.append_cancel_left (List.append_cancel_right heq))
    · exact String.toList_inj.1 heq

theorem last_of_joined (h : source.Rearranged rebuilt) {around : Operation}
    (heq : rebuilt.joined around = source.joined around) : source.numbersLast = true :=
  h.last_of_operandText
    (List.append_cancel_left (List.append_cancel_left (List.append_cancel_left heq)))

end Rearranged

/-- A text whose first word shows that it is no number, by a letter of dice or a parenthesis. -/
def IsMarked (text : List Char) : Prop :=
  ∃ front mark behind, text = front ++ mark :: behind ∧ ' ' ∉ front ∧ mark ∈ ['d', '(']

theorem isMarked_cons (text : List Char) : IsMarked ('(' :: text) :=
  ⟨[], '(', text, rfl, List.not_mem_nil, List.mem_cons_of_mem _ List.mem_cons_self⟩

theorem isMarked_dice (leaf : Dice) : IsMarked leaf.text.toList := by
  have hcount : ' ' ∉ (toString leaf.count).toList := by
    rw [toList_toString]
    intro hmem
    exact absurd (isDigit_of_mem_digits hmem) (by decide)
  obtain ⟨count, sides, modifier⟩ := leaf
  cases modifier with
  | none =>
    refine ⟨(toString count).toList, 'd', (toString sides).toList, ?_, hcount, List.mem_cons_self⟩
    rw [Dice.text, String.toList_append, String.toList_append, List.append_assoc]
    rfl
  | some modifier =>
    refine ⟨(toString count).toList, 'd',
      (toString sides).toList ++ (" ".toList ++ modifier.text.toList), ?_, hcount,
      List.mem_cons_self⟩
    rw [Dice.text]
    simp only [String.toList_append, List.append_assoc]
    rfl

/-- An operation in an operation of another kind is marked by its parentheses. -/
theorem isMarked_operandText {around operation : Operation} (h : operation ≠ around)
    (text : String) : IsMarked (operandText around (some operation) text).toList := by
  rw [operandText, if_pos (.inl h), String.toList_append, String.toList_append, List.append_assoc]
  exact isMarked_cons _

/-- A rebuilt operand that is no number, in an operation of another kind, is marked. -/
theorem Rearranged.isMarked {allowed : Number → Prop} {source rebuilt : Expression}
    (h : source.Rearranged rebuilt) (ho : source.Opened allowed) (hnumber : source.number? = none)
    {around : Operation} (hkind : source.operation? ≠ some around) :
    IsMarked (operandText around rebuilt.operation? rebuilt.text).toList := by
  cases hown : source.operation? with
  | some operation =>
    rw [h.kind, hown]
    rw [hown] at hkind
    exact isMarked_operandText (fun heq => hkind (congrArg some heq)) rebuilt.text
  | none =>
    rw [h.leaf hown, hown]
    cases ho with
    | number => cases hnumber
    | dice => exact isMarked_dice _
    | @check leaf =>
      change IsMarked leaf.text.toList
      rw [Check.text]
      simp only [String.toList_append, List.append_assoc]
      exact isMarked_cons _
    | chain chain => cases chain <;> cases hown
    | power => cases hown

/-- A marked operand does not begin the same text as a number with another operand behind it. -/
theorem joined_append_ne {around : Operation} {marked : Expression}
    (h : IsMarked (operandText around marked.operation? marked.text).toList) (x : Number)
    (second : Expression) (rest rest' : List Char) :
    marked.joined around ++ rest ≠
      (Expression.number x).joined around ++ (second.joined around ++ rest') := by
  obtain ⟨front, mark, behind, htext, hspace, hmark⟩ := h
  intro heq
  rw [joined, joined, joined, htext] at heq
  simp only [List.append_assoc] at heq
  have hwords := List.append_cancel_left (List.append_cancel_left (List.append_cancel_left heq))
  have hx : mark ∉ (operandText around (Expression.number x).operation?
      (Expression.number x).text).toList :=
    x.not_mem_text (List.mem_cons_of_mem _ hmark)
  have hne : mark ≠ ' ' := by
    rintro rfl
    exact absurd hmark (by decide)
  exact append_cons_ne hne hx hspace hwords

/-- Numbers are moved behind the other operands. -/
theorem perm_kept_append (operands : List Expression) :
    (kept operands ++ (constants operands).map Expression.number).Perm operands := by
  induction operands with
  | nil => exact .nil
  | cons operand operands ih =>
    cases hnumber : operand.number? with
    | none =>
      rw [kept_cons hnumber, constants_cons hnumber]
      exact ih.cons operand
    | some x =>
      rw [number?_eq_some_iff.1 hnumber, kept_number_cons, constants_number_cons, List.map_cons]
      exact List.perm_middle.trans (ih.cons (.number x))

/-- Rebuilt operands have texts of the same lengths. -/
theorem forall₂_length_joined {sources others : List Expression}
    (h : List.Forall₂ Rearranged sources others) (around : Operation) :
    List.Forall₂ (fun source other =>
      (other.joined around).length = (source.joined around).length) sources others :=
  h.imp fun _ _ hpair => hpair.length_joined around

/-- Operands that have the same text when they are rebuilt have their numbers at the end. -/
theorem numbersLast_of_flatMap_joined {sources others : List Expression} {around : Operation}
    (h : List.Forall₂ Rearranged sources others)
    (hsame : others.flatMap (joined around) = sources.flatMap (joined around)) :
    ∀ source ∈ sources, source.numbersLast = true := by
  have hjoined := h.mp (fun _ _ => And.intro)
    (forall₂_eq_of_flatMap_eq (forall₂_length_joined h around) hsame)
  exact forall_mem_of_forall₂ hjoined fun _ _ _ hpair => hpair.1.last_of_joined hpair.2

theorem number?_eq_none_of_rearranged {sources others : List Expression}
    (h : List.Forall₂ Rearranged sources others)
    (hothers : ∀ other ∈ others, other.number? = none) :
    ∀ source ∈ sources, source.number? = none :=
  forall_mem_of_forall₂ h fun _ other hother hpair =>
    hpair.number?.symm.trans (hothers other hother)

/-- The only number among rebuilt operands stands where it stood before. -/
theorem exists_of_rearranged_singleton {operands rebuilt : List Expression} {x : Number}
    (h : List.Forall₂ Rearranged operands rebuilt) (hx : constants rebuilt = [x]) :
    ∃ sources others front behind, operands = sources ++ .number x :: others ∧
      kept rebuilt = front ++ behind ∧ List.Forall₂ Rearranged sources front ∧
      List.Forall₂ Rearranged others behind := by
  obtain ⟨front, behind, rfl, hkept⟩ := exists_of_constants_singleton hx
  obtain ⟨sources, tail, rfl, hfront, htail⟩ := exists_of_forall₂_append h
  obtain ⟨source, others, hsource, hbehind, rfl⟩ := List.forall₂_cons_right_iff.1 htail
  obtain rfl := number?_eq_some_iff.1 hsource.number?.symm
  exact ⟨sources, others, front, behind, rfl, hkept, hfront, hbehind⟩

/-- Operands of which at most one is a number, and which have the same text with it moved to the
end, have it there already. -/
theorem last_of_flatMap_joined {allowed : Number → Prop} {chain : Chain}
    {operands rebuilt : List Expression} (hkinds : ∀ operand ∈ operands,
      operand.Opened allowed ∧ operand.operation? ≠ some chain.operation)
    (h : List.Forall₂ Rearranged operands rebuilt) (hone : (constants rebuilt).length ≤ 1)
    (heq : (kept rebuilt ++ (constants rebuilt).map Expression.number).flatMap
      (joined chain.operation) = operands.flatMap (joined chain.operation)) :
    (∀ operand ∈ operands.dropLast, operand.number? = none) ∧
      ∀ operand ∈ operands, operand.numbersLast = true := by
  match hconstants : constants rebuilt with
  | [] =>
    have hkept : ∀ other ∈ rebuilt, other.number? = none := List.filterMap_eq_nil_iff.1 hconstants
    rw [hconstants, List.map_nil, List.append_nil, kept_eq_self hkept] at heq
    exact ⟨fun operand hoperand =>
        number?_eq_none_of_rearranged h hkept operand (List.mem_of_mem_dropLast hoperand),
      numbersLast_of_flatMap_joined h heq⟩
  | [x] =>
    obtain ⟨sources, others, front, behind, rfl, hkept, hfront, hbehind⟩ :=
      exists_of_rearranged_singleton h hconstants
    rw [hconstants, hkept, List.map_singleton] at heq
    have hfree : ∀ other ∈ front, other.number? = none := fun other hother =>
      (mem_kept.1 (hkept ▸ List.mem_append_left behind hother)).2
    rw [List.append_assoc, List.flatMap_append, List.flatMap_append, List.flatMap_append] at heq
    obtain ⟨hsame, hrest⟩ := List.append_inj heq
      (length_flatMap_eq (forall₂_length_joined hfront chain.operation))
    -- An operand behind the number would have to begin like the number.
    cases hbehind with
    | nil =>
      refine ⟨?_, ?_⟩
      · rw [List.dropLast_concat]
        exact number?_eq_none_of_rearranged hfront hfree
      · rw [List.forall_mem_append, List.forall_mem_singleton]
        exact ⟨numbersLast_of_flatMap_joined hfront hsame, rfl⟩
    | @cons second moved _ _ hsecond hmore =>
      rw [List.flatMap_cons, List.flatMap_cons, List.flatMap_cons, List.append_assoc] at hrest
      obtain ⟨hopened, hkind⟩ := hkinds second (by simp)
      have hnumber : second.number? = none := by
        rw [← hsecond.number?]
        exact (mem_kept.1 (hkept ▸ List.mem_append_right front List.mem_cons_self)).2
      exact absurd hrest (joined_append_ne (hsecond.isMarked hopened hnumber hkind) x second _ _)
  | _ :: _ :: _ =>
    rw [hconstants] at hone
    exact absurd hone (by simp)

/-- Operands are rearranged in a sum or product if its number is moved to the end. -/
theorem Rearranged.chain {allowed : Number → Prop} {chain : Chain}
    {operands rebuilt : List Expression} (hunnested : chain.Unnested operands)
    (ho : ∀ operand ∈ operands, operand.Opened allowed)
    (h : List.Forall₂ Rearranged operands rebuilt) (hone : (constants rebuilt).length ≤ 1) :
    (chain.toExpression operands).Rearranged
      (chain.toExpression (kept rebuilt ++ (constants rebuilt).map Expression.number)) := by
  have hperm := perm_kept_append rebuilt
  have htwo := hunnested.two
  have hne : operands ≠ [] := List.ne_nil_of_length_pos (by omega)
  have hne' : kept rebuilt ++ (constants rebuilt).map Expression.number ≠ [] := by
    refine List.ne_nil_of_length_pos ?_
    rw [hperm.length_eq, ← h.length_eq]
    omega
  have hoperands := joined_toExpression chain hne
  have harranged := joined_toExpression chain hne'
  refine ⟨⟨?_, fun htext => ?_⟩, by cases chain <;> rfl,
    fun hkind => by cases chain <;> cases hkind⟩
  · have hlength : ((kept rebuilt ++ (constants rebuilt).map Expression.number).flatMap
        (joined chain.operation)).length = (operands.flatMap (joined chain.operation)).length :=
      (hperm.flatMap_right _).length_eq.trans
        (length_flatMap_eq (forall₂_length_joined h chain.operation))
    rw [← hoperands, ← harranged] at hlength
    simp only [List.length_append] at hlength
    omega
  · rw [htext, hoperands] at harranged
    exact numbersLast_toExpression.2 (last_of_flatMap_joined
      (fun operand hoperand => ⟨ho operand hoperand, hunnested.kinds operand hoperand⟩) h hone
      harranged.symm)

/-- Operands are rearranged in a power if they are so by themselves. -/
theorem Rearranged.power {base base' exponent exponent' : Expression} (hb : base.Rearranged base')
    (he : exponent.Rearranged exponent') :
    (Expression.power base exponent).Rearranged (.power base' exponent') := by
  have hbase := hb.length_operandText .power
  refine ⟨⟨?_, fun htext => ?_⟩, rfl, nofun⟩
  · rw [toList_power, toList_power, List.length_append, List.length_append, hbase,
      he.length_joined]
  · rw [← String.toList_inj, toList_power, toList_power] at htext
    obtain ⟨hfirst, hsecond⟩ := List.append_inj htext hbase
    rw [numbersLast, hb.last_of_operandText hfirst, he.last_of_joined hsecond]
    rfl

theorem Rearranged.refl {expression : Expression} (hlast : expression.numbersLast = true) :
    expression.Rearranged expression :=
  ⟨⟨rfl, fun _ => hlast⟩, rfl, fun _ => rfl⟩

/-- Rebuilt expressions stand in the order of their sources. -/
theorem forall₂_of_rebuildAll {R : Expression → Expression → Prop}
    {operands rebuilt : List Expression} (h : rebuildAll operands = .ok rebuilt)
    (hR : ∀ operand ∈ operands, ∀ again, operand.rebuild = .ok again → R operand again) :
    List.Forall₂ R operands rebuilt := by
  induction operands generalizing rebuilt with
  | nil =>
    cases h
    exact .nil
  | cons operand operands ih =>
    obtain ⟨hoperand, hothers⟩ := List.forall_mem_cons.1 hR
    rw [rebuildAll] at h
    obtain ⟨first, hfirst, h⟩ := bind_eq_ok_iff.1 h
    obtain ⟨others, hrest, h⟩ := bind_eq_ok_iff.1 h
    rw [← pure_eq_ok_iff.1 h]
    exact .cons (hoperand first hfirst) (ih hrest hothers)

/-- Folding rebuilt operands does not make them heavier, and if their weight stays, then their only
number was moved to the end. -/
theorem weight_fold {allowed : Number → Prop} {chain : Chain} {operands rebuilt : List Expression}
    {folded : Expression} (hunnested : chain.Unnested operands)
    (ho : ∀ operand ∈ operands, operand.Opened allowed)
    (hidentity : ∀ x, .number x ∈ operands → chain.combine chain.identity x = .ok x)
    (h : List.Forall₂ (fun operand again => again.weight ≤ operand.weight ∧
      (again.weight = operand.weight → operand.Rearranged again)) operands rebuilt)
    (hfold : chain.fold rebuilt = .ok folded) :
    folded.weight ≤ (chain.toExpression operands).weight ∧
      (folded.weight = (chain.toExpression operands).weight →
        (chain.toExpression operands).Rearranged folded) := by
  obtain ⟨hsum, hrearranged⟩ := sum_le_of_forall₂ h
  have htwo := hunnested.two
  have hlength := h.length_eq
  have hkeptLength := (perm_kept_append rebuilt).length_eq
  rw [List.length_append, List.length_map] at hkeptLength
  have hweights := sum_weight rebuilt
  rw [weight_toExpression chain (List.ne_nil_of_length_pos (by omega))]
  obtain ⟨residual, hresidual, hcases⟩ := Chain.fold_cases hfold
  rcases hcases with ⟨hnil, rfl⟩ | ⟨-, hsingle⟩ | ⟨-, hkept, rfl⟩ | ⟨hchanges, hne, rfl⟩
  · rw [hnil] at hweights hkeptLength
    rw [weight_number]
    simp only [List.map_nil, List.sum_nil, List.length_nil] at hweights hkeptLength
    exact ⟨by omega, fun heq => by omega⟩
  · rw [hsingle] at hweights hkeptLength
    simp only [List.map_cons, List.map_nil, List.sum_cons, List.sum_nil, List.length_cons,
      List.length_nil] at hweights hkeptLength
    exact ⟨by omega, fun heq => by omega⟩
  · rw [weight_toExpression chain (List.ne_nil_of_length_pos (by omega))]
    refine ⟨by omega, fun heq => ?_⟩
    have hconstants : constants rebuilt = [] := List.eq_nil_of_length_eq_zero (by omega)
    have hchain := Rearranged.chain hunnested ho (hrearranged (by omega)) (by rw [hconstants]; simp)
    rwa [hconstants, List.map_nil, List.append_nil] at hchain
  · rw [weight_toExpression chain (List.append_ne_nil_of_left_ne_nil hne _), List.map_append,
      List.sum_append, List.map_singleton, List.sum_singleton, weight_number]
    have hpositive : (constants rebuilt).length ≠ 0 := by
      intro hzero
      rw [List.eq_nil_of_length_eq_zero hzero, List.foldlM_nil] at hresidual
      rw [← pure_eq_ok_iff.1 hresidual, chain.identity_beq] at hchanges
      cases hchanges
    refine ⟨by omega, fun heq => ?_⟩
    have hone : (constants rebuilt).length = 1 := by omega
    have hpairs := hrearranged (by omega)
    obtain ⟨x, hx⟩ := List.length_eq_one_iff.1 hone
    have hmem : Expression.number x ∈ operands := by
      obtain ⟨sources, others, -, -, rfl, -⟩ := exists_of_rearranged_singleton hpairs hx
      exact List.mem_append_right sources List.mem_cons_self
    have hsame : residual = x := by
      rw [hx, List.foldlM_cons, hidentity x hmem] at hresidual
      exact (pure_eq_ok_iff.1 hresidual).symm
    have hchain := Rearranged.chain hunnested ho hpairs (by omega)
    rwa [hx, List.map_singleton, ← hsame] at hchain

/-- Rebuilding an expression does not make it heavier, and if its weight stays, then it is
rearranged. -/
theorem Opened.weight_rebuild {allowed : Number → Prop} {source rebuilt : Expression}
    (h : source.Opened allowed)
    (hcombine : ∀ (chain : Chain) x, allowed x → (x == chain.identity) = false →
      chain.combine chain.identity x = .ok x) (hr : source.rebuild = .ok rebuilt) :
    rebuilt.weight ≤ source.weight ∧
      (rebuilt.weight = source.weight → source.Rearranged rebuilt) := by
  induction h generalizing rebuilt with
  | number =>
    cases hr
    exact ⟨Nat.le_refl _, fun _ => .refl rfl⟩
  | dice =>
    cases hr
    exact ⟨Nat.le_refl _, fun _ => .refl rfl⟩
  | check =>
    cases hr
    exact ⟨Nat.le_refl _, fun _ => .refl rfl⟩
  | @chain chain operands hfits hoperands ih =>
    obtain ⟨hunnested, heffective⟩ := hfits
    rw [rebuild_toExpression] at hr
    obtain ⟨others, hothers, hfold⟩ := bind_eq_ok_iff.1 hr
    have hidentity : ∀ x, .number x ∈ operands → chain.combine chain.identity x = .ok x :=
      fun x hx => hcombine chain x (hoperands _ hx).allowed_number (heffective.changes x hx)
    exact weight_fold hunnested hoperands hidentity
      (forall₂_of_rebuildAll hothers fun operand hoperand _ => ih operand hoperand)
      (mapError_eq_ok_iff.1 hfold)
  | @power base exponent hnumbers hbase hexponent ihbase ihexponent =>
    rw [rebuild] at hr
    obtain ⟨base', hbase', hr⟩ := bind_eq_ok_iff.1 hr
    obtain ⟨exponent', hexponent', hr⟩ := bind_eq_ok_iff.1 hr
    obtain ⟨hble, hb⟩ := ihbase hbase'
    obtain ⟨hele, he⟩ := ihexponent hexponent'
    have hbtwo := two_le_weight base
    have hetwo := two_le_weight exponent
    rw [weight_power]
    obtain ⟨_, _, hpair, ⟨x, y, z, rfl, rfl, -, rfl⟩ | ⟨-, rfl⟩⟩ := raise_cases hr
    · rw [weight_number]
      exact ⟨by omega, fun heq => by omega⟩
    · cases hpair
      rw [weight_power]
      exact ⟨by omega, fun heq => .power (hb (by omega)) (he (by omega))⟩

end Expression

end DiceNotation
