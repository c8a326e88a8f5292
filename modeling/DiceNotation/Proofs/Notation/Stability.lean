import DiceNotation.Proofs.Notation.Decimals
import DiceNotation.Proofs.Notation.Rearranging
import DiceNotation.Proofs.Notation.RoundTrip

/-!
# Stable notation

The notation of a built expression is stable if it is read and built into an expression with the
same notation. This is so exactly if numbers stand last in the sums and products of the expression,
once operands of the same kind are opened, provided that all of its numbers are written in a way
that the grammar has.
-/

namespace DiceNotation

open Grammar Text

namespace Expression

mutual

/-- The numbers in an expression. -/
def numbers : Expression → List Number
  | .number x => [x]
  | .dice _ => []
  | .check _ => []
  | .sum terms => numbersOfAll terms
  | .product factors => numbersOfAll factors
  | .power base exponent => base.numbers ++ exponent.numbers
  | .list entries => numbersOfAll entries
  | .commented body _ _ => body.numbers

/-- The numbers in some expressions. -/
def numbersOfAll : List Expression → List Number
  | [] => []
  | operand :: operands => operand.numbers ++ numbersOfAll operands

end

/-- The numbers of several expressions are the numbers of each of them. -/
theorem mem_numbersOfAll {x : Number} {operands : List Expression} :
    x ∈ numbersOfAll operands ↔ ∃ operand ∈ operands, x ∈ operand.numbers := by
  induction operands with
  | nil => exact ⟨nofun, nofun⟩
  | cons operand operands ih =>
    rw [numbersOfAll, List.mem_append, ih, List.exists_mem_cons_iff]

/-- A sum or product has the numbers of its operands. -/
theorem numbers_toExpression (chain : Chain) (operands : List Expression) :
    (chain.toExpression operands).numbers = numbersOfAll operands := by
  cases chain <;> rw [Chain.toExpression, numbers]

/-- The numbers of a shaped expression may be restricted further. -/
theorem Shaped.restrict {allowed q : Number → Prop} {fits : Chain → List Expression → Prop}
    {expression : Expression} (h : expression.Shaped allowed fits)
    (hq : ∀ x ∈ expression.numbers, q x) :
    expression.Shaped (fun x => allowed x ∧ q x) fits := by
  induction h with
  | number hx => exact .number ⟨hx, hq _ (List.mem_singleton_self _)⟩
  | dice hleaf => exact .dice hleaf
  | check hleaf => exact .check hleaf
  | chain chain hfits _ ih =>
    rw [numbers_toExpression] at hq
    exact .chain chain hfits fun operand hoperand =>
      ih operand hoperand fun x hx => hq x (mem_numbersOfAll.2 ⟨operand, hoperand, hx⟩)
  | power hnone _ _ ihbase ihexponent =>
    rw [numbers, List.forall_mem_append] at hq
    exact .power hnone (ihbase hq.1) (ihexponent hq.2)

/-- If numbers stand last in an opened expression, then it is flat. -/
theorem Opened.flat {allowed : Number → Prop} {expression : Expression}
    (h : expression.Opened allowed) (hlast : expression.numbersLast = true) :
    expression.Flat allowed := by
  induction h with
  | number hx => exact .number hx
  | dice hleaf => exact .dice hleaf
  | check hleaf => exact .check hleaf
  | @chain chain operands hfits _ ih =>
    obtain ⟨hunnested, heffective⟩ := hfits
    obtain ⟨hothers, hoperands⟩ := numbersLast_toExpression.1 hlast
    have hsettled : chain.Settled operands :=
      ⟨hothers, fun x hx => heffective.changes x (List.mem_of_getLast? hx)⟩
    exact .chain chain ⟨hunnested, hsettled⟩ fun operand hoperand =>
      ih operand hoperand (hoperands operand hoperand)
  | power hnone _ _ ihbase ihexponent =>
    rw [numbersLast, Bool.and_eq_true] at hlast
    exact .power hnone (ihbase hlast.1) (ihexponent hlast.2)

/-- A property that passes on to the expression between comments and to the entries of a list. -/
structure Inherited (q : Expression → Prop) : Prop where
  /-- It passes through comments. -/
  commented : ∀ body before after, q (.commented body before after) → q body
  /-- It passes on to entries. -/
  list : ∀ entries, q (.list entries) → ∀ entry ∈ entries, q entry

/-- An entry with a body of one kind has one of every kind that follows for its parts. -/
theorem EntryOf.imp {body others q : Expression → Prop} {expression : Expression}
    (h : expression.EntryOf body) (hq : Inherited q) (hexpression : q expression)
    (himp : ∀ inner, body inner → q inner → others inner) : expression.EntryOf others := by
  cases h with
  | bare hbody => exact .bare (himp _ hbody hexpression)
  | commented hbody hbefore hafter hne =>
    exact .commented (himp _ hbody (hq.commented _ _ _ hexpression)) hbefore hafter hne

/-- The same holds of an expression with entries. -/
theorem NotationOf.imp {body others q : Expression → Prop} {expression : Expression}
    (h : expression.NotationOf body) (hq : Inherited q) (hexpression : q expression)
    (himp : ∀ inner, body inner → q inner → others inner) : expression.NotationOf others := by
  cases h with
  | entry hentry => exact .entry (hentry.imp hq hexpression himp)
  | list hentries htwo =>
    exact .list (fun entry hentry =>
      (hentries entry hentry).imp hq (hq.list _ hexpression entry hentry) himp) htwo

/-- What holds of all numbers of an expression holds of those of its parts. -/
theorem inherited_numbers (q : Number → Prop) :
    Inherited fun expression => ∀ x ∈ expression.numbers, q x := by
  refine ⟨fun body before after h => ?_, fun entries h entry hentry x hx => ?_⟩
  · rwa [numbers] at h
  · rw [numbers] at h
    exact h x (mem_numbersOfAll.2 ⟨entry, hentry, hx⟩)

/-- If numbers stand last in an expression, they do so in its parts. -/
theorem inherited_numbersLast : Inherited fun expression => expression.numbersLast = true := by
  refine ⟨fun body before after h => ?_, fun entries h => ?_⟩
  · rwa [numbersLast] at h
  · rw [numbersLast] at h
    exact allNumbersLast_iff.1 h

/-! ## Comments and lists -/

/-- Flattening opens all operands of the same kind between comments and in lists. -/
theorem NotationOf.flatten {allowed : Number → Prop} {expression : Expression}
    (h : expression.NotationOf (Shaped allowed Chain.Effective)) :
    expression.flatten.NotationOf (Opened allowed) ∧ expression.flatten.text = expression.text := by
  have hentry : ∀ entry : Expression, entry.EntryOf (Shaped allowed Chain.Effective) →
      entry.flatten.EntryOf (Opened allowed) ∧ entry.flatten.text = entry.text := by
    intro entry hentry
    cases hentry with
    | bare hbody =>
      obtain ⟨hopened, htext⟩ := opened_flatten hbody
      exact ⟨.bare hopened, htext⟩
    | commented hbody hbefore hafter hne =>
      obtain ⟨hopened, htext⟩ := opened_flatten hbody
      rw [Expression.flatten, Expression.text, Expression.text, htext]
      exact ⟨.commented hopened hbefore hafter hne, rfl⟩
  cases h with
  | entry h =>
    obtain ⟨hopened, htext⟩ := hentry expression h
    exact ⟨.entry hopened, htext⟩
  | @list entries hentries htwo =>
    rw [Expression.flatten, flattenAll_eq_map, Expression.text, Expression.text,
      Expression.texts_eq_map, Expression.texts_eq_map, List.map_map]
    refine ⟨.list (List.forall_mem_map.2 fun entry h => (hentry entry (hentries entry h)).1)
      (by rwa [List.length_map]), congrArg listSeparator.intercalate ?_⟩
    exact List.map_congr_left fun entry h => (hentry entry (hentries entry h)).2

/-- An entry behind a separator. -/
def listed (entry : Expression) : List Char := listSeparator.toList ++ entry.text.toList

/-- The blanks of an entry in a list are those of its weight. -/
theorem count_listed (entry : Expression) : (listed entry).count ' ' = entry.weight := by
  rw [listed, List.count_append, weight, Nat.add_comm]
  rfl

/-- The notation of a list behind a separator is that of its entries, each of them behind one. -/
theorem listed_list {entries : List Expression} (hne : entries ≠ []) :
    listSeparator.toList ++ (Expression.list entries).text.toList = entries.flatMap listed := by
  obtain ⟨first, rest, rfl⟩ := List.exists_cons_of_ne_nil hne
  rw [Expression.text, Expression.texts_eq_map, List.map_cons, toList_intercalate_cons,
    List.flatMap_map, List.flatMap_cons, listed, List.append_assoc]
  rfl

/-- Rebuilding an entry does not make it heavier, and if its weight stays, then it is aligned. -/
theorem EntryOf.weight_rebuild {allowed : Number → Prop} {source rebuilt : Expression}
    (h : source.EntryOf (Opened allowed))
    (hcombine : ∀ (chain : Chain) x, allowed x → (x == chain.identity) = false →
      chain.combine chain.identity x = .ok x) (hr : source.rebuild = .ok rebuilt) :
    rebuilt.weight ≤ source.weight ∧ (rebuilt.weight = source.weight → source.Aligned rebuilt) := by
  cases h with
  | bare hbody =>
    obtain ⟨hle, hrearranged⟩ := hbody.weight_rebuild hcombine hr
    exact ⟨hle, fun heq => (hrearranged heq).toAligned⟩
  | @commented body before after hbody =>
    rw [Expression.rebuild] at hr
    obtain ⟨inner, hinner, hr⟩ := bind_eq_ok_iff.1 hr
    rw [← pure_eq_ok_iff.1 hr]
    obtain ⟨hle, hrearranged⟩ := hbody.weight_rebuild hcombine hinner
    have hweight : ∀ expression : Expression,
        (Expression.commented expression before after).weight =
        (opening before).count ' ' + expression.weight + (closing after).count ' ' := by
      intro expression
      rw [weight, Expression.text, toList_commentedText, List.count_append, List.count_append,
        weight]
      omega
    rw [hweight, hweight]
    refine ⟨by omega, fun heq => ?_⟩
    obtain ⟨hlength, hlast⟩ := (hrearranged (by omega)).toAligned
    refine ⟨?_, fun htext => ?_⟩
    · rw [Expression.text, Expression.text, toList_commentedText, toList_commentedText]
      simp only [List.length_append, hlength]
    · rw [Expression.text, Expression.text, ← String.toList_inj, toList_commentedText,
        toList_commentedText] at htext
      have hsame := List.append_cancel_right (List.append_cancel_left htext)
      exact hlast (String.toList_inj.1 hsame)

/-- If an expression is rebuilt with the same notation, then numbers stand last in it. -/
theorem NotationOf.numbersLast {allowed : Number → Prop} {source rebuilt : Expression}
    (h : source.NotationOf (Opened allowed))
    (hcombine : ∀ (chain : Chain) x, allowed x → (x == chain.identity) = false →
      chain.combine chain.identity x = .ok x) (hr : source.rebuild = .ok rebuilt)
    (htext : rebuilt.text = source.text) : source.numbersLast = true := by
  cases h with
  | entry hentry =>
    have hweight : rebuilt.weight = source.weight := by rw [weight, htext, weight]
    exact ((hentry.weight_rebuild hcombine hr).2 hweight).last htext
  | @list entries hentries htwo =>
    rw [Expression.rebuild] at hr
    obtain ⟨others, hothers, hr⟩ := bind_eq_ok_iff.1 hr
    rw [← pure_eq_ok_iff.1 hr] at htext
    have hlength := rebuildAll_length hothers
    have hlisted : others.flatMap listed = entries.flatMap listed := by
      rw [← listed_list (List.ne_nil_of_length_pos (by omega)),
        ← listed_list (List.ne_nil_of_length_pos (by omega)), htext]
    have hweights : (others.map weight).sum = (entries.map weight).sum := by
      have hspaces := congrArg (List.count ' ') hlisted
      rw [List.count_flatMap, List.count_flatMap] at hspaces
      simpa only [Function.comp_def, count_listed] using hspaces
    have hpairs : List.Forall₂ (fun entry again => again.weight ≤ entry.weight ∧
        (again.weight = entry.weight → entry.Aligned again)) entries others :=
      forall₂_of_rebuildAll hothers fun entry hentry again =>
        (hentries entry hentry).weight_rebuild hcombine
    have haligned := (sum_le_of_forall₂ hpairs).2 hweights
    have hsame := forall₂_eq_of_flatMap_eq (haligned.imp fun entry again hpair => by
      rw [listed, listed, List.length_append, List.length_append, hpair.length]) hlisted
    rw [Expression.numbersLast, allNumbersLast_iff]
    exact forall_mem_of_forall₂ (haligned.mp (fun _ _ => And.intro) hsame)
      fun entry again _ hpair =>
        hpair.1.last (String.toList_inj.1 (List.append_cancel_left hpair.2))

end Expression

/-! ## Stability -/

/-- A number whose notation the grammar has: it has no exponent, and is not the least integer, whose
digits fit no integer without the sign. -/
def Number.IsPlain (x : Number) : Prop :=
  x ≠ .integer Int64.minValue ∧ 'e' ∉ x.text.toList

/-- A finite number that is written plainly is read as itself. -/
theorem readsAs_number {x : Number} (h : x.IsFinite ∧ x.IsPlain) :
    ReadsAs .negation x.text.toList (.ok (.number x)) := by
  obtain ⟨hfinite, hleast, hexponent⟩ := h
  cases x with
  | integer z => exact readsAs_integer fun heq => hleast (congrArg Number.integer heq)
  | decimal x => exact readsAs_decimal hfinite hexponent

/-- A number that is not the identity is kept by combining it with the identity. -/
theorem combine_identity (chain : Chain) {x : Number} (h : x.IsFinite)
    (hx : (x == chain.identity) = false) : chain.combine chain.identity x = .ok x := by
  cases x with
  | integer z => exact combine_identity_integer chain z
  | decimal x => exact combine_identity_decimal chain h hx

/-- The notation of an expression without exponents and least integers is read, built and written
the same exactly if numbers stand last, once operands of the same kind are opened. -/
theorem stable_iff_numbersLast {text : String} {expression : Expression}
    (h : Expression.ofText text = .ok expression)
    (hplain : ∀ x ∈ expression.numbers, x.IsPlain) :
    (∃ again, Expression.ofText expression.text = .ok again ∧ again.text = expression.text) ↔
      expression.flatten.numbersLast = true := by
  have hshaped := (notationOf_of_ofText h).imp (Expression.inherited_numbers _) hplain
    fun _ hbuilt hnumbers => hbuilt.restrict hnumbers
  obtain ⟨hopened, htext⟩ := hshaped.flatten
  have hreads : Expression.ofText expression.text =
      expression.flatten.rebuild.mapError .meaningless := by
    rw [← htext]
    exact hopened.ofText_eq fun body hbody =>
      hbody.readsAs_sum (fun _ _ hfits => hfits.1) fun _ => readsAs_number
  have hcombine : ∀ (chain : Chain) x, x.IsFinite ∧ x.IsPlain → (x == chain.identity) = false →
      chain.combine chain.identity x = .ok x := fun chain _ hx => combine_identity chain hx.1
  rw [hreads]
  constructor
  · rintro ⟨again, hagain, hsame⟩
    exact hopened.numbersLast hcombine (mapError_eq_ok_iff.1 hagain) (hsame.trans htext.symm)
  · intro hlast
    have hflat := hopened.imp Expression.inherited_numbersLast hlast fun _ hbody => hbody.flat
    exact ⟨expression.flatten, mapError_eq_ok_iff.2
      (hflat.rebuild fun _ hbody => hbody.rebuild hcombine), htext⟩

/-- A die with a decimal number behind it. -/
theorem stable_die_and_decimal :
    Expression.ofText "d20+1.5" = .ok (.sum [.dice ⟨1, 20, none⟩, .number (.decimal 1.5)]) ∧
      ∃ again, Expression.ofText
          (Expression.sum [.dice ⟨1, 20, none⟩, .number (.decimal 1.5)]).text = .ok again ∧
        again.text = (Expression.sum [.dice ⟨1, 20, none⟩, .number (.decimal 1.5)]).text := by
  have hbuilt : Expression.ofText "d20+1.5" =
      .ok (.sum [.dice ⟨1, 20, none⟩, .number (.decimal 1.5)]) := by rfl
  refine ⟨hbuilt, (stable_iff_numbersLast hbuilt ?_).2 rfl⟩
  intro x hx
  have hnumber : x = .decimal 1.5 := List.mem_singleton.1 hx
  rw [hnumber]
  exact ⟨nofun, by decide +kernel⟩

/-- Notation is not always stable: the number of a negated die moves, an exponent is not read, and
neither is the least integer. -/
theorem unstable_notations :
    (∃ expression again, Expression.ofText "-d6" = .ok expression ∧
      Expression.ofText expression.text = .ok again ∧ again.text ≠ expression.text) ∧
    (∃ expression error, Expression.ofText "10000000000000000.0" = .ok expression ∧
      Expression.ofText expression.text = .error error) ∧
    (∃ expression error, Expression.ofText "-9223372036854775807 - 1" = .ok expression ∧
      Expression.ofText expression.text = .error error) :=
  ⟨⟨_, _, rfl, rfl, by decide⟩, ⟨_, _, rfl, rfl⟩, ⟨_, _, rfl, rfl⟩⟩

end DiceNotation
