import Mathlib

/-!
# Thresholds on sorted values

A test that is passed by every value above one that passes it cuts a sorted list in two. So the
number of the highest values that pass it depends only on the number of all that do, and so does the
number of the lowest ones. One list of values is outdone by another if no such test is passed by
more of its values; then its sum is not greater either.
-/

namespace DiceNotation

/-! ## Counting in a list that a test cuts in two -/

section Cut

variable {α : Type} {test : α → Bool} {items : List α}

/-- If the items that pass stand first, as many of the first ones pass as pass at all. -/
theorem countP_take_of_first (h : items.Pairwise fun a b => test b = true → test a = true)
    (count : Nat) : (items.take count).countP test = min count (items.countP test) := by
  induction items generalizing count with
  | nil => rw [List.take_nil, List.countP_nil, Nat.min_zero]
  | cons a items ih =>
    obtain ⟨hfirst, hrest⟩ := List.pairwise_cons.1 h
    cases count with
    | zero => rw [List.take_zero, List.countP_nil, Nat.zero_min]
    | succ count =>
      rw [List.take_succ_cons]
      by_cases hpasses : test a = true
      · rw [List.countP_cons_of_pos hpasses, List.countP_cons_of_pos hpasses, ih hrest,
          Nat.add_min_add_right]
      · have hnone : items.countP test = 0 :=
          List.countP_eq_zero.2 fun b hb hpasses' => hpasses (hfirst b hb hpasses')
        rw [List.countP_cons_of_neg hpasses, List.countP_cons_of_neg hpasses, ih hrest, hnone,
          Nat.min_zero, Nat.min_zero]

/-- If the items that pass stand last, the others take up the first places. -/
theorem countP_take_of_last (h : items.Pairwise fun a b => test a = true → test b = true)
    (count : Nat) :
    (items.take count).countP test =
      min count items.length - (items.length - items.countP test) := by
  have hothers : items.Pairwise fun a b => (!test b) = true → (!test a) = true := by
    refine h.imp fun {a b} hab hb => ?_
    rw [Bool.not_eq_true'] at hb ⊢
    exact Bool.eq_false_iff.2 fun ha => Bool.eq_false_iff.1 hb (hab ha)
  have hfirst := countP_take_of_first hothers count
  have hall : items.length = items.countP test + items.countP fun a => !test a := by
    simpa using items.length_eq_countP_add_countP test
  have htaken : (items.take count).length =
      (items.take count).countP test + (items.take count).countP fun a => !test a := by
    simpa using (items.take count).length_eq_countP_add_countP test
  rw [List.length_take] at htaken
  omega

end Cut

/-! ## Sorted values -/

/-- A test of values that is passed by every value above one that passes it. -/
def IsUpward (test : UInt32 → Bool) : Prop := ∀ x y, x ≤ y → test x = true → test y = true

/-- A test of values that is passed by every value below one that passes it. -/
def IsDownward (test : UInt32 → Bool) : Prop := ∀ x y, x ≤ y → test y = true → test x = true

/-- Values with the highest first. -/
def descending (values : List UInt32) : List UInt32 := values.mergeSort fun x y => y ≤ x

/-- Values with the lowest first. -/
def ascending (values : List UInt32) : List UInt32 := values.mergeSort fun x y => x ≤ y

/-- Sorting adds no value and drops none. -/
theorem descending_perm (values : List UInt32) : (descending values).Perm values :=
  List.mergeSort_perm values _

/-- Neither does sorting the other way. -/
theorem ascending_perm (values : List UInt32) : (ascending values).Perm values :=
  List.mergeSort_perm values _

/-- In descending order, no value is above one in front of it. -/
theorem pairwise_descending (values : List UInt32) :
    (descending values).Pairwise fun x y => y ≤ x :=
  List.pairwise_mergeSort' (fun x y : UInt32 => y ≤ x) values

/-- In ascending order, no value is below one in front of it. -/
theorem pairwise_ascending (values : List UInt32) :
    (ascending values).Pairwise fun x y => x ≤ y :=
  List.pairwise_mergeSort' (fun x y : UInt32 => x ≤ y) values

/-- Sorting values of which the highest come first changes nothing. -/
theorem eq_descending {sorted values : List UInt32} (hperm : sorted.Perm values)
    (hsorted : sorted.Pairwise fun x y => y ≤ x) : sorted = descending values :=
  List.Perm.eq_of_pairwise (fun _ _ _ _ h h' => UInt32.le_antisymm h' h) hsorted
    (pairwise_descending values) (hperm.trans (descending_perm values).symm)

/-- There is only one way to put values in ascending order. -/
theorem eq_ascending {sorted values : List UInt32} (hperm : sorted.Perm values)
    (hsorted : sorted.Pairwise fun x y => x ≤ y) : sorted = ascending values :=
  List.Perm.eq_of_pairwise (fun _ _ _ _ h h' => UInt32.le_antisymm h h') hsorted
    (pairwise_ascending values) (hperm.trans (ascending_perm values).symm)

section Passing

variable {test : UInt32 → Bool} (htest : IsUpward test) (values : List UInt32) (count : Nat)

include htest

/-- Of the highest values, as many pass an upward test as do at all. -/
theorem countP_take_descending :
    ((descending values).take count).countP test = min count (values.countP test) := by
  rw [countP_take_of_first ((pairwise_descending values).imp fun {x y} h => htest y x h),
    (descending_perm values).countP_eq]

/-- Of the lowest values, those pass an upward test that exceed the number of those that do not. -/
theorem countP_take_ascending :
    ((ascending values).take count).countP test =
      min count values.length - (values.length - values.countP test) := by
  rw [countP_take_of_last ((pairwise_ascending values).imp fun {x y} h => htest x y h),
    (ascending_perm values).countP_eq, (ascending_perm values).length_eq]

end Passing

section PassingBelow

variable {test : UInt32 → Bool} (htest : IsDownward test) (values : List UInt32) (count : Nat)

include htest

/-- Of the highest values, those pass a downward test that exceed the number of those that do
not. -/
theorem countP_take_descending_of_downward :
    ((descending values).take count).countP test =
      min count values.length - (values.length - values.countP test) := by
  rw [countP_take_of_last ((pairwise_descending values).imp fun {x y} h => htest y x h),
    (descending_perm values).countP_eq, (descending_perm values).length_eq]

/-- Of the lowest values, as many pass a downward test as do at all. -/
theorem countP_take_ascending_of_downward :
    ((ascending values).take count).countP test = min count (values.countP test) := by
  rw [countP_take_of_first ((pairwise_ascending values).imp fun {x y} h => htest x y h),
    (ascending_perm values).countP_eq]

end PassingBelow

/-! ## Values that are outdone -/

/-- Values are outdone by others if no upward test is passed by more of them than of the others. -/
def Outdone (values others : List UInt32) : Prop :=
  ∀ test, IsUpward test → values.countP test ≤ others.countP test

namespace Outdone

variable {values others : List UInt32}

/-- The order of the values does not matter to being outdone. -/
theorem perm {values' others' : List UInt32} (h : Outdone values others)
    (hvalues : values'.Perm values) (hothers : others'.Perm others) : Outdone values' others' := by
  intro test htest
  rw [hvalues.countP_eq, hothers.countP_eq]
  exact h test htest

/-- Values that are outdone part by part are outdone together. -/
theorem append {behind behind' : List UInt32} (h : Outdone values others)
    (hbehind : Outdone behind behind') : Outdone (values ++ behind) (others ++ behind') := by
  intro test htest
  rw [List.countP_append, List.countP_append]
  exact Nat.add_le_add (h test htest) (hbehind test htest)

/-- The highest of some values are outdone if the values are. -/
theorem take_descending (h : Outdone values others) (count : Nat) :
    Outdone ((descending values).take count) ((descending others).take count) := by
  intro test htest
  rw [countP_take_descending htest, countP_take_descending htest]
  exact min_le_min_left count (h test htest)

/-- The lowest of some values are outdone if the values are, by as many others. -/
theorem take_ascending (h : Outdone values others) (hlength : values.length = others.length)
    (count : Nat) : Outdone ((ascending values).take count) ((ascending others).take count) := by
  intro test htest
  have hpass := h test htest
  rw [countP_take_ascending htest, countP_take_ascending htest, hlength]
  omega

/-- A sum counts each value once for every number below it. -/
theorem sum_eq_sum_countP (values : List UInt32) :
    (values.map UInt32.toNat).sum =
      ∑ bound ∈ Finset.range (2 ^ 32), values.countP fun x => bound < x.toNat := by
  induction values with
  | nil => simp
  | cons x values ih =>
    have hbelow : ∑ bound ∈ Finset.range (2 ^ 32), (if bound < x.toNat then 1 else 0) =
        x.toNat := by
      have hrange : (Finset.range (2 ^ 32)).filter (· < x.toNat) = Finset.range x.toNat := by
        ext bound
        have hx := x.toNat_lt
        simp only [Finset.mem_filter, Finset.mem_range]
        omega
      rw [Finset.sum_boole, hrange, Finset.card_range]
      rfl
    simp only [List.countP_cons, decide_eq_true_eq]
    rw [List.map_cons, List.sum_cons, ih, Finset.sum_add_distrib, hbelow, Nat.add_comm]

/-- Values that are outdone have no greater sum. -/
theorem sum_le (h : Outdone values others) :
    (values.map UInt32.toNat).sum ≤ (others.map UInt32.toNat).sum := by
  rw [sum_eq_sum_countP, sum_eq_sum_countP]
  refine Finset.sum_le_sum fun bound _ => h _ fun x y hxy hx => ?_
  rw [decide_eq_true_eq] at hx ⊢
  exact Nat.lt_of_lt_of_le hx (UInt32.le_iff_toNat_le.1 hxy)

end Outdone

end DiceNotation
