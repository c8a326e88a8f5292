import Mathlib
import DiceNotation.Dice.Supply
import DiceNotation.Proofs.Markings

/-!
# Keeping the best dice

Of the kept dice of a list, a modifier keeps some number of the best ones, which are the highest or
the lowest, and drops the others. Among dice of the same value the earlier one is better. The dice
that stay kept are the first ones of the ranking, and every one of them is better than every die
that is dropped. What was dropped before takes no part.
-/

namespace DiceNotation

/-! ## Rankings -/

/-- A sort leaves what is equal in its order in the order in which it stood. -/
theorem pairwise_mergeSort_of_pairwise {α : Type} {le : α → α → Bool} {before : α → α → Prop}
    (htrans : ∀ a b c, le a b = true → le b c = true → le a c = true)
    (htotal : ∀ a b, (le a b || le b a) = true) {items : List α} (h : items.Pairwise before) :
    (items.mergeSort le).Pairwise fun a b => le b a = true → before a b := by
  induction items with
  | nil =>
    rw [List.mergeSort_nil]
    exact .nil
  | cons item items ih =>
    obtain ⟨hitem, hitems⟩ := List.pairwise_cons.1 h
    -- The first item is put before everything that it was before, unless that comes first strictly.
    obtain ⟨front, rest, hsorted, hothers, hfront⟩ := List.mergeSort_cons htrans htotal item items
    have hpairwise := ih hitems
    rw [hothers, List.pairwise_append] at hpairwise
    obtain ⟨hfirst, hlast, hacross⟩ := hpairwise
    have hrest : ∀ other ∈ rest, before item other := by
      intro other hother
      refine hitem other ((List.mergeSort_perm items le).mem_iff.1 ?_)
      rw [hothers]
      exact List.mem_append_right front hother
    rw [hsorted, List.pairwise_append, List.pairwise_cons]
    refine ⟨hfirst, ⟨fun other hother _ => hrest other hother, hlast⟩, fun a ha b hb => ?_⟩
    rcases List.mem_cons.1 hb with rfl | hb
    · intro hle
      have hstrict := hfront a ha
      rw [hle] at hstrict
      cases hstrict
    · exact hacross a ha b hb

/-- An order of dice ranks them by their values, the better ones first. -/
structure Ranks (order : Die → Die → Bool) (better : UInt32 → UInt32 → Prop) : Prop where
  /-- What may stand first is better or as good. -/
  order_iff : ∀ a b : Die, order a b = true ↔ better a.value b.value ∨ a.value = b.value
  /-- What is better than something better is better. -/
  trans : ∀ {x y z : UInt32}, better x y → better y z → better x z
  /-- Of different values, one is better. -/
  total : ∀ x y : UInt32, better x y ∨ x = y ∨ better y x

/-- The lower of two values comes first in the order of the lowest dice. -/
theorem ranks_lowerFirst : Ranks Die.lowerFirst (· < ·) where
  order_iff a b := by
    rw [Die.lowerFirst, Die.order, Std.isLE_compare]
    exact UInt32.le_iff_lt_or_eq
  trans := UInt32.lt_trans
  total x y := by
    rcases Nat.lt_trichotomy x.toNat y.toNat with hlt | heq | hgt
    · exact .inl (UInt32.lt_iff_toNat_lt.2 hlt)
    · exact .inr (.inl (UInt32.toNat_inj.1 heq))
    · exact .inr (.inr (UInt32.lt_iff_toNat_lt.2 hgt))

/-- The higher of two values comes first in the order of the highest dice. -/
theorem ranks_higherFirst : Ranks Die.higherFirst fun x y => y < x where
  order_iff a b := (ranks_lowerFirst.order_iff b a).trans (or_congr_right eq_comm)
  trans hxy hyz := UInt32.lt_trans hyz hxy
  total x y := (ranks_lowerFirst.total y x).imp id (Or.imp Eq.symm id)

namespace Ranks

variable {order : Die → Die → Bool} {better : UInt32 → UInt32 → Prop}

/-- What comes before something that comes before a third comes before that. -/
theorem order_trans (h : Ranks order better) (a b c : Die) (hab : order a b = true)
    (hbc : order b c = true) : order a c = true := by
  rw [h.order_iff] at hab hbc ⊢
  rcases hab with hab | hab
  · rcases hbc with hbc | hbc
    · exact .inl (h.trans hab hbc)
    · exact .inl (hbc ▸ hab)
  · rwa [hab]

/-- Of two dice, one may come before the other. -/
theorem order_total (h : Ranks order better) (a b : Die) : (order a b || order b a) = true := by
  rw [Bool.or_eq_true, h.order_iff, h.order_iff]
  rcases h.total a.value b.value with hab | heq | hba
  · exact .inl (.inl hab)
  · exact .inl (.inr heq)
  · exact .inr (.inl hba)

end Ranks

/-- The kept dice stand in the order of their places. -/
theorem pairwise_places_keptEntries (rolls : List Die) :
    (keptEntries rolls).Pairwise fun a b => a.2 < b.2 := by
  have hplaces : (rolls.zipIdx.map Prod.snd).Pairwise (· < ·) := by
    rw [List.zipIdx_map_snd]
    exact List.pairwise_lt_range'
  exact (List.pairwise_map.1 hplaces).filter _

/-- In a ranking the better dice come first, and of dice of the same value the earlier ones. -/
theorem Ranks.pairwise_ranking {order : Die → Die → Bool} {better : UInt32 → UInt32 → Prop}
    (h : Ranks order better) (rolls : List Die) :
    (ranking order rolls).Pairwise fun a b =>
      better a.1.value b.1.value ∨ a.1.value = b.1.value ∧ a.2 < b.2 := by
  have htrans : ∀ a b c : PlacedDie, order a.1 b.1 = true → order b.1 c.1 = true →
      order a.1 c.1 = true := fun a b c => h.order_trans a.1 b.1 c.1
  have htotal : ∀ a b : PlacedDie, (order a.1 b.1 || order b.1 a.1) = true :=
    fun a b => h.order_total a.1 b.1
  have hsorted := List.pairwise_mergeSort htrans htotal (keptEntries rolls)
  have hstable := pairwise_mergeSort_of_pairwise htrans htotal (pairwise_places_keptEntries rolls)
  refine (hsorted.and hstable).imp fun {a b} ⟨hab, hplace⟩ => ?_
  refine ((h.order_iff a.1 b.1).1 hab).imp_right fun heq => ⟨heq, hplace ?_⟩
  exact (h.order_iff b.1 a.1).2 (.inr heq.symm)

/-- No place stands twice in a ranking. -/
theorem nodup_places_ranking (order : Die → Die → Bool) (rolls : List Die) :
    ((ranking order rolls).map Prod.snd).Nodup := by
  rw [((ranking_perm order rolls).map Prod.snd).nodup_iff]
  exact List.pairwise_map.2 ((pairwise_places_keptEntries rolls).imp Nat.ne_of_lt)

/-! ## What stays kept -/

/-- Without their places, the kept entries are the kept dice. -/
theorem map_fst_keptEntries (rolls : List Die) :
    (keptEntries rolls).map Prod.fst = rolls.filter Die.isKept := by
  have hfilter := List.filter_map (f := Prod.fst) (p := Die.isKept) (l := rolls.zipIdx)
  rw [List.zipIdx_map_fst] at hfilter
  exact hfilter.symm

/-- Without their places, the dice of a ranking are the kept dice in the order. -/
theorem map_fst_ranking (order : Die → Die → Bool) (rolls : List Die) :
    (ranking order rolls).map Prod.fst = (rolls.filter Die.isKept).mergeSort order := by
  rw [← map_fst_keptEntries]
  exact List.map_mergeSort fun _ _ _ _ => rfl

/-- The lowest dice are ranked as the kept dice are sorted. -/
theorem map_fst_ranking_lowerFirst (rolls : List Die) :
    (ranking Die.lowerFirst rolls).map Prod.fst = Die.sort (rolls.filter Die.isKept) :=
  map_fst_ranking Die.lowerFirst rolls

/-- A die is kept after dropping if it was kept before and stands at none of the places. -/
theorem isKept_dropAt (modifier : Modifier) (places : List Nat) (entry : PlacedDie) :
    (dropAt modifier places entry).isKept = (entry.1.isKept && decide (entry.2 ∉ places)) := by
  rw [dropAt]
  split <;> rename_i hplace <;> simp [hplace, Die.isKept]

/-- Dropping dice at some places leaves the kept ones at the other places as they are. -/
theorem filter_isKept_dropAt (modifier : Modifier) (places : List Nat) (rolls : List Die) :
    (rolls.zipIdx.map (dropAt modifier places)).filter Die.isKept =
      ((keptEntries rolls).filter fun entry => entry.2 ∉ places).map Prod.fst := by
  have hfilter : (rolls.zipIdx.filter (Die.isKept ∘ dropAt modifier places)) =
      rolls.zipIdx.filter fun entry => decide (entry.2 ∉ places) && entry.1.isKept :=
    List.filter_congr fun entry _ => by
      rw [Function.comp_apply, isKept_dropAt, Bool.and_comm]
  rw [List.filter_map, hfilter, keptEntries, List.filter_filter]
  refine List.map_congr_left fun entry hentry => ?_
  have hplace := (List.mem_filter.1 hentry).2
  rw [Bool.and_eq_true, decide_eq_true_eq] at hplace
  exact if_neg hplace.1

/-- The kept dice that are not ranked behind the first ones are the first ones. -/
theorem filter_placesBehind_perm (order : Die → Die → Bool) (count : Nat)
    (rolls : List Die) :
    ((keptEntries rolls).filter fun entry => entry.2 ∉ placesBehind order count rolls).Perm
      ((ranking order rolls).take count) := by
  have hnodup := nodup_places_ranking order rolls
  rw [← List.take_append_drop count (ranking order rolls), List.map_append,
    List.nodup_append] at hnodup
  have hfirst : ((ranking order rolls).take count).filter
      (fun entry => entry.2 ∉ placesBehind order count rolls) = (ranking order rolls).take count :=
    List.filter_eq_self.2 fun entry hentry => decide_eq_true fun hplace =>
      hnodup.2.2 entry.2 (List.mem_map_of_mem hentry) entry.2 hplace rfl
  have hbehind : ((ranking order rolls).drop count).filter
      (fun entry => entry.2 ∉ placesBehind order count rolls) = [] :=
    List.filter_eq_nil_iff.2 fun entry hentry => by
      rw [decide_eq_true_eq, not_not]
      exact List.mem_map_of_mem hentry
  have hperm := ((ranking_perm order rolls).filter fun entry =>
    entry.2 ∉ placesBehind order count rolls).symm
  rwa [← List.take_append_drop count (ranking order rolls), List.filter_append, hfirst, hbehind,
    List.append_nil] at hperm

/-- The dice that stay kept are the first ones of the kept dice in the order. -/
theorem filter_isKept_keepFirst_perm {order : Die → Die → Bool} {modifier : Modifier}
    {count : Nat} {rolls marked : List Die}
    (h : keepFirst order modifier count rolls = .ok marked) :
    (marked.filter Die.isKept).Perm (((rolls.filter Die.isKept).mergeSort order).take count) := by
  rw [keepFirst_eq] at h
  cases h
  rw [filter_isKept_dropAt, ← map_fst_ranking, ← List.map_take]
  exact (filter_placesBehind_perm order count rolls).map Prod.fst

/-- The sum of the kept dice is that of their values. -/
theorem keptSum_eq (rolls : List Die) :
    keptSum rolls = ((rolls.filter Die.isKept).map fun die => die.value.toNat).sum := by
  induction rolls with
  | nil => rfl
  | cons die rolls ih =>
    rw [keptSum, ih]
    cases hkept : die.isKept with
    | true => rw [List.filter_cons_of_pos hkept, if_pos rfl, List.map_cons, List.sum_cons]
    | false =>
      rw [List.filter_cons_of_neg (by rw [hkept]; exact Bool.false_ne_true),
        if_neg Bool.false_ne_true, Nat.zero_add]

/-- The sum of the kept dice of two lists is the sum of both. -/
theorem keptSum_append (first second : List Die) :
    keptSum (first ++ second) = keptSum first + keptSum second := by
  rw [keptSum_eq, keptSum_eq, keptSum_eq, List.filter_append, List.map_append, List.sum_append]

/-- Whether a kept die stands at a place. -/
def IsKeptAt (rolls : List Die) (place : Nat) : Prop :=
  ∃ die, rolls[place]? = some die ∧ die.isKept = true

/-- Every die stays in its place, and is dropped if it is ranked behind the first ones. -/
theorem getElem?_keepFirst {order : Die → Die → Bool} {modifier : Modifier}
    {count : Nat} {rolls marked : List Die} (h : keepFirst order modifier count rolls = .ok marked)
    (place : Nat) :
    marked[place]? = rolls[place]?.map fun die =>
      dropAt modifier (placesBehind order count rolls) (die, place) := by
  rw [keepFirst_eq] at h
  rw [← Except.ok.inj h, List.getElem?_map, List.getElem?_zipIdx, Option.map_map, Nat.zero_add]
  rfl

/-- A die stays kept if it was kept and is not ranked behind the first ones. -/
theorem isKeptAt_keepFirst_iff {order : Die → Die → Bool} {modifier : Modifier}
    {count place : Nat} {rolls marked : List Die} {die : Die}
    (h : keepFirst order modifier count rolls = .ok marked) (hdie : rolls[place]? = some die) :
    IsKeptAt marked place ↔ die.isKept = true ∧ place ∉ placesBehind order count rolls := by
  rw [IsKeptAt, getElem?_keepFirst h, hdie, Option.map_some]
  simp only [Option.some.injEq, exists_eq_left', isKept_dropAt, Bool.and_eq_true,
    decide_eq_true_eq]

/-- A set of dice after the best `count` of its kept dice were kept and the others were dropped by a
modifier. -/
structure KeepsBest (better : UInt32 → UInt32 → Prop) (modifier : Modifier) (count : Nat)
    (rolled after : Rolled) : Prop where
  /-- The set is one of the same dice. -/
  dice : after.dice = rolled.dice
  /-- Every die persists in its place. -/
  persist : List.Forall₂ (Die.Persists [modifier]) rolled.rolls after.rolls
  /-- A die that was dropped before is left as it is. -/
  untouched : ∀ (place : Nat) (die : Die), rolled.rolls[place]? = some die → die.isKept = false →
    after.rolls[place]? = some die
  /-- The count stays kept, or all kept dice if there are fewer. -/
  kept : after.rolls.countP Die.isKept = min count (rolled.rolls.countP Die.isKept)
  /-- Of two kept dice, one that stays is better than one that is dropped, or it shows the same
  value and stands before it. -/
  best : ∀ (place place' : Nat) (die die' : Die), rolled.rolls[place]? = some die →
    rolled.rolls[place']? = some die' → die'.isKept = true →
    IsKeptAt after.rolls place → ¬ IsKeptAt after.rolls place' →
      better die.value die'.value ∨ die.value = die'.value ∧ place < place'
  /-- If all dice were kept, the total is the sum of the best values. -/
  total : (∀ die ∈ rolled.rolls, die.isKept = true) → ∃ sorted : List UInt32,
    sorted.Perm (rolled.rolls.map Die.value) ∧ sorted.Pairwise (fun x y => better x y ∨ x = y) ∧
      keptSum after.rolls = ((sorted.take count).map UInt32.toNat).sum ∧
        (keptSum after.rolls < 2 ^ 64 → after.total? = some (keptSum after.rolls))

/-- The number of dice that stay kept is the count, or that of all kept dice if it is smaller. -/
theorem countP_isKept_keepFirst {order : Die → Die → Bool} {modifier : Modifier}
    {count : Nat} {rolls marked : List Die}
    (h : keepFirst order modifier count rolls = .ok marked) :
    marked.countP Die.isKept = min count (rolls.countP Die.isKept) := by
  rw [List.countP_eq_length_filter, (filter_isKept_keepFirst_perm h).length_eq, List.length_take,
    List.length_mergeSort, List.countP_eq_length_filter]

/-- What is ranked first is better than what is ranked behind, or as good and at an earlier
place. -/
theorem Ranks.better_of_isKeptAt {order : Die → Die → Bool}
    {better : UInt32 → UInt32 → Prop} (hranks : Ranks order better) {modifier : Modifier}
    {count place place' : Nat} {rolls marked : List Die} {die die' : Die}
    (h : keepFirst order modifier count rolls = .ok marked) (hdie : rolls[place]? = some die)
    (hdie' : rolls[place']? = some die') (hkept' : die'.isKept = true)
    (hstays : IsKeptAt marked place) (hdropped : ¬ IsKeptAt marked place') :
    better die.value die'.value ∨ die.value = die'.value ∧ place < place' := by
  obtain ⟨hkept, hfront⟩ := (isKeptAt_keepFirst_iff h hdie).1 hstays
  have hbehind : place' ∈ placesBehind order count rolls := by
    by_contra hplace
    exact hdropped ((isKeptAt_keepFirst_iff h hdie').2 ⟨hkept', hplace⟩)
  have hfirst : (die, place) ∈ (ranking order rolls).take count := by
    refine (filter_placesBehind_perm order count rolls).mem_iff.1 (List.mem_filter.2 ⟨?_, ?_⟩)
    · exact mem_keptEntries.2 ⟨hdie, hkept⟩
    · exact decide_eq_true hfront
  have hlast : (die', place') ∈ (ranking order rolls).drop count :=
    (isKept_of_mem_placesBehind (List.mk_mem_zipIdx_iff_getElem?.2 hdie') hbehind).1
  have hpairwise := hranks.pairwise_ranking rolls
  rw [← List.take_append_drop count (ranking order rolls), List.pairwise_append] at hpairwise
  exact hpairwise.2.2 _ hfirst _ hlast

/-- The values that stay kept are the best ones. -/
theorem Ranks.exists_sorted {order : Die → Die → Bool}
    {better : UInt32 → UInt32 → Prop} (hranks : Ranks order better) {modifier : Modifier}
    {count : Nat} {rolls marked : List Die} (h : keepFirst order modifier count rolls = .ok marked)
    (hall : ∀ die ∈ rolls, die.isKept = true) :
    ∃ sorted : List UInt32, sorted.Perm (rolls.map Die.value) ∧
      sorted.Pairwise (fun x y => better x y ∨ x = y) ∧
      ((marked.filter Die.isKept).map Die.value).Perm (sorted.take count) := by
  refine ⟨(rolls.mergeSort order).map Die.value, ?_, ?_, ?_⟩
  · exact (List.mergeSort_perm rolls order).map Die.value
  · have hsorted := List.pairwise_mergeSort hranks.order_trans hranks.order_total rolls
    exact List.pairwise_map.2 (hsorted.imp fun {a b} => (hranks.order_iff a b).1)
  · have hkept := (filter_isKept_keepFirst_perm h).map Die.value
    rwa [List.filter_eq_self.2 hall, List.map_take] at hkept

/-- Keeping the first dice of a ranking keeps the best ones. -/
theorem Ranks.keepsBest {order : Die → Die → Bool} {better : UInt32 → UInt32 → Prop}
    (hranks : Ranks order better) (modifier : Modifier) (count : Nat) (rolled : Rolled) :
    ∃ marked, keepFirst order modifier count rolled.rolls = .ok marked ∧
      KeepsBest better modifier count rolled { rolled with rolls := marked } := by
  obtain ⟨marked, hkeep, hpersist⟩ := exists_keepFirst order modifier count rolled.rolls
  refine ⟨marked, hkeep, rfl, hpersist, fun place die hdie hdropped => ?_,
    countP_isKept_keepFirst hkeep,
    fun place place' die die' hdie hdie' => hranks.better_of_isKeptAt hkeep hdie hdie',
    fun hall => ?_⟩
  · have hfront : place ∉ placesBehind order count rolled.rolls := by
      intro hplace
      have hentry := List.mk_mem_zipIdx_iff_getElem?.2 hdie
      rw [(isKept_of_mem_placesBehind hentry hplace).2] at hdropped
      cases hdropped
    rw [getElem?_keepFirst hkeep, hdie, Option.map_some, dropAt, if_neg hfront]
  · obtain ⟨sorted, hperm, hsorted, hkept⟩ := hranks.exists_sorted hkeep hall
    have hsum : keptSum marked = ((sorted.take count).map UInt32.toNat).sum := by
      rw [keptSum_eq, ← (hkept.map UInt32.toNat).sum_eq, List.map_map]
      rfl
    exact ⟨sorted, hperm, hsorted, hsum, fun hfits => if_pos hfits⟩

/-- Keeping the highest or the lowest dice keeps the best ones, for which the higher or the lower
value is better. It never fails, whatever marks the dice have, and asks for no die. -/
theorem keepsBest_apply (rolled : Rolled) (count : UInt32) :
    (∃ after, (Modifier.keepHighest count).apply rolled = .done after ∧
      KeepsBest (fun x y => y < x) (.keepHighest count) count.toNat rolled after) ∧
    ∃ after, (Modifier.keepLowest count).apply rolled = .done after ∧
      KeepsBest (fun x y => x < y) (.keepLowest count) count.toNat rolled after := by
  obtain ⟨highest, hhighest, hhigh⟩ :=
    ranks_higherFirst.keepsBest (.keepHighest count) count.toNat rolled
  obtain ⟨lowest, hlowest, hlow⟩ :=
    ranks_lowerFirst.keepsBest (.keepLowest count) count.toNat rolled
  refine ⟨⟨_, ?_, hhigh⟩, ⟨_, ?_, hlow⟩⟩
  · rw [Modifier.apply, hhighest]
    rfl
  · rw [Modifier.apply, hlowest]
    rfl

/-- Of the three kept dice the two highest stay, and of the two fives the earlier one. -/
example : (Modifier.keepHighest 2).apply ⟨⟨4, 6, none⟩,
      [⟨5, none, none⟩, ⟨6, none, some (.keepLowest 1)⟩, ⟨6, none, none⟩, ⟨5, none, none⟩]⟩ =
    .done ⟨⟨4, 6, none⟩, [⟨5, none, none⟩, ⟨6, none, some (.keepLowest 1)⟩, ⟨6, none, none⟩,
      ⟨5, none, some (.keepHighest 2)⟩]⟩ := by
  cbv

end DiceNotation
