import DiceNotation.Proofs.Descriptions.Readability
import DiceNotation.Proofs.Totals

/-!
# Descriptions and values

The description of rolled dice lists the first dice in the order rolled, as many as the limit
allows, with marks for those that are dropped or explode, and counts the others. What it says that
the dice amount to is the value of the dice, whatever the limit. Without a limit the values and the
drops of all dice are read back from it. The description of a check does the same for hits, and
without a limit as many values are in bold as it counts hits.
-/

namespace DiceNotation

/-! ## Lists of dice -/

/-- Whether dice explode on a value. -/
def Dice.ExplodesOn (dice : Dice) (value : UInt32) : Prop :=
  ∃ threshold cap, dice.modifier = some (.explode threshold cap) ∧ threshold ≤ value

/-- A die is explosive exactly if its dice explode on its value. -/
theorem Rolled.isExplosive_iff {rolled : Rolled} {die : Die} :
    rolled.isExplosive die = true ↔ rolled.dice.ExplodesOn die.value := by
  rw [isExplosive, Dice.ExplodesOn]
  split
  · next threshold cap hmodifier =>
    rw [hmodifier]
    constructor
    · exact fun h => ⟨threshold, cap, rfl, of_decide_eq_true h⟩
    · rintro ⟨_, _, ⟨⟩, hle⟩
      exact decide_eq_true hle
  · next hother =>
    constructor
    · exact fun h => absurd h Bool.false_ne_true
    · rintro ⟨threshold, cap, hmodifier, -⟩
      exact absurd hmodifier (hother threshold cap)

/-- The first of some items, as many as a limit allows. -/
def shownItems {α : Type} (limit : Option Nat) (items : List α) : List α :=
  items.take (limit.getD items.length)

/-- The note on the number of items beyond a limit, if there are any. -/
def moreParts (limit : Option Nat) (total : Nat) : List Part :=
  if limit.getD total < total then [.more (total - limit.getD total)] else []

/-- The dice that a description takes are the ones that it is to show. -/
theorem takeUpTo_eq {α : Type} (limit : Option Nat) (items : List α) :
    takeUpTo limit items = shownItems limit items := by
  cases limit with
  | none => exact List.take_length.symm
  | some count => rfl

/-- The part for the dice that are left out has the text of their note. -/
theorem map_text_moreParts (limit : Option Nat) (total : Nat) :
    (moreParts limit total).map Part.text = moreNote limit total := by
  cases limit with
  | none => rw [moreParts, Option.getD_none, if_neg (Nat.lt_irrefl total), moreNote, List.map_nil]
  | some count =>
    rw [moreParts, Option.getD_some, moreNote]
    split <;> rfl

/-- The list of dice in a description, each shown as a part, and the note on the others. -/
def listParts (part : Die → Part) (limit : Option Nat) (rolls : List Die) : List Part :=
  (shownItems limit rolls).map part ++ moreParts limit rolls.length

/-- If the dice are described by their parts, so is the list. -/
theorem map_text_listParts {part : Die → Part} {describeDie : Die → String}
    (h : ∀ die, (part die).text = describeDie die) (limit : Option Nat) (rolls : List Die) :
    (listParts part limit rolls).map Part.text =
      (takeUpTo limit rolls).map describeDie ++ moreNote limit rolls.length := by
  rw [listParts, List.map_append, map_text_moreParts, List.map_map, takeUpTo_eq]
  exact congrArg (· ++ _) (List.map_congr_left fun die _ => h die)

/-- Without a limit every die is listed, and there is no note. -/
theorem listParts_none (part : Die → Part) (rolls : List Die) :
    listParts part none rolls = rolls.map part := by
  rw [listParts, shownItems, moreParts, Option.getD_none, List.take_length,
    if_neg (Nat.lt_irrefl _), List.append_nil]

/-- Every die is related to the part that shows it. -/
theorem forall₂_map_part {related : Die → Part → Prop} {part : Die → Part}
    (h : ∀ die, related die (part die)) (rolls : List Die) :
    List.Forall₂ related rolls (rolls.map part) :=
  List.forall₂_map_right_iff.2 (List.forall₂_same.2 fun die _ => h die)

/-! ## Rolled dice -/

namespace Rolled

/-- The part of a description that shows a die. -/
def part (rolled : Rolled) (die : Die) : Part :=
  .die (if die.isKept then if rolled.isExplosive die then .italic else .plain else .struck)
    die.value

/-- The part of a die is its description. -/
theorem text_part (rolled : Rolled) (die : Die) :
    (rolled.part die).text = rolled.describeDie die := by
  rw [part, describeDie]
  cases hkept : die.isKept with
  | false =>
    rw [Die.text, hkept]
    rfl
  | true =>
    cases rolled.isExplosive die with
    | false => exact (congrArg (· ++ "") String.empty_append).trans String.append_empty
    | true => rfl

/-- A die as a part of the description of the dice. -/
structure ShownAs (rolled : Rolled) (die : Die) (part : Part) : Prop where
  /-- Its value is shown. -/
  value : part.value? = some die.value
  /-- It is struck through exactly if it is dropped. -/
  struck : part.isStruck = true ↔ die.isKept = false
  /-- It is in italics exactly if it is kept and explodes. -/
  italic : part.isItalic = true ↔ die.isKept = true ∧ rolled.dice.ExplodesOn die.value
  /-- It is not in bold. -/
  notBold : part.isBold = false

/-- A die of a set is shown as its part. -/
theorem shownAs_part (rolled : Rolled) (die : Die) : rolled.ShownAs die (rolled.part die) := by
  have hexplosive : rolled.isExplosive die = true ↔ rolled.dice.ExplodesOn die.value :=
    isExplosive_iff
  cases hkept : die.isKept with
  | false =>
    have hdropped : ¬ die.isKept = true := by rw [hkept]; exact Bool.false_ne_true
    rw [part, if_neg hdropped]
    exact ⟨rfl, iff_of_true rfl hkept, iff_of_false Bool.false_ne_true fun h => hdropped h.1, rfl⟩
  | true =>
    have hstays : ¬ die.isKept = false := by rw [hkept]; exact Bool.noConfusion
    rw [part, if_pos hkept]
    split
    · next h =>
      exact ⟨rfl, iff_of_false Bool.false_ne_true hstays,
        iff_of_true rfl ⟨hkept, hexplosive.1 h⟩, rfl⟩
    · next h =>
      exact ⟨rfl, iff_of_false Bool.false_ne_true hstays,
        iff_of_false Bool.false_ne_true fun h' => h (hexplosive.2 h'.2), rfl⟩

/-- Dice that are shown by the same part agree on the value and on whether they are kept. -/
theorem ShownAs.agree {rolled other : Rolled} {die die' : Die} {part : Part}
    (h : rolled.ShownAs die part) (h' : other.ShownAs die' part) :
    die.value = die'.value ∧ die.isKept = die'.isKept := by
  have hvalue : some die.value = some die'.value := h.value.symm.trans h'.value
  have hkept : die.isKept = false ↔ die'.isKept = false := h.struck.symm.trans h'.struck
  refine ⟨Option.some.inj hvalue, ?_⟩
  rw [Bool.eq_iff_iff, ← not_iff_not, Bool.not_eq_true, Bool.not_eq_true]
  exact hkept

/-- Rolled dice are a lone kept die, or they are not. -/
theorem lone_or_list (rolled : Rolled) :
    (∃ die, rolled.rolls = [die] ∧ die.isKept = true) ∨
      ∀ die, rolled.rolls = [die] → die.isKept = false := by
  by_cases hlone : ∃ die, rolled.rolls = [die] ∧ die.isKept = true
  · exact .inl hlone
  · exact .inr fun die hrolls => Bool.eq_false_iff.2 fun hkept => hlone ⟨die, hrolls, hkept⟩

/-- A lone kept die is described as one. -/
theorem describe_eq_lone {rolled : Rolled} {die : Die} (h : rolled.rolls = [die])
    (hkept : die.isKept = true) (limit : Option Nat) :
    rolled.describe limit = (DiceReport.lone die.value).text := by
  have hopening : "(**" = "(" ++ "**" := by decide
  have hclosing : "**)" = "**" ++ ")" := by decide
  simp only [describe, h, hkept, if_true, DiceReport.text, Part.text, Emphasis.marks, hopening,
    hclosing, String.append_assoc]

/-- All other sets are described as a list of parts with their total. -/
theorem describe_eq_list {rolled : Rolled}
    (h : ∀ die, rolled.rolls = [die] → die.isKept = false) (limit : Option Nat) :
    rolled.describe limit =
      (DiceReport.list (listParts rolled.part limit rolled.rolls) rolled.shownTotal).text := by
  rw [DiceReport.text, listing, map_text_listParts rolled.text_part, describe]
  split
  · next die hrolls =>
    rw [if_neg]
    rw [h die hrolls]
    exact Bool.false_ne_true
  · rfl

/-- A full description tells the values of all dice and which of them are kept. -/
theorem agree_of_describe_eq {rolled other : Rolled}
    (h : rolled.describe none = other.describe none) :
    List.Forall₂ (fun die die' => die.value = die'.value ∧ die.isKept = die'.isKept)
      rolled.rolls other.rolls := by
  rcases rolled.lone_or_list with ⟨die, hrolls, hkept⟩ | hlist <;>
    rcases other.lone_or_list with ⟨die', hrolls', hkept'⟩ | hlist'
  · rw [describe_eq_lone hrolls hkept, describe_eq_lone hrolls' hkept'] at h
    have hvalue := DiceReport.lone.inj (DiceReport.text_injective h)
    rw [hrolls, hrolls']
    exact .cons ⟨hvalue, hkept.trans hkept'.symm⟩ .nil
  · rw [describe_eq_lone hrolls hkept, describe_eq_list hlist'] at h
    cases DiceReport.text_injective h
  · rw [describe_eq_list hlist, describe_eq_lone hrolls' hkept'] at h
    cases DiceReport.text_injective h
  · rw [describe_eq_list hlist, describe_eq_list hlist', listParts_none, listParts_none] at h
    have hparts := (DiceReport.list.inj (DiceReport.text_injective h)).1
    have hshown := forall₂_map_part rolled.shownAs_part rolled.rolls
    rw [hparts] at hshown
    have hagree := forall₂_trans hshown (forall₂_map_part other.shownAs_part other.rolls).flip
    exact hagree.imp fun die die' ⟨part, hdie, hdie'⟩ => hdie.agree hdie'

/-- The description of rolled dice with at most some number of them listed. -/
structure Described (rolled : Rolled) (limit : Option Nat) : Prop where
  /-- A lone kept die is shown as its value in bold. -/
  lone : ∀ die, rolled.rolls = [die] → die.isKept = true →
    rolled.describe limit = (DiceReport.lone die.value).text
  /-- Otherwise the first dice are listed in the order rolled, as many as the limit allows, then the
  number of the others, if there are any, and the total of all kept dice. -/
  list : (∀ die, rolled.rolls = [die] → die.isKept = false) →
    ∃ parts, List.Forall₂ rolled.ShownAs (shownItems limit rolled.rolls) parts ∧
      rolled.describe limit =
        (DiceReport.list (parts ++ moreParts limit rolled.rolls.length)
          (rolled.keptValues.map UInt32.toNat).sum).text
  /-- The dice are worth this total. -/
  value : ∃ z : Int64, (Evaluated.dice rolled).value = .ok (.number (.integer z)) ∧
    z.toInt = (rolled.keptValues.map UInt32.toNat).sum

/-- A set of bounded size is described. -/
theorem described_of_length {rolled : Rolled} (hsize : rolled.rolls.length ≤ maxRolls)
    (limit : Option Nat) : rolled.Described limit := by
  refine ⟨fun die hrolls hkept => describe_eq_lone hrolls hkept limit, fun hlist => ?_, ?_⟩
  · refine ⟨_, forall₂_map_part rolled.shownAs_part _, ?_⟩
    rw [describe_eq_list hlist, shownTotal_eq hsize, keptSum_eq_sum, listParts]
  · rw [← keptSum_eq_sum]
    exact Evaluated.exists_value_dice hsize

end Rolled

/-! ## Checks -/

namespace RolledCheck

/-- The part of a description that shows a die. -/
def part (check : RolledCheck) (die : Die) : Part :=
  .die (if check.isHit die then if check.rolled.isExplosive die then .boldItalic else .bold
    else .struck) die.value

/-- The part of a die of a check is its description. -/
theorem text_part (check : RolledCheck) (die : Die) :
    (check.part die).text = check.describeDie die := by
  rw [part, describeDie]
  cases hhit : check.isHit die with
  | false => rfl
  | true =>
    have hkept : die.isKept = true := (Bool.and_eq_true_iff.1 hhit).1
    rw [Rolled.describeDie, hkept]
    cases check.rolled.isExplosive die with
    | false => rfl
    | true =>
      have hopening : "**_" = "**" ++ "_" := by decide
      have hclosing : "_**" = "_" ++ "**" := by decide
      change "**_" ++ toString die.value ++ "_**" =
        "**" ++ ("_" ++ toString die.value ++ "_") ++ "**"
      rw [hopening, hclosing]
      simp only [String.append_assoc]

/-- A die as a part of the description of a check. -/
structure ShownAs (check : RolledCheck) (die : Die) (part : Part) : Prop where
  /-- Its value is shown. -/
  value : part.value? = some die.value
  /-- It is in bold exactly if it is kept and meets the condition. -/
  bold : part.isBold = true ↔ die.isKept = true ∧ check.condition.holds die.value = true
  /-- Otherwise it is struck through. -/
  struck : part.isStruck = !part.isBold

/-- A die of a check is shown as its part. -/
theorem shownAs_part (check : RolledCheck) (die : Die) : check.ShownAs die (check.part die) := by
  have hhit : check.isHit die = true ↔
      die.isKept = true ∧ check.condition.holds die.value = true :=
    Bool.and_eq_true_iff
  rw [part]
  split
  · next h => split <;> exact ⟨rfl, iff_of_true rfl (hhit.1 h), rfl⟩
  · next h => exact ⟨rfl, iff_of_false Bool.false_ne_true fun h' => h (hhit.2 h'), rfl⟩

/-- The hits of some dice are those that are shown in bold. -/
theorem countP_isBold {check : RolledCheck} {rolls : List Die} {parts : List Part}
    (h : List.Forall₂ check.ShownAs rolls parts) :
    parts.countP Part.isBold = rolls.countP check.isHit := by
  induction h with
  | nil => rfl
  | @cons die part _ _ hfirst _ ih =>
    have hsame : part.isBold = check.isHit die :=
      Bool.eq_iff_iff.2 (hfirst.bold.trans Bool.and_eq_true_iff.symm)
    rw [List.countP_cons, List.countP_cons, ih, hsame]

/-- A check is described as a list of parts with its hits. -/
theorem describe_eq_list (check : RolledCheck) (limit : Option Nat) :
    check.describe limit =
      (CheckReport.mk (listParts check.part limit check.rolled.rolls) check.count).text := by
  rw [CheckReport.text, listing, map_text_listParts check.text_part, describe, hitsText]
  simp only [String.append_assoc]

/-- The hits that are shown are what a check is worth. -/
theorem exists_value_eq_count (check : RolledCheck) :
    ∃ z : Int64, (Evaluated.check check).value = .ok (.number (.integer z)) ∧
      z.toInt = check.count := by
  have hcount : check.count ≤ 2 ^ 32 - 1 := Nat.min_le_right _ _
  obtain ⟨z, hz, hexact⟩ := Number.exists_ofInt (Number.fits_natCast (n := check.count) (by omega))
  refine ⟨z, ?_, hexact⟩
  rw [Evaluated.value, hz]
  rfl

/-- The description of a check with at most some number of its dice listed. -/
structure Described (check : RolledCheck) (limit : Option Nat) : Prop where
  /-- The first dice are listed in the order rolled, as many as the limit allows, then the number of
  the others, if there are any, and the number of hits. Without a limit it is the number of values
  in bold, unless there are more dice than 32 bits can count. -/
  list : ∃ parts, List.Forall₂ check.ShownAs (shownItems limit check.rolled.rolls) parts ∧
    check.describe limit =
      (CheckReport.mk (parts ++ moreParts limit check.rolled.rolls.length) check.count).text ∧
    (limit = none → check.rolled.rolls.length < 2 ^ 32 → parts.countP Part.isBold = check.count)
  /-- The check is worth this number of hits. -/
  value : ∃ z : Int64, (Evaluated.check check).value = .ok (.number (.integer z)) ∧
    z.toInt = check.count

/-- Every check is described. -/
theorem described (check : RolledCheck) (limit : Option Nat) : check.Described limit := by
  refine ⟨⟨_, forall₂_map_part check.shownAs_part _, check.describe_eq_list limit, ?_⟩,
    check.exists_value_eq_count⟩
  rintro rfl hsize
  have hhits : check.rolled.rolls.countP check.isHit ≤ check.rolled.rolls.length :=
    List.countP_le_length
  have hcount : check.count = check.rolled.rolls.countP check.isHit := by
    apply Nat.min_eq_left
    change _ ≤ 2 ^ 32 - 1
    omega
  rw [countP_isBold (forall₂_map_part check.shownAs_part _), hcount, shownItems, Option.getD_none,
    List.take_length]

end RolledCheck

/-- Dice without their modifier are never too many to be described. -/
theorem Dice.always_size_rollPlain (dice : Dice) :
    dice.rollPlain.Always fun rolled => rolled.rolls.length ≤ maxRolls := by
  refine dice.always_length_rollPlain.imp fun rolled ⟨_, hmax, hlength⟩ => ?_
  have hcount : dice.count.toNat ≤ 1000 := UInt32.le_iff_toNat_le.mp hmax
  rw [hlength, maxRolls]
  omega

/-- The dice of a check are never too many to be described. -/
theorem Check.always_size_roll (check : Check) :
    check.roll.Always fun rolled => rolled.rolled.rolls.length ≤ maxRolls :=
  check.dice.always_length_roll.bind fun _ hrolled => hrolled.2

/-- Descriptions are read back. What they tell is determined by their texts, and it is what was
rolled: the first dice, as many as the limit allows, each with the marks that it deserves, the
number of the others, and the total that the dice are worth. Full descriptions are the same only if
the values and the drops of all dice are. A check tells in the same way which dice are hits and how
many hits it is worth, and without a limit so many values are in bold. -/
theorem described_of_rolled {σ : Type} (source : Source σ) (state : σ) :
    (Function.Injective DiceReport.text ∧ Function.Injective CheckReport.text) ∧
    (∀ (dice : Dice) (rolled : Rolled), (dice.roll.run source state).result = .ok rolled ∨
      (dice.rollPlain.run source state).result = .ok rolled → ∀ limit, rolled.Described limit) ∧
    (∀ rolled other : Rolled, rolled.describe none = other.describe none →
      List.Forall₂ (fun die die' => die.value = die'.value ∧ die.isKept = die'.isKept)
        rolled.rolls other.rolls) ∧
    (∀ (check : RolledCheck) (limit : Option Nat), check.Described limit) ∧
    ∀ (check : Check) (rolled : RolledCheck), (check.roll.run source state).result = .ok rolled →
      ∃ parts, List.Forall₂ rolled.ShownAs rolled.rolled.rolls parts ∧
        rolled.describe none = (CheckReport.mk parts rolled.count).text ∧
        parts.countP Part.isBold = rolled.count := by
  refine ⟨⟨DiceReport.text_injective, CheckReport.text_injective⟩, ?_,
    fun _ _ => Rolled.agree_of_describe_eq, RolledCheck.described, ?_⟩
  · rintro dice rolled (hrolled | hrolled) limit
    · exact Rolled.described_of_length (dice.always_length_roll.run source state hrolled).2 limit
    · exact Rolled.described_of_length (dice.always_size_rollPlain.run source state hrolled) limit
  · intro check rolled hrolled
    have hbounded := check.always_size_roll.run source state hrolled
    obtain ⟨parts, hparts, htext, hbold⟩ := (rolled.described none).list
    have hsize : rolled.rolled.rolls.length < 2 ^ 32 := hbounded.trans_lt (by decide)
    rw [shownItems, Option.getD_none, List.take_length] at hparts
    rw [moreParts, Option.getD_none, if_neg (Nat.lt_irrefl _), List.append_nil] at htext
    exact ⟨parts, hparts, htext, hbold rfl hsize⟩

/-- A six explodes and is in italics, whatever the limit the total is that of all three dice, and
nothing tells that the last one was added. Of three dice the lowest is dropped, and the other two
are hits. -/
theorem described_of_rolled_explode :
    let dice : Dice := ⟨2, 6, some (.explode 6 100)⟩
    let rolled : Rolled := ⟨dice, [⟨6, none, none⟩, ⟨2, none, none⟩,
      ⟨3, some (.explode 6 100), none⟩]⟩
    let other : Rolled := ⟨dice, [⟨6, none, none⟩, ⟨2, none, none⟩, ⟨3, none, none⟩]⟩
    let check : Check := ⟨⟨3, 6, some (.keepHighest 2)⟩, ⟨.atLeast, 5⟩⟩
    ((dice.roll.run Supply.source (.listed [6, 2, 3])).result = .ok rolled ∧
      rolled.Described (some 2) ∧ rolled.describe (some 2) = "(_6_ + 2 + 1 more... => **11**)") ∧
    (rolled.describe none = other.describe none ∧
      List.Forall₂ (fun die die' => die.value = die'.value ∧ die.isKept = die'.isKept)
        rolled.rolls other.rolls) ∧
    ∃ hits : RolledCheck, (check.roll.run Supply.source (.listed [6, 2, 5])).result = .ok hits ∧
      hits.describe none = "(**6** ~~2~~ **5** => **2 hits**)" ∧
      ∃ parts, List.Forall₂ hits.ShownAs hits.rolled.rolls parts ∧
        hits.describe none = (CheckReport.mk parts hits.count).text ∧
        parts.countP Part.isBold = hits.count := by
  intro dice rolled other check
  have hrolled : (dice.roll.run Supply.source (.listed [6, 2, 3])).result = .ok rolled := by cbv
  have hsame : rolled.describe none = other.describe none := by rfl
  obtain ⟨-, hdescribed, hagree, -, -⟩ := described_of_rolled Supply.source (.listed [6, 2, 3])
  obtain ⟨-, -, -, -, hchecked⟩ := described_of_rolled Supply.source (.listed [6, 2, 5])
  refine ⟨⟨hrolled, hdescribed dice rolled (.inl hrolled) (some 2), by decide +kernel⟩,
    ⟨hsame, hagree rolled other hsame⟩, ?_⟩
  obtain ⟨hits, hhits, htext⟩ : ∃ hits : RolledCheck,
      (check.roll.run Supply.source (.listed [6, 2, 5])).result = .ok hits ∧
        hits.describe none = "(**6** ~~2~~ **5** => **2 hits**)" :=
    ⟨⟨⟨⟨3, 6, some (.keepHighest 2)⟩, [⟨6, none, none⟩, ⟨2, none, some (.keepHighest 2)⟩,
      ⟨5, none, none⟩]⟩, ⟨.atLeast, 5⟩⟩, by cbv, by rfl⟩
  exact ⟨hits, hhits, htext, hchecked check hits hhits⟩

end DiceNotation
