import DiceNotation.Dice.Roll
import DiceNotation.Proofs.Fallible
import DiceNotation.Proofs.Runs

/-!
# Marks on dice

Modifiers only write on dice. A die keeps its value and the mark of the modifier that added it, and
a die that is dropped keeps the mark of the modifier that dropped it. No mark is put twice: only
dice that were just rolled are marked as added, and only dice that are kept are marked as dropped.
-/

namespace DiceNotation

/-- A die as some modifiers may leave it: with the same value and the same mark of the modifier that
added it, and dropped as it was before, or by one of these modifiers. -/
structure Die.Persists (modifiers : List Modifier) (die later : Die) : Prop where
  /-- The value stays. -/
  value : later.value = die.value
  /-- The mark of the modifier that added the die stays. -/
  addedBy : later.addedBy = die.addedBy
  /-- A dropped die stays dropped, with the same mark. -/
  dropped : die.isKept = false → later.droppedBy = die.droppedBy
  /-- A die that is dropped now was dropped before, or is marked with one of the modifiers. -/
  marked : later.isKept = false → die.isKept = false ∨
    ∃ modifier ∈ modifiers, later.droppedBy = some modifier

namespace Die.Persists

variable {modifiers others : List Modifier} {die later last : Die}

/-- A die that is left alone persists. -/
theorem refl (modifiers : List Modifier) (die : Die) : die.Persists modifiers die :=
  ⟨rfl, rfl, fun _ => rfl, .inl⟩

/-- A die that persists under some modifiers persists under more of them. -/
theorem mono (h : die.Persists modifiers later) (hsub : modifiers ⊆ others) :
    die.Persists others later := by
  refine ⟨h.value, h.addedBy, h.dropped, fun hlater => ?_⟩
  exact (h.marked hlater).imp_right fun ⟨modifier, hmem, hmark⟩ => ⟨modifier, hsub hmem, hmark⟩

/-- A die persists through one modifier after another. -/
theorem trans (h : die.Persists modifiers later) (h' : later.Persists modifiers last) :
    die.Persists modifiers last := by
  have hstays : later.isKept = false → last.droppedBy = later.droppedBy := h'.dropped
  refine ⟨h'.value.trans h.value, h'.addedBy.trans h.addedBy, fun hdie => ?_, fun hlast => ?_⟩
  · have hlater : later.isKept = false := by
      rw [isKept, h.dropped hdie]
      exact hdie
    rw [hstays hlater, h.dropped hdie]
  · rcases h'.marked hlast with hlater | hmark
    · rw [hstays hlater]
      exact h.marked hlater
    · exact .inr hmark

end Die.Persists

/-- Dice that are left alone persist. -/
theorem forall₂_persists_refl (modifiers : List Modifier) (rolls : List Die) :
    List.Forall₂ (Die.Persists modifiers) rolls rolls :=
  List.forall₂_same.2 fun die _ => .refl modifiers die

/-! ## Dropping at places -/

/-- A die as it is left when the dice at some places are dropped. -/
def dropAt (modifier : Modifier) (places : List Nat) (entry : PlacedDie) : Die :=
  if entry.2 ∈ places then { entry.1 with droppedBy := some modifier } else entry.1

/-- A kept die persists when it is dropped, and any die does when it is not. -/
theorem persists_dropAt {modifier : Modifier} {places : List Nat} {entry : PlacedDie}
    (h : entry.2 ∈ places → entry.1.isKept = true) :
    entry.1.Persists [modifier] (dropAt modifier places entry) := by
  rw [dropAt]
  split
  · rename_i hplace
    refine ⟨rfl, rfl, fun hdropped => ?_,
      fun _ => .inr ⟨modifier, List.mem_singleton_self modifier, rfl⟩⟩
    rw [h hplace] at hdropped
    cases hdropped
  · exact .refl [modifier] entry.1

/-- Dice at places where only kept dice stand can be dropped; the others are left alone. -/
theorem dropPlaces_eq {modifier : Modifier} {places : List Nat} {start : Nat} {rolls : List Die}
    (h : ∀ entry ∈ rolls.zipIdx start, entry.2 ∈ places → entry.1.isKept = true) :
    dropPlaces modifier places start rolls =
      .ok ((rolls.zipIdx start).map (dropAt modifier places)) := by
  induction rolls generalizing start with
  | nil => rfl
  | cons die rolls ih =>
    rw [List.zipIdx_cons] at h ⊢
    obtain ⟨hdie, hrolls⟩ := List.forall_mem_cons.1 h
    rw [dropPlaces, ih hrolls, List.map_cons]
    by_cases hplace : start ∈ places
    · have hdrop : die.drop modifier = .ok { die with droppedBy := some modifier } :=
        if_pos (hdie hplace)
      rw [if_pos (List.contains_iff_mem.2 hplace), hdrop, dropAt, if_pos hplace]
      rfl
    · rw [if_neg fun hmem => hplace (List.contains_iff_mem.1 hmem), dropAt, if_neg hplace]
      rfl

/-! ## Keeping the first of a ranking -/

/-- The kept dice of a list with their places. -/
def keptEntries (rolls : List Die) : List PlacedDie :=
  rolls.zipIdx.filter fun entry => entry.1.isKept

/-- The kept entries are the kept dice, each with its place. -/
theorem mem_keptEntries {rolls : List Die} {entry : PlacedDie} :
    entry ∈ keptEntries rolls ↔ rolls[entry.2]? = some entry.1 ∧ entry.1.isKept = true := by
  rw [keptEntries, List.mem_filter, ← List.mk_mem_zipIdx_iff_getElem?]

/-- A ranking puts the kept dice in another order. -/
theorem ranking_perm (order : Die → Die → Bool) (rolls : List Die) :
    (ranking order rolls).Perm (keptEntries rolls) :=
  List.mergeSort_perm _ _

/-- The places of the dice that are ranked behind the first ones. -/
def placesBehind (order : Die → Die → Bool) (count : Nat) (rolls : List Die) :
    List Nat :=
  ((ranking order rolls).drop count).map Prod.snd

/-- Only kept dice are ranked, each of them at the place where it stands. -/
theorem isKept_of_mem_placesBehind {order : Die → Die → Bool} {count : Nat}
    {rolls : List Die} {entry : PlacedDie} (hentry : entry ∈ rolls.zipIdx)
    (hplace : entry.2 ∈ placesBehind order count rolls) :
    entry ∈ (ranking order rolls).drop count ∧ entry.1.isKept = true := by
  obtain ⟨ranked, hranked, hsame⟩ := List.mem_map.1 hplace
  have hkept := (ranking_perm order rolls).mem_iff.1 (List.mem_of_mem_drop hranked)
  have hstands := mem_keptEntries.1 hkept
  rw [hsame, List.mk_mem_zipIdx_iff_getElem?.1 (show (entry.1, entry.2) ∈ _ from hentry)] at hstands
  obtain rfl : ranked = entry := Prod.ext (Option.some.inj hstands.1).symm hsame
  exact ⟨hranked, hstands.2⟩

/-- The first kept dice of a ranking can be kept in any list of dice, whatever marks they have: the
others are dropped where they stand. -/
theorem keepFirst_eq (order : Die → Die → Bool) (modifier : Modifier) (count : Nat)
    (rolls : List Die) :
    keepFirst order modifier count rolls =
      .ok (rolls.zipIdx.map (dropAt modifier (placesBehind order count rolls))) :=
  dropPlaces_eq fun _ hentry hplace => (isKept_of_mem_placesBehind hentry hplace).2

/-- Keeping the first dice of a ranking succeeds, and every die persists. -/
theorem exists_keepFirst (order : Die → Die → Bool) (modifier : Modifier)
    (count : Nat) (rolls : List Die) :
    ∃ marked, keepFirst order modifier count rolls = .ok marked ∧
      List.Forall₂ (Die.Persists [modifier]) rolls marked := by
  refine ⟨_, keepFirst_eq order modifier count rolls, ?_⟩
  have hpersist : List.Forall₂ (Die.Persists [modifier]) (rolls.zipIdx.map Prod.fst)
      (rolls.zipIdx.map (dropAt modifier (placesBehind order count rolls))) := by
    rw [List.forall₂_map_left_iff, List.forall₂_map_right_iff, List.forall₂_same]
    exact fun entry hentry =>
      persists_dropAt fun hplace => (isKept_of_mem_placesBehind hentry hplace).2
  rwa [List.zipIdx_map_fst] at hpersist

/-- Dice persist when the first of a ranking are kept. -/
theorem persist_of_keepFirst {order : Die → Die → Bool} {modifier : Modifier}
    {count : Nat} {rolls marked : List Die}
    (h : keepFirst order modifier count rolls = .ok marked) :
    List.Forall₂ (Die.Persists [modifier]) rolls marked := by
  obtain ⟨_, hmarked, hpersist⟩ := exists_keepFirst order modifier count rolls
  rwa [← Except.ok.inj (h.symm.trans hmarked)] at hpersist

/-! ## New dice -/

/-- A die that was rolled with the first ones. -/
def Die.original (value : UInt32) : Die := { value }

/-- A die that a modifier has just added. -/
def Die.added (modifier : Modifier) (value : UInt32) : Die := ⟨value, some modifier, none⟩

/-- The first dice of a set show the values they were rolled with. -/
theorem map_value_original (values : List UInt32) :
    (values.map Die.original).map Die.value = values := by
  rw [List.map_map]
  exact List.map_id values

/-- Added dice show the values they were rolled with. -/
theorem map_value_added (modifier : Modifier) (values : List UInt32) :
    (values.map (Die.added modifier)).map Die.value = values := by
  rw [List.map_map]
  exact List.map_id values

/-- The first dice of a set are kept at first. -/
theorem isKept_original (values : List UInt32) :
    ∀ die ∈ values.map Die.original, die.isKept = true :=
  List.forall_mem_map.2 fun _ _ => rfl

/-- Added dice are kept. -/
theorem isKept_added (modifier : Modifier) (values : List UInt32) :
    ∀ die ∈ values.map (Die.added modifier), die.isKept = true :=
  List.forall_mem_map.2 fun _ _ => rfl

/-- New dice can be marked as added. -/
theorem addedDice_eq (modifier : Modifier) (values : List UInt32) :
    addedDice modifier values = .ok (values.map (Die.added modifier)) := by
  induction values with
  | nil => rfl
  | cons value values ih =>
    rw [addedDice, ih]
    rfl

/-- Dice with a modifier are rolled as original ones, to which the modifier is applied. -/
theorem Dice.roll_eq {dice : Dice} {modifier : Modifier} (hcount : dice.count ≤ maxDice)
    (hmodifier : dice.modifier = some modifier) :
    dice.roll = .askMany dice.sides dice.count.toNat fun values =>
      modifier.apply ⟨dice, values.map Die.original⟩ := by
  rw [roll, rollPlain, if_neg (UInt32.not_lt.2 hcount), Rolling.askMany_bind, hmodifier]
  rfl

end DiceNotation
