import Mathlib.Data.Nat.Find
import Mathlib.Order.Bounds.Basic
import DiceNotation.Text.Position

/-!
# Character boundaries

A byte position is a boundary of a text if the text can be cut there. Every position has a greatest
boundary not above it, which going back byte by byte finds as well, and cutting there gives the
characters before it and behind it.
-/

namespace DiceNotation.Text

/-- A byte position at which a text can be cut: between two characters, or at one of its ends. -/
def IsBoundary (text : List Char) (position : Nat) : Prop :=
  ∃ before after, text = before ++ after ∧ byteLength before = position

/-- These are the valid positions of the text as a string. -/
theorem isBoundary_toList_iff {text : String} {position : Nat} :
    IsBoundary text.toList position ↔ String.Pos.Raw.IsValid text ⟨position⟩ := by
  rw [String.Pos.Raw.isValid_iff_exists_append]
  constructor
  · rintro ⟨before, after, htext, hposition⟩
    refine ⟨.ofList before, .ofList after, ?_, ?_⟩
    · rw [← String.ofList_append, ← htext, String.ofList_toList]
    · have hlength := byteLength_toList (.ofList before)
      rw [String.toList_ofList, hposition] at hlength
      exact congrArg String.Pos.Raw.mk hlength
  · rintro ⟨before, after, rfl, hposition⟩
    refine ⟨before.toList, after.toList, String.toList_append, ?_⟩
    rw [byteLength_toList]
    exact (congrArg String.Pos.Raw.byteIdx hposition).symm

theorem IsBoundary.le_byteLength {text : List Char} {position : Nat}
    (h : IsBoundary text position) : position ≤ byteLength text := by
  obtain ⟨before, after, rfl, rfl⟩ := h
  rw [byteLength_append]
  exact Nat.le_add_right _ _

theorem splitAtByte_zero (text : List Char) : splitAtByte text 0 = ([], text) := by
  cases text with
  | nil => rfl
  | cons c text => exact if_neg (Nat.not_le.2 c.utf8Size_pos)

/-- At a boundary, a text is cut right there. -/
theorem splitAtByte_byteLength (before after : List Char) :
    splitAtByte (before ++ after) (byteLength before) = (before, after) := by
  have hcut := splitAtByte_append_right before after 0
  rwa [splitAtByte_zero, List.append_nil, Nat.add_zero] at hcut

theorem isBoundary_floorBoundary (text : List Char) (position : Nat) :
    IsBoundary text (floorBoundary text position) :=
  ⟨_, _, (splitAtByte_append text position).symm, rfl⟩

/-- No boundary lies between a position and the one to which it is lowered. -/
theorem IsBoundary.le_floorBoundary {text : List Char} {boundary position : Nat}
    (h : IsBoundary text boundary) (hle : boundary ≤ position) :
    boundary ≤ floorBoundary text position := by
  obtain ⟨before, after, rfl, rfl⟩ := h
  obtain ⟨distance, rfl⟩ := Nat.exists_eq_add_of_le hle
  rw [floorBoundary, splitAtByte_append_right, byteLength_append]
  exact Nat.le_add_right _ _

/-- A position is lowered to the greatest boundary not above it. -/
theorem isGreatest_floorBoundary (text : List Char) (position : Nat) :
    IsGreatest {boundary | IsBoundary text boundary ∧ boundary ≤ position}
      (floorBoundary text position) :=
  ⟨⟨isBoundary_floorBoundary text position, floorBoundary_le text position⟩,
    fun _ h => h.1.le_floorBoundary h.2⟩

theorem isBoundary_iff_floorBoundary {text : List Char} {position : Nat} :
    IsBoundary text position ↔ floorBoundary text position = position := by
  constructor
  · exact fun h => Nat.le_antisymm (floorBoundary_le text position)
      (h.le_floorBoundary (Nat.le_refl position))
  · exact fun h => h ▸ isBoundary_floorBoundary text position

instance (text : List Char) : DecidablePred (IsBoundary text) :=
  fun _ => decidable_of_iff _ isBoundary_iff_floorBoundary.symm

/-- Going back byte by byte, from the position or from the end of the text if that comes first,
until a boundary is met finds the same boundary. -/
theorem floorBoundary_eq_findGreatest (text : List Char) (position : Nat) :
    floorBoundary text position =
      Nat.findGreatest (IsBoundary text) (min position (byteLength text)) := by
  symm
  rw [Nat.findGreatest_eq_iff]
  refine ⟨Nat.le_min.2 ⟨floorBoundary_le text position, floorBoundary_le_byteLength text position⟩,
    fun _ => isBoundary_floorBoundary text position, fun boundary hlt hle hboundary => ?_⟩
  exact Nat.not_le.2 hlt (hboundary.le_floorBoundary (Nat.le_min.1 hle).1)

/-- A position behind a text is lowered to its end first. -/
theorem floorBoundary_min (text : List Char) (position : Nat) :
    floorBoundary text (min position (byteLength text)) = floorBoundary text position := by
  rw [floorBoundary_eq_findGreatest, floorBoundary_eq_findGreatest, min_assoc, min_self]

/-- Between two boundaries in order stands what is cut out there. -/
theorem exists_slice {text : List Char} {start stop : Nat} (hstart : IsBoundary text start)
    (hstop : IsBoundary text stop) (hle : start ≤ stop) :
    ∃ front behind, text = front ++ (slice text start stop ++ behind) ∧
      (splitAtByte text start).2 = slice text start stop ++ behind ∧
      byteLength front = start ∧ byteLength front + byteLength (slice text start stop) = stop := by
  obtain ⟨front, rest, rfl, rfl⟩ := hstart
  have hcut : (splitAtByte (front ++ rest) (byteLength front)).2 = rest := by
    rw [splitAtByte_byteLength]
  obtain ⟨distance, rfl⟩ := Nat.exists_eq_add_of_le hle
  have hslice : slice (front ++ rest) (byteLength front) (byteLength front + distance) =
      (splitAtByte rest distance).1 := by
    rw [slice, hcut, Nat.add_sub_cancel_left]
  have hlength : byteLength front + byteLength (splitAtByte rest distance).1 =
      byteLength front + distance := by
    have hfloor := isBoundary_iff_floorBoundary.1 hstop
    rwa [floorBoundary, splitAtByte_append_right, byteLength_append] at hfloor
  rw [hslice, hcut]
  refine ⟨front, (splitAtByte rest distance).2, ?_, ?_, rfl, hlength⟩
  · rw [splitAtByte_append]
  · rw [splitAtByte_append]

end DiceNotation.Text
