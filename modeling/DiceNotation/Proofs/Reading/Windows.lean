import DiceNotation.Proofs.Reading.Boundaries
import DiceNotation.Text.Window

/-!
# What a window shows

A window shows as much of the line around a position as its width allows: the longest end of the
text before the position and the longest start of the text behind it. So it is a single line, a
piece of the text as it stands there, and the caret on the next line is below the character at the
position, since there are as many blanks before it as characters before the position.
-/

namespace DiceNotation.Text

/-- The longest start of a text that stays on one line and has at most some number of
characters. -/
structure IsLineStart (width : Nat) (text start : List Char) : Prop where
  /-- The text starts with it. -/
  isPrefix : start <+: text
  /-- It is not too long. -/
  length_le : start.length ≤ width
  /-- It stays on one line. -/
  noBreak : '\n' ∉ start
  /-- No other start like this is longer. -/
  longest : ∀ other, other <+: text → other.length ≤ width → '\n' ∉ other →
    other.length ≤ start.length

/-- The longest end of a text that stays on one line and has at most some number of characters. -/
structure IsLineEnd (width : Nat) (text ending : List Char) : Prop where
  /-- The text ends with it. -/
  isSuffix : ending <:+ text
  /-- It is not too long. -/
  length_le : ending.length ≤ width
  /-- It stays on one line. -/
  noBreak : '\n' ∉ ending
  /-- No other end like this is longer. -/
  longest : ∀ other, other <:+ text → other.length ≤ width → '\n' ∉ other →
    other.length ≤ ending.length

/-- A start of a text without line breaks is a start of its first line. -/
theorem isPrefix_takeWhile {text start : List Char} (h : start <+: text) (hbreak : '\n' ∉ start) :
    start <+: text.takeWhile (· ≠ '\n') := by
  have hkeep : ∀ c ∈ start, (decide (c ≠ '\n')) = true :=
    fun c hc => decide_eq_true fun heq => hbreak (heq ▸ hc)
  obtain ⟨rest, rfl⟩ := h
  rw [List.takeWhile_append_of_pos hkeep]
  exact List.prefix_append start _

theorem isLineStart_firstLine (width : Nat) (text : List Char) :
    IsLineStart width text (firstLine width text) where
  isPrefix := (List.takeWhile_prefix _).trans (List.take_prefix width text)
  length_le := (List.takeWhile_prefix _).length_le.trans (List.length_take_le width text)
  noBreak h := of_decide_eq_true (List.all_eq_true.1 List.all_takeWhile '\n' h) rfl
  longest _ hother hlength hbreak :=
    (isPrefix_takeWhile (List.prefix_take_iff.2 ⟨hother, hlength⟩) hbreak).length_le

/-- The last line of a text is the first one of the text read backwards. -/
theorem lastLine_eq (width : Nat) (text : List Char) :
    lastLine width text = (firstLine width text.reverse).reverse := rfl

theorem isLineEnd_lastLine (width : Nat) (text : List Char) :
    IsLineEnd width text (lastLine width text) := by
  have hstart := isLineStart_firstLine width text.reverse
  rw [lastLine_eq]
  refine ⟨?_, ?_, ?_, fun other hother hlength hbreak => ?_⟩
  · rw [← List.reverse_prefix, List.reverse_reverse]
    exact hstart.isPrefix
  · rw [List.length_reverse]
    exact hstart.length_le
  · rw [List.mem_reverse]
    exact hstart.noBreak
  · have hle : other.reverse.length ≤ (firstLine width text.reverse).length := by
      refine hstart.longest other.reverse (List.reverse_prefix.2 hother) ?_ ?_
      · rwa [List.length_reverse]
      · rwa [List.mem_reverse]
    rw [List.length_reverse] at hle ⊢
    exact hle

/-- A text is cut at a byte position, and the line on either side of the cut is shown as far as some
width allows. -/
structure ShowsLine (text : List Char) (position width : Nat)
    (before after left right : List Char) : Prop where
  /-- The text is cut in two. -/
  text_eq : text = before ++ after
  /-- The cut is at the greatest boundary that is neither above the position nor behind the text. -/
  boundary : IsGreatest
    {boundary | IsBoundary text boundary ∧ boundary ≤ min position (byteLength text)}
    (byteLength before)
  /-- Before the cut, as much of the line is shown as fits. -/
  left : IsLineEnd width before left
  /-- Behind the cut, as much of the line is shown as fits. -/
  right : IsLineStart width after right

namespace ShowsLine

variable {text before after left right : List Char} {position width : Nat}

/-- What is shown is a single line. -/
theorem noBreak (h : ShowsLine text position width before after left right) :
    '\n' ∉ left ++ right := by
  rw [List.mem_append, not_or]
  exact ⟨h.left.noBreak, h.right.noBreak⟩

/-- What is shown is at most twice as long as the width. -/
theorem length_le (h : ShowsLine text position width before after left right) :
    (left ++ right).length ≤ 2 * width := by
  have hleft := h.left.length_le
  have hright := h.right.length_le
  rw [List.length_append]
  omega

/-- What is shown stands in the text as it is shown. -/
theorem isInfix (h : ShowsLine text position width before after left right) :
    left ++ right <:+: text := by
  obtain ⟨front, hfront⟩ := h.left.isSuffix
  obtain ⟨behind, hbehind⟩ := h.right.isPrefix
  refine ⟨front, behind, ?_⟩
  rw [h.text_eq, ← hfront, ← hbehind]
  simp only [List.append_assoc]

/-- The character behind the cut is shown behind what is shown of the line before the cut, unless it
ends the line or nothing is to be shown at all. -/
theorem getElem?_left_length (h : ShowsLine text position width before after left right) {c : Char}
    (hc : c ∈ after.head?) (hbreak : c ≠ '\n') (hwidth : 0 < width) :
    (left ++ right)[left.length]? = some c := by
  obtain ⟨rest, hafter⟩ := List.head?_eq_some_iff.1 hc
  have hone : [c].length ≤ right.length := by
    refine h.right.longest [c] ?_ hwidth ?_
    · exact ⟨rest, hafter.symm⟩
    · exact fun hmem => hbreak (List.mem_singleton.1 hmem).symm
  obtain ⟨first, more, rfl⟩ := List.exists_cons_of_length_pos hone
  have hfirst := h.right.isPrefix
  rw [hafter, List.cons_prefix_cons] at hfirst
  rw [List.getElem?_append_right (Nat.le_refl _), Nat.sub_self, hfirst.1]
  rfl

end ShowsLine

/-- A position behind a text is lowered to its end and then to a boundary. -/
theorem isGreatest_byteLength_splitAtByte (text : List Char) (position : Nat) :
    IsGreatest {boundary | IsBoundary text boundary ∧ boundary ≤ min position (byteLength text)}
      (byteLength (splitAtByte text position).1) := by
  have hgreatest := isGreatest_floorBoundary text (min position (byteLength text))
  rwa [floorBoundary_min] at hgreatest

/-- A window is the line around a position as far as it fits, and below it as many blanks as
characters are shown before the position, and a caret. The line is a single one, at most twice as
long as the width and a piece of the text, and the character at the position stands in the column of
the caret. -/
theorem exists_showsLine_window (text : List Char) (position width : Nat) :
    ∃ before after left right, ShowsLine text position width before after left right ∧
      window text position width =
        left ++ right ++ '\n' :: List.replicate left.length ' ' ++ ['^', '\n'] ∧
      '\n' ∉ left ++ right ∧ (left ++ right).length ≤ 2 * width ∧ left ++ right <:+: text ∧
      ∀ c ∈ after.head?, c ≠ '\n' → 0 < width → (left ++ right)[left.length]? = some c := by
  have hshown : ShowsLine text position width (splitAtByte text position).1
      (splitAtByte text position).2 (lastLine width (splitAtByte text position).1)
      (firstLine width (splitAtByte text position).2) :=
    ⟨(splitAtByte_append text position).symm, isGreatest_byteLength_splitAtByte text position,
      isLineEnd_lastLine width _, isLineStart_firstLine width _⟩
  exact ⟨_, _, _, _, hshown, rfl, hshown.noBreak, hshown.length_le, hshown.isInfix,
    fun _ hc hbreak hwidth => hshown.getElem?_left_length hc hbreak hwidth⟩

/-- A position within the three bytes of a sign is lowered to its first one. Of the line, four
characters are shown before it and all that is left behind it. -/
example : String.ofList (window "d6\nfür 3d6 ≥ 5\nd8".toList 14 4) = "3d6 ≥ 5\n    ^\n" := by cbv

end DiceNotation.Text
