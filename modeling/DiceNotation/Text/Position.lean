/-!
# Byte positions

A position in a text is a number of UTF-8 bytes. Any number is accepted: it is lowered to the
greatest character boundary that is neither above it nor beyond the end, so every cut falls
between two characters.
-/

namespace DiceNotation.Text

/-- The number of bytes of a text. -/
def byteLength : List Char → Nat
  | [] => 0
  | c :: text => c.utf8Size + byteLength text

/-- Cuts a text at the greatest character boundary not above a byte position. -/
def splitAtByte : List Char → Nat → List Char × List Char
  | [], _ => ([], [])
  | c :: text, position =>
    if c.utf8Size ≤ position then
      let (before, after) := splitAtByte text (position - c.utf8Size)
      (c :: before, after)
    else ([], c :: text)

/-- The greatest character boundary not above a byte position. -/
def floorBoundary (text : List Char) (position : Nat) : Nat :=
  byteLength (splitAtByte text position).1

/-- The characters between two byte positions. -/
def slice (text : List Char) (start stop : Nat) : List Char :=
  (splitAtByte (splitAtByte text start).2 (stop - start)).1

@[simp] theorem byteLength_append (left right : List Char) :
    byteLength (left ++ right) = byteLength left + byteLength right := by
  induction left with
  | nil => simp [byteLength]
  | cons c left ih => simp [byteLength, ih, Nat.add_assoc]

/-- Cutting loses nothing. -/
theorem splitAtByte_append (text : List Char) (position : Nat) :
    (splitAtByte text position).1 ++ (splitAtByte text position).2 = text := by
  induction text generalizing position with
  | nil => rfl
  | cons c text ih =>
    rw [splitAtByte]
    split
    · simp [ih]
    · rfl

/-- The boundary is not above the position asked for. -/
theorem floorBoundary_le (text : List Char) (position : Nat) :
    floorBoundary text position ≤ position := by
  induction text generalizing position with
  | nil => simp [floorBoundary, splitAtByte, byteLength]
  | cons c text ih =>
    rw [floorBoundary, splitAtByte]
    split
    · have := ih (position - c.utf8Size)
      simp only [floorBoundary] at this
      simp only [byteLength]
      omega
    · simp [byteLength]

/-- The boundary lies within the text. -/
theorem floorBoundary_le_byteLength (text : List Char) (position : Nat) :
    floorBoundary text position ≤ byteLength text := by
  have := congrArg byteLength (splitAtByte_append text position)
  simp only [byteLength_append] at this
  simp only [floorBoundary]
  omega

/-- The bytes of a text are those of its UTF-8 encoding. -/
theorem byteLength_toList (text : String) : byteLength text.toList = text.utf8ByteSize := by
  have hlist : ∀ chars : List Char, byteLength chars = (String.ofList chars).utf8ByteSize := by
    intro chars
    induction chars with
    | nil => rfl
    | cons c chars ih =>
      rw [byteLength, ih, String.ofList_cons, String.utf8ByteSize_append,
        String.utf8ByteSize_singleton]
  rw [hlist, String.ofList_toList]

/-- A cut behind a text leaves it whole. -/
theorem splitAtByte_append_right (front text : List Char) (position : Nat) :
    splitAtByte (front ++ text) (byteLength front + position) =
      (front ++ (splitAtByte text position).1, (splitAtByte text position).2) := by
  induction front with
  | nil => rw [byteLength, Nat.zero_add, List.nil_append, List.nil_append]
  | cons c front ih =>
    have hle : c.utf8Size ≤ byteLength (c :: front) + position := by
      rw [byteLength]
      omega
    have hrest :
        byteLength (c :: front) + position - c.utf8Size = byteLength front + position := by
      rw [byteLength]
      omega
    rw [List.cons_append, splitAtByte, if_pos hle, hrest, ih]
    rfl

/-- The boundaries in a part of a text are those of this part, moved by what stands before it. -/
theorem floorBoundary_append (front behind : List Char) {text : List Char} {position : Nat}
    (h : position ≤ byteLength text) :
    floorBoundary (front ++ (text ++ behind)) (byteLength front + position) =
      byteLength front + floorBoundary text position := by
  rw [floorBoundary, splitAtByte_append_right, byteLength_append]
  suffices hsame : floorBoundary (text ++ behind) position = floorBoundary text position by
    rw [← hsame, floorBoundary]
  induction text generalizing position with
  | nil =>
    rw [byteLength, Nat.le_zero] at h
    subst h
    cases behind with
    | nil => rfl
    | cons c behind =>
      have hpos := c.utf8Size_pos
      rw [List.nil_append, floorBoundary, splitAtByte, if_neg (by omega)]
      rfl
  | cons c text ih =>
    rw [byteLength] at h
    by_cases hc : c.utf8Size ≤ position
    · have hshort : position - c.utf8Size ≤ byteLength text := by omega
      have hrest := ih hshort
      rw [floorBoundary, floorBoundary] at hrest ⊢
      rw [List.cons_append, splitAtByte, splitAtByte, if_pos hc, if_pos hc]
      dsimp only
      rw [byteLength, byteLength, hrest]
    · rw [floorBoundary, floorBoundary, List.cons_append, splitAtByte, splitAtByte, if_neg hc,
        if_neg hc]

end DiceNotation.Text
