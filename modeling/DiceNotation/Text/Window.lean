import DiceNotation.Text.Position

/-!
# Windows on a position

A window shows the line around a position, cut to some number of characters on either side, and
a caret on the line below, under the character at the position.
-/

namespace DiceNotation.Text

/-- The last line of a text, cut to its last `width` characters. -/
def lastLine (width : Nat) (text : List Char) : List Char :=
  ((text.reverse.take width).takeWhile (· ≠ '\n')).reverse

/-- The first line of a text, cut to its first `width` characters. -/
def firstLine (width : Nat) (text : List Char) : List Char :=
  (text.take width).takeWhile (· ≠ '\n')

/-- The part of the line around a byte position that lies within `width` characters of it, and a
caret below the position. -/
def window (text : List Char) (position width : Nat) : List Char :=
  let (before, after) := splitAtByte text position
  let left := lastLine width before
  left ++ firstLine width after ++ '\n' :: List.replicate left.length ' ' ++ ['^', '\n']

end DiceNotation.Text
