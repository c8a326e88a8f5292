import DiceNotation.Text.Window

/-!
# Syntax errors

A syntax error says what was found and what was expected, and where. Its span is lowered to
character boundaries of the text, its excerpt shows the text there, and a window shows the line
around it.
-/

namespace DiceNotation

open Text

/-- An error in the form of a text. -/
structure SyntaxError where
  /-- What was found and what was expected. -/
  description : String
  /-- The byte position at which the error starts. -/
  start : Nat
  /-- The byte position at which the error stops. -/
  stop : Nat
  /-- The text in the span, or the character behind it if the span is empty. -/
  excerpt : String
  /-- The line around the error, and a caret below the start of the error. -/
  window : String
deriving DecidableEq, Repr

namespace SyntaxError

/-- The number of characters shown on either side of an error. -/
def windowWidth : Nat := 20

/-- What is shown of a span: its text, or the next character if it is empty. -/
def excerptOf (text : List Char) (start stop : Nat) : String :=
  match slice text start stop, (splitAtByte text start).2 with
  | [], [] => "end of input"
  | [], next :: _ => String.singleton next
  | shown, _ => String.ofList shown

/-- The error at a span of a text. The span may be any two numbers: the stop is raised to the start
if it is smaller, and both are lowered to character boundaries. -/
def locate (text : List Char) (start stop : Nat) (description : String) : SyntaxError :=
  let first := floorBoundary text start
  let last := floorBoundary text (max stop first)
  { description
    start := first
    stop := last
    excerpt := excerptOf text first last
    window := String.ofList (Text.window text first windowWidth) }

/-- The wording of a syntax error. -/
def message (error : SyntaxError) : String :=
  "syntax error at \"" ++ error.excerpt ++ "\": " ++ error.description

end SyntaxError

end DiceNotation
