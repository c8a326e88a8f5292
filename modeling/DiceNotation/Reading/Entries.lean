import DiceNotation.Reading.Grammar
import DiceNotation.Reading.SyntaxError
import DiceNotation.Text.Cut

/-!
# Entries

A text holds one or more entries separated by commas. A comment may stand before the expression of
an entry, up to a colon, and behind it, from a hash on; a comment before the expression is not
empty, and holds no hash. The entries are read from left to right, and the first error counts. Its
position is that in the whole text.
-/

namespace DiceNotation

open Text

/-- The parts of an entry. -/
structure EntryText where
  /-- The comment before the expression. -/
  before : Option (List Char)
  /-- The text of the expression. -/
  source : List Char
  /-- The comment behind the expression. -/
  after : Option (List Char)
  /-- The byte position of the expression in the entry. -/
  position : Nat

/-- Cuts an entry into its parts. -/
def EntryText.ofPiece (piece : List Char) : EntryText :=
  let (body, after) := match cutAt '#' piece with
    | some (body, comment) => (body, some comment)
    | none => (piece, none)
  match cutAt ':' body with
  | some (c :: comment, source) =>
    ⟨some (c :: comment), source, after, byteLength (c :: comment) + 1⟩
  | _ => ⟨none, body, after, 0⟩

/-- The wording of an error without any failed attempt. -/
def unexplained : String := "invalid dice expression"

/-- Reads an entry of a text that starts at a byte position. -/
def Entry.ofPiece (text : List Char) (position : Nat) (piece : List Char) :
    Except SyntaxError Entry :=
  let parts := EntryText.ofPiece piece
  let origin := position + parts.position
  match Reader.expression.padded.readAll parts.source with
  | .ok node =>
    .ok ⟨parts.before.map String.ofList, node, parts.after.map String.ofList⟩
  | .error (some failure) =>
    .error (.locate text (origin + failure.start) (origin + failure.stop) failure.message)
  | .error none =>
    .error (.locate text origin (origin + byteLength parts.source) unexplained)

/-- Reads the entries of a text from a byte position on. -/
def entriesOfPieces (text : List Char) (position : Nat) :
    List (List Char) → Except SyntaxError (List Entry)
  | [] => .ok []
  | piece :: rest => do
    let entry ← Entry.ofPiece text position piece
    return entry :: (← entriesOfPieces text (position + byteLength piece + 1) rest)

/-- Reads the entries of a text. -/
def readEntries (text : String) : Except SyntaxError (List Entry) :=
  entriesOfPieces text.toList 0 (pieces ',' text.toList)

end DiceNotation
