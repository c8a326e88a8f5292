import DiceNotation.Reading.Failure
import DiceNotation.Text.Blank
import DiceNotation.Text.Position

/-!
# Readers

A reader takes a value off the front of a text or refuses the text. Apart from that it can tell
what it looked for on the way, as a list of notes. What a reader reads never depends on the notes,
so the two are separate functions, and the notes are asked for only when a text is refused.
-/

namespace DiceNotation

open Text

/-- A reader of values of type `α`. -/
structure Reader (α : Type) where
  /-- The value at the front of a text and the text behind it, unless the text is refused. -/
  read : List Char → Option (α × List Char)
  /-- The notes on the way through a text that starts at a byte position. -/
  notes : Nat → List Char → List Note

/-- The byte position of the rest of a text, given the position of the text. -/
def positionOf (position : Nat) (text rest : List Char) : Nat :=
  position + (byteLength text - byteLength rest)

/-- The failure of an attempt at the front of a text. -/
def failureAt (position : Nat) (text : List Char) (expected : List Expectation) : Failure :=
  match text with
  | [] => ⟨position, position, position, expected, none⟩
  | c :: _ => ⟨position, position, position + c.utf8Size, expected, some c⟩

/-- Reads one thing as often as it goes, at most `fuel` times. -/
def readMany {α : Type} (read : List Char → Option (α × List Char)) :
    (fuel : Nat) → List Char → List α × List Char
  | 0, text => ([], text)
  | fuel + 1, text =>
    match read text with
    | some (a, rest) =>
      let (as, rest) := readMany read fuel rest
      (a :: as, rest)
    | none => ([], text)

namespace Reader

variable {α β : Type}

/-- Refuses every text and looks for nothing. -/
def never : Reader α := ⟨fun _ => none, fun _ _ => []⟩

/-- Turns the values that are read into others. -/
def map (f : α → β) (reader : Reader α) : Reader β :=
  ⟨fun text => (reader.read text).map fun (a, rest) => (f a, rest), reader.notes⟩

/-- Reads one thing and then another. -/
def andThen (first : Reader α) (second : Reader β) : Reader (α × β) where
  read text := (first.read text).bind fun (a, rest) =>
    (second.read rest).map fun (b, rest) => ((a, b), rest)
  notes position text := first.notes position text ++
    match first.read text with
    | some (_, rest) => second.notes (positionOf position text rest) rest
    | none => []

/-- Reads one thing or, if that is refused, another. -/
def orElse (first second : Reader α) : Reader α where
  read text := match first.read text with
    | some found => some found
    | none => second.read text
  notes position text := first.notes position text ++
    if (first.read text).isSome then [] else second.notes position text

/-- Reads a thing that may be missing. -/
def optional (reader : Reader α) : Reader (Option α) where
  read text := match reader.read text with
    | some (a, rest) => some (some a, rest)
    | none => some (none, text)
  notes := reader.notes

/-- The notes of reading one thing as often as it goes. -/
def notesMany (reader : Reader α) : (fuel : Nat) → Nat → List Char → List Note
  | 0, _, _ => []
  | fuel + 1, position, text => reader.notes position text ++
    match reader.read text with
    | some (_, rest) => notesMany reader fuel (positionOf position text rest) rest
    | none => []

/-- Reads one thing as often as it goes, which may be never. A text has no room for more things
than it has characters. -/
def many (reader : Reader α) : Reader (List α) where
  read text := some (readMany reader.read text.length text)
  notes position text := reader.notesMany (text.length + 1) position text

/-- Reads one thing with blanks before it and behind it. -/
def padded (reader : Reader α) : Reader α where
  read text := (reader.read (dropBlanks text)).map fun (a, rest) => (a, dropBlanks rest)
  notes position text :=
    reader.notes (positionOf position text (dropBlanks text)) (dropBlanks text)

/-- Gives a construct a name. Where nothing of it was found, the name stands for all that the
construct may start with. -/
def named (name : String) (reader : Reader α) : Reader α where
  read := reader.read
  notes position text := match furthest (reader.notes position text) with
    | none => []
    | some failure =>
      if failure.reached = position then
        [.gathered { failure with expected := [.named name] }]
      else [.gathered failure]

/-- Takes the characters of a word off the front of a text. -/
def dropWord : (word text : List Char) → Option (List Char)
  | [], text => some text
  | _ :: _, [] => none
  | w :: word, c :: text => if w = c then dropWord word text else none

/-- The note of the first character of a word that is not there. -/
def missingInWord : Nat → (word text : List Char) → List Note
  | _, [], _ => []
  | position, w :: _, [] => [.missed (failureAt position [] [.character w])]
  | position, w :: word, c :: text =>
    if w = c then missingInWord (position + c.utf8Size) word text
    else [.missed (failureAt position (c :: text) [.character w])]

/-- Reads a word, which stands for a value. -/
def word (text : String) (meaning : α) : Reader α where
  read input := (dropWord text.toList input).map fun rest => (meaning, rest)
  notes position input := missingInWord position text.toList input

/-- Reads the first of several words that is there. -/
def firstWord : List (String × α) → Reader α
  | [] => never
  | [(text, meaning)] => word text meaning
  | (text, meaning) :: words => (word text meaning).orElse (firstWord words)

/-- Reads one of several characters. An attempt that fails has looked at the character, so it
reached behind it. -/
def oneOf (accepted : List Char) : Reader Char where
  read
    | [] => none
    | c :: rest => if accepted.contains c then some (c, rest) else none
  notes position text :=
    let failure := failureAt position text (accepted.map .character)
    match text with
    | [] => [.missed failure]
    | c :: _ =>
      if accepted.contains c then [] else [.missed { failure with reached := failure.stop }]

/-- Whether a character may start a number that is not zero. -/
def isLeadingDigit (c : Char) : Bool := c.isDigit && c ≠ '0'

/-- Reads the digits of a whole number without superfluous zeros. Once a number that is not zero
has been read, all notes before it are settled. -/
def whole : Reader String where
  read
    | [] => none
    | c :: rest =>
      if isLeadingDigit c then
        some (String.ofList (c :: rest.takeWhile Char.isDigit), rest.dropWhile Char.isDigit)
      else if c = '0' then some ("0", rest)
      else none
  notes position text :=
    let zero := Note.missed (failureAt position text [.character '0'])
    match text with
    | [] => [.missed (failureAt position text []), zero]
    | c :: _ =>
      if isLeadingDigit c then [.settled]
      else if c = '0' then [.gathered (failureAt position text [])]
      else [.gathered (failureAt position text []), zero]

/-- Reads the digits of a whole number other than zero. -/
def positive : Reader String :=
  named "positive integer"
    { read := fun text => (whole.read text).filter fun (digits, _) => digits ≠ "0"
      notes := whole.notes }

/-- The note of a missing digit. -/
def missingDigit (position : Nat) (text : List Char) : List Note :=
  match text with
  | [] => [.missed (failureAt position text [])]
  | _ => [.gathered (failureAt position text [])]

/-- Reads one or more digits. -/
def digits : Reader String where
  read text :=
    match text.takeWhile Char.isDigit with
    | [] => none
    | first :: more => some (String.ofList (first :: more), text.dropWhile Char.isDigit)
  notes position text :=
    let rest := text.dropWhile Char.isDigit
    missingDigit (positionOf position text rest) rest

/-- Reads the end of a text. -/
def finish : Reader Unit where
  read
    | [] => some ((), [])
    | _ => none
  notes position
    | [] => []
    | text => [.missed (failureAt position text [.endOfInput])]

/-- The value of a whole text, or what is left of the notes. -/
def readAll (reader : Reader α) (text : List Char) : Except (Option Failure) α :=
  match (reader.andThen finish).read text with
  | some ((a, _), _) => .ok a
  | none => .error (furthest ((reader.andThen finish).notes 0 text))

end Reader

end DiceNotation
