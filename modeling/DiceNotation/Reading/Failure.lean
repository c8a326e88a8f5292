/-!
# Failures of reading

While a text is read, every attempt that fails is noted with the place it reached. Notes at a
farther place replace earlier ones, and notes at the same place add to what was expected there, so
what is left in the end tells best why the text could not be read. Some readings settle what came
before them, and then all is forgotten.
-/

namespace DiceNotation

/-- Something that a reader looks for. -/
inductive Expectation where
  /-- A single character. -/
  | character (c : Char)
  /-- A construct with a name. -/
  | named (name : String)
  /-- The end of the text. -/
  | endOfInput
deriving DecidableEq, Repr

/-- A failed attempt: the byte position it reached, the span and the character that stopped it,
and what was expected instead. At the end of the text there is no character, and the span is
empty. -/
structure Failure where
  /-- How far the attempt came. -/
  reached : Nat
  /-- The byte position at which the span starts. -/
  start : Nat
  /-- The byte position at which the span stops. -/
  stop : Nat
  /-- What was expected, in the order in which it was looked for. -/
  expected : List Expectation
  /-- The character found. -/
  found : Option Char
deriving DecidableEq, Repr

/-- What a reader notes on its way. -/
inductive Note where
  /-- A single attempt failed. -/
  | missed (failure : Failure)
  /-- A group of attempts failed, and this is what they amount to. -/
  | gathered (failure : Failure)
  /-- All that was noted before is settled. -/
  | settled
deriving DecidableEq, Repr

/-- Adds the items that a list of expectations lacks. -/
def addExpected (expected : List Expectation) : List Expectation → List Expectation
  | [] => expected
  | item :: items =>
    addExpected (if expected.contains item then expected else expected ++ [item]) items

/-- Joins two lists of expectations, starting from the longer one. -/
def joinExpected (old new : List Expectation) : List Expectation :=
  if old.length < new.length then addExpected new old else addExpected old new

/-- Takes a failure in: it counts if it reached farther than the old one, and if it reached as far
its expectations are joined to the old ones. -/
def Failure.absorb (join : List Expectation → List Expectation → List Expectation)
    (new : Failure) : Option Failure → Failure
  | none => new
  | some old =>
    if old.reached < new.reached then new
    else if old.reached = new.reached then
      { old with expected := join old.expected new.expected }
    else old

/-- What is left of earlier notes after another one. -/
def Note.apply (left : Option Failure) : Note → Option Failure
  | missed failure => some (failure.absorb addExpected left)
  | gathered failure => some (failure.absorb joinExpected left)
  | settled => none

/-- What is left of a sequence of notes in the end. -/
def furthest (notes : List Note) : Option Failure := notes.foldl Note.apply none

/-- The text of an expectation: a character in quotes, anything else by its name. -/
def Expectation.text : Expectation → String
  | character c => "'" ++ String.singleton c ++ "'"
  | named name => name
  | endOfInput => "end of input"

/-- An enumeration of alternatives, the last one after a word of its own. -/
def enumerate : List String → String
  | [] => "something else"
  | [item] => item
  | [item, last] => item ++ ", or " ++ last
  | item :: items => item ++ ", " ++ enumerate items

/-- The wording of a failure. -/
def Failure.message (failure : Failure) : String :=
  let found := match failure.found with
    | some c => String.singleton c
    | none => "end of input"
  "found " ++ found ++ " expected " ++ enumerate (failure.expected.map Expectation.text)

end DiceNotation
