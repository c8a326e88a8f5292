import DiceNotation.Session

/-!
# The command line

The command line rolls one expression: the words it is given, joined by blanks, or the first line
of its input if it is given none. It shows the notation, the trace, the value and the lines of the
outcome, or the reply to an error.
-/

namespace DiceNotation.CommandLine

/-- Asks for an expression. -/
def prompt : String := "Enter dice expression: "

/-- What the command line prints, and the status with which it exits. -/
structure Reply where
  /-- The text that is printed. -/
  output : String
  /-- Zero for success. -/
  status : UInt32
deriving DecidableEq, Repr

/-- The expression in the words of a command. -/
def ofWords (words : List String) : String := " ".intercalate words

/-- A line without its line break. -/
def chomp (line : List Char) : List Char :=
  match line.reverse with
  | '\n' :: '\r' :: rest => rest.reverse
  | '\n' :: rest => rest.reverse
  | _ => line

/-- The first line of an input, with its line break; an empty input has none. -/
def firstLine? (input : List Char) : Option (List Char) :=
  match Text.cutAt '\n' input with
  | some (line, _) => some (line ++ ['\n'])
  | none => if input.isEmpty then none else some input

/-- Reports a result. Running out of dice cannot happen with the dice that the command line
rolls. -/
def report (result : Except (Stop RollError) Outcome) : Reply :=
  match result with
  | .ok outcome =>
    ⟨"Notation: " ++ outcome.text ++ "\nTrace: " ++ outcome.trace ++ "\nValue: " ++
      outcome.value.text ++ "\n\n" ++ outcome.display ++ "\n", 0⟩
  | .error (.failed error) => ⟨error.reply ++ "\n", 1⟩
  | .error (.outOfDice _) => ⟨"", 1⟩

/-- Rolls an expression with dice from a source. -/
def roll {σ : Type} (source : Source σ) (state : σ) (text : String) : Reply :=
  report ((rollText text).run source state).result

/-- The reply to an input line that may be missing. -/
def rollLine {σ : Type} (source : Source σ) (state : σ) : Option (List Char) → Reply
  | some line => roll source state (String.ofList (chomp line))
  | none => ⟨"", 1⟩

end DiceNotation.CommandLine
