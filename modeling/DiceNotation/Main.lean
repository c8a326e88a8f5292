import DiceNotation.CommandLine
import DiceNotation.Dice.Supply

/-!
# The program

Rolls the expression given on the command line, or on the first line of the input, with dice that
differ from run to run.
-/

namespace DiceNotation.CommandLine

/-- A supply of dice that differs from run to run. -/
def freshSupply : IO Supply := do
  let high ← IO.rand 0 (Nat.pow 2 32 - 1)
  let low ← IO.monoNanosNow
  return .seeded (UInt64.ofNat (high * Nat.pow 2 32 + low))

/-- Asks for an expression and takes the first line of the input. -/
def askLine : IO (Option (List Char)) := do
  IO.print prompt
  (← IO.getStdout).flush
  let line ← (← IO.getStdin).getLine
  return if line.isEmpty then none else some line.toList

/-- Runs the command line and gives the status with which it exits. -/
def execute (words : List String) : IO UInt32 := do
  let supply ← freshSupply
  let reply ←
    if words.isEmpty then pure (rollLine Supply.source supply (← askLine))
    else pure (roll Supply.source supply (ofWords words))
  IO.print reply.output
  return reply.status

end DiceNotation.CommandLine

/-- The program. -/
def main (words : List String) : IO UInt32 := DiceNotation.CommandLine.execute words
