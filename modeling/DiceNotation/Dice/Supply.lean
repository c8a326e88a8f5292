import DiceNotation.Dice.Rolling

/-!
# Supplies of dice

The ready-made sources of dice: a constant, the highest value, a list of values that runs out or
starts again, and a seeded pseudo-random generator. The generator adds a constant to a 64-bit state
and mixes the product of the state and a masked copy of itself; a value between 1 and the number of
sides is taken from the upper half of a 64-bit product, and drawn again in the few cases that would
favour some values.
-/

namespace DiceNotation

/-- The state of the pseudo-random generator after the next step. -/
def advance (state : UInt64) : UInt64 := state + 0x2d358dccaa6c78a5

/-- The 64 bits drawn in a state: both halves of a 128-bit product, combined. -/
def mix (state : UInt64) : UInt64 :=
  let product := state.toNat * (state ^^^ 0x8bb84b93962eacc9).toNat
  UInt64.ofNat (product % Nat.pow 2 64) ^^^ UInt64.ofNat (product / Nat.pow 2 64)

/-- Draws a number below `bound`, uniformly: draws are repeated while the lower half of the product
of the draw and the bound is less than 2^32 modulo the bound. The states of the generator repeat
after 2^64 steps, so no more draws than that can ever be useful. -/
def drawBelow (bound : Nat) : Nat → UInt64 → Option Nat × UInt64
  | 0, state => (none, state)
  | fuel + 1, state =>
    let state := advance state
    let product := (mix state).toNat % Nat.pow 2 32 * bound
    if product % Nat.pow 2 32 < (Nat.pow 2 32 - bound) % bound then drawBelow bound fuel state
    else (some (product / Nat.pow 2 32), state)

/-- A supply of dice and how much of it is left. -/
inductive Supply where
  /-- Every die shows the same value. -/
  | constant (value : UInt32)
  /-- Every die shows its highest side. -/
  | highest
  /-- The dice show the values of a list until it is used up. -/
  | listed (left : List UInt32)
  /-- The dice show the values of a list, over and over. -/
  | cyclic (whole left : List UInt32)
  /-- The dice show what a pseudo-random generator draws. -/
  | seeded (state : UInt64)
deriving Repr

namespace Supply

/-- The value that a supply shows for a die, if it has one, and what is left. A random die without
sides shows zero and draws nothing. -/
def roll (sides : UInt32) : Supply → Option UInt32 × Supply
  | constant value => (some value, constant value)
  | highest => (some sides, highest)
  | listed [] => (none, listed [])
  | listed (value :: left) => (some value, listed left)
  | cyclic whole (value :: left) => (some value, cyclic whole left)
  | cyclic [] [] => (none, cyclic [] [])
  | cyclic (value :: whole) [] => (some value, cyclic (value :: whole) whole)
  | seeded state =>
    if sides = 0 then (some 0, seeded state)
    else
      let (below, state) := drawBelow sides.toNat (Nat.pow 2 64) state
      (below.map fun n => UInt32.ofNat (n + 1), seeded state)

/-- The source that rolls a supply. -/
def source : Source Supply := ⟨roll⟩

/-- Whether a list of values has another die to show; the other supplies never need to be asked. -/
def canRoll? : Supply → Option Bool
  | listed left => some !left.isEmpty
  | cyclic whole left => some !(whole.isEmpty && left.isEmpty)
  | _ => none

end Supply

end DiceNotation
