import DiceNotation.Reading.Reader
import DiceNotation.Tree

/-!
# The grammar of expressions

A sum is made of products, a product of powers, and a power of atoms that may be negated. An atom
is a check, dice, a number, or an expression in parentheses. Blanks may stand between all tokens.
The readers follow these levels; the level inside parentheses is given to them, and there are as
many levels as there are opening parentheses in the text.
-/

namespace DiceNotation

namespace Reader

/-- Reads a modifier word. -/
def modifierWord : Reader ModifierWord :=
  firstWord ([.explode, .highest, .lowest, .reroll].map fun kind => (kind.word, kind))

/-- Reads dice. -/
def dice : Reader WrittenDice :=
  named "dice roll"
    ((positive.optional.andThen (oneOf ['d', 'D']).padded
      |>.andThen positive
      |>.andThen (modifierWord.padded.andThen positive).optional).map
        fun (((count, _), sides), modifier) => ⟨count, sides, modifier⟩)

/-- The spellings of comparisons, each before those it starts with. -/
def comparisonSpellings : List String := [">=", "≥", "<=", "≤", "!=", "≠", "==", ">", "<", "="]

/-- Reads a comparison. -/
def comparison : Reader String :=
  named "comparison" (firstWord (comparisonSpellings.map fun text => (text, text))).padded

/-- Reads dice or a check of dice. -/
def diceCheck : Reader Node :=
  (dice.andThen (comparison.andThen whole).optional).map fun
    | (written, some (comparison, threshold)) => .check written comparison threshold
    | (written, none) => .dice written

/-- Reads a difficulty. -/
def difficulty : Reader Difficulty :=
  firstWord ([.easy, .normal, .hard].map fun kind => (kind.word, kind))

/-- Reads a short check. -/
def shortCheck : Reader Node :=
  named "nb check"
    (((word "nb" ()).andThen difficulty.padded |>.andThen positive).map
      fun ((_, difficulty), count) => .nb difficulty count)

/-- Reads a check or dice. -/
def check : Reader Node := shortCheck.orElse diceCheck

/-- Reads an integer or a decimal number. -/
def number : Reader Node :=
  named "number"
    ((whole.andThen ((word "." ()).andThen digits).optional).map fun
      | (whole, some (_, fraction)) => .decimal (whole ++ "." ++ fraction)
      | (whole, none) => .integer whole)

/-- Reads an expression in parentheses. -/
def parenthesised (inner : Reader Node) : Reader Node :=
  ((word "(" ()).andThen inner.padded |>.andThen (word ")" ())).map fun ((_, node), _) => node

/-- Reads an atom with blanks around it. -/
def atom (inner : Reader Node) : Reader Node :=
  ((check.orElse number).orElse (parenthesised inner)).padded

/-- Reads an atom that may be negated. -/
def negation (inner : Reader Node) : Reader Node :=
  ((word "-" ()).padded.optional.andThen (atom inner)).map fun
    | (some _, node) => .negation node
    | (none, node) => node

/-- Reads a chain of powers. -/
def power (inner : Reader Node) : Reader Node :=
  ((negation inner).andThen ((word "^" ()).padded.andThen (negation inner)).many).map fun
    | (first, []) => first
    | (first, rest) => .power (first :: rest.map Prod.snd)

/-- Reads the operator of a factor. -/
def factorSign : Reader FactorSign := (firstWord [("*", .times), ("/", .over)]).padded

/-- Reads a product. -/
def product (inner : Reader Node) : Reader Node :=
  ((power inner).andThen (factorSign.andThen (power inner)).many).map fun
    | (first, []) => first
    | (first, rest) => .product first rest

/-- Reads the operator of a term. -/
def termSign : Reader TermSign := (firstWord [("+", .plus), ("-", .minus)]).padded

/-- Reads a sum. -/
def sum (inner : Reader Node) : Reader Node :=
  ((product inner).andThen (termSign.andThen (product inner)).many).map fun
    | (first, []) => first
    | (first, rest) => .sum first rest

/-- Reads an expression with at most `depth` levels of parentheses around any part of it. -/
def level : (depth : Nat) → Reader Node
  | 0 => sum never
  | depth + 1 => sum (level depth)

/-- Reads an expression. No part of a text can stand in more parentheses than the text opens. -/
def expression : Reader Node where
  read text := (level (text.count '(')).read text
  notes position text := (level (text.count '(')).notes position text

end Reader

end DiceNotation
