import DiceNotation.Text.Blank
import DiceNotation.Tree

/-!
# Derivations

The grammar of expressions is stated without any reader. A text is first divided into tokens, with
any amount of blanks before, between and behind them; a number is a single token, so no blank may
stand inside it. A derivation then says how the tokens of a text make up a written expression. It
has five levels, and what belongs to a level belongs to all levels above it. An operator joins
operands of the level below, and parentheses make an atom of a sum.
-/

namespace DiceNotation.Grammar

open Text

/-! ## Deciding

What holds of the characters in a list is decided on these, and not on all characters there are. -/

instance (priority := high) decidableForallMem {p : Char → Prop} [DecidablePred p]
    (text : List Char) : Decidable (∀ c ∈ text, p c) :=
  List.decidableBAll p text

instance (priority := high) decidableExistsMem {p : Char → Prop} [DecidablePred p]
    (text : List Char) : Decidable (∃ c ∈ text, p c) :=
  List.decidableBEx p text

/-! ## Tokens and levels -/

/-- The characters of a token. -/
abbrev Token := List Char

/-- A text that consists of tokens and of blanks before, between and behind them. -/
inductive Spaced : List Token → List Char → Prop where
  /-- Without any token there are only blanks. -/
  | blanks {text : List Char} (h : ∀ c ∈ text, isBlank c = true) : Spaced [] text
  /-- Blanks may stand before a token. -/
  | token {front text : List Char} {tokens : List Token} (token : Token)
    (h : ∀ c ∈ front, isBlank c = true) (rest : Spaced tokens text) :
    Spaced (token :: tokens) (front ++ (token ++ text))

/-- The digits of a positive number, of which the first is not zero. -/
def IsPositive : Token → Prop
  | [] => False
  | first :: more => first.isDigit = true ∧ first ≠ '0' ∧ ∀ c ∈ more, c.isDigit = true

/-- The digits of a whole number, which are those of a positive number or a single zero. -/
def IsWhole (digits : Token) : Prop := digits = ['0'] ∨ IsPositive digits

/-- The digits of a fraction. -/
def IsFraction (digits : Token) : Prop := digits ≠ [] ∧ ∀ c ∈ digits, c.isDigit = true

/-- The spellings of comparisons. -/
def comparisons : List String := ["=", "==", "!=", "≠", ">", ">=", "≥", "<", "<=", "≤"]

/-- The character of a term's operator. -/
def termMark : TermSign → Char
  | .plus => '+'
  | .minus => '-'

/-- The character of a factor's operator. -/
def factorMark : FactorSign → Char
  | .times => '*'
  | .over => '/'

/-- The number of dice, which may be missing. -/
inductive DerivesCount : List Token → Option String → Prop where
  /-- No number is written. -/
  | missing : DerivesCount [] none
  /-- A positive number is written. -/
  | written {digits : Token} (h : IsPositive digits) :
    DerivesCount [digits] (some (String.ofList digits))

/-- A modifier with its argument, which may be missing. -/
inductive DerivesModifier : List Token → Option (ModifierWord × String) → Prop where
  /-- No modifier is written. -/
  | missing : DerivesModifier [] none
  /-- A modifier word and a positive number are written. -/
  | written {digits : Token} (kind : ModifierWord) (h : IsPositive digits) :
    DerivesModifier [kind.word.toList, digits] (some (kind, String.ofList digits))

/-- Dice. -/
inductive DerivesDice : List Token → WrittenDice → Prop where
  /-- The letter stands in either case between the number of dice and that of sides. -/
  | roll {before sides : Token} {count : Option String} {counted behind : List Token}
    {modifier : Option (ModifierWord × String)} (hc : DerivesCount counted count)
    (hd : before = ['d'] ∨ before = ['D']) (hs : IsPositive sides)
    (hm : DerivesModifier behind modifier) :
    DerivesDice (counted ++ before :: sides :: behind) ⟨count, String.ofList sides, modifier⟩

/-- The levels of the grammar. -/
inductive Level where
  /-- Sums of products. -/
  | sum
  /-- Products of powers. -/
  | product
  /-- Powers of negations. -/
  | power
  /-- Atoms that may be negated. -/
  | negation
  /-- Numbers, dice, checks, and sums in parentheses. -/
  | atom
deriving DecidableEq, Repr

/-- The written expressions that tokens make up at a level of the grammar. -/
inductive Derives : Level → List Token → Node → Prop where
  /-- An integer. -/
  | integer {digits : Token} (h : IsWhole digits) :
    Derives .atom [digits] (.integer (String.ofList digits))
  /-- A decimal number. -/
  | decimal {whole fraction : Token} (hw : IsWhole whole) (hf : IsFraction fraction) :
    Derives .atom [whole ++ '.' :: fraction] (.decimal (String.ofList (whole ++ '.' :: fraction)))
  /-- Dice. -/
  | dice {tokens : List Token} {written : WrittenDice} (h : DerivesDice tokens written) :
    Derives .atom tokens (.dice written)
  /-- A check of dice. -/
  | check {tokens : List Token} {written : WrittenDice} {comparison : String} {threshold : Token}
    (hd : DerivesDice tokens written) (hc : comparison ∈ comparisons) (ht : IsWhole threshold) :
    Derives .atom (tokens ++ [comparison.toList, threshold])
      (.check written comparison (String.ofList threshold))
  /-- A short check. -/
  | nb {count : Token} (difficulty : Difficulty) (h : IsPositive count) :
    Derives .atom [['n', 'b'], difficulty.word.toList, count]
      (.nb difficulty (String.ofList count))
  /-- A sum in parentheses. -/
  | parentheses {tokens : List Token} {node : Node} (h : Derives .sum tokens node) :
    Derives .atom (['('] :: (tokens ++ [[')']])) node
  /-- An atom without a sign. -/
  | plain {tokens : List Token} {node : Node} (h : Derives .atom tokens node) :
    Derives .negation tokens node
  /-- An atom with a minus sign. -/
  | negated {tokens : List Token} {node : Node} (h : Derives .atom tokens node) :
    Derives .negation (['-'] :: tokens) (.negation node)
  /-- A negation without an exponent. -/
  | base {tokens : List Token} {node : Node} (h : Derives .negation tokens node) :
    Derives .power tokens node
  /-- A chain of powers. -/
  | power {tokens : List Token} {first : Node} {rest : List (List Token × Node)}
    (hf : Derives .negation tokens first) (hr : ∀ piece ∈ rest, Derives .negation piece.1 piece.2)
    (hne : rest ≠ []) :
    Derives .power (tokens ++ rest.flatMap fun piece => ['^'] :: piece.1)
      (.power (first :: rest.map fun piece => piece.2))
  /-- A single factor. -/
  | factor {tokens : List Token} {node : Node} (h : Derives .power tokens node) :
    Derives .product tokens node
  /-- A chain of factors. -/
  | product {tokens : List Token} {first : Node} {rest : List (FactorSign × List Token × Node)}
    (hf : Derives .power tokens first)
    (hr : ∀ piece ∈ rest, Derives .power piece.2.1 piece.2.2) (hne : rest ≠ []) :
    Derives .product (tokens ++ rest.flatMap fun piece => [factorMark piece.1] :: piece.2.1)
      (.product first (rest.map fun piece => (piece.1, piece.2.2)))
  /-- A single term. -/
  | term {tokens : List Token} {node : Node} (h : Derives .product tokens node) :
    Derives .sum tokens node
  /-- A chain of terms. -/
  | sum {tokens : List Token} {first : Node} {rest : List (TermSign × List Token × Node)}
    (hf : Derives .product tokens first)
    (hr : ∀ piece ∈ rest, Derives .product piece.2.1 piece.2.2) (hne : rest ≠ []) :
    Derives .sum (tokens ++ rest.flatMap fun piece => [termMark piece.1] :: piece.2.1)
      (.sum first (rest.map fun piece => (piece.1, piece.2.2)))

/-- A text that is derivable as a written expression: its tokens make up that expression. -/
def DerivableAs (text : List Char) (node : Node) : Prop :=
  ∃ tokens, Spaced tokens text ∧ Derives .sum tokens node

theorem ofList_decimal (whole fraction : Token) :
    String.ofList (whole ++ '.' :: fraction) =
      String.ofList whole ++ "." ++ String.ofList fraction := by
  rw [← String.toList_inj]
  simp only [String.toList_append, String.toList_ofList, List.append_assoc]
  rfl

/-- The texts of two lists of tokens can be joined. -/
theorem Spaced.append {tokens tokens' : List Token} {text text' : List Char}
    (h : Spaced tokens text) (h' : Spaced tokens' text') :
    Spaced (tokens ++ tokens') (text ++ text') := by
  induction h with
  | blanks hb =>
    cases h' with
    | blanks hb' =>
      exact .blanks fun c hc => (List.mem_append.1 hc).elim (hb c) (hb' c)
    | token token hf rest =>
      rw [List.nil_append, ← List.append_assoc]
      exact .token token (fun c hc => (List.mem_append.1 hc).elim (hb c) (hf c)) rest
  | token token hf rest ih =>
    rw [List.cons_append, List.append_assoc, List.append_assoc]
    exact .token token hf ih

/-- The text of joined lists of tokens can be divided. -/
theorem Spaced.exists_of_append {tokens tokens' : List Token} {text : List Char}
    (h : Spaced (tokens ++ tokens') text) :
    ∃ front behind, text = front ++ behind ∧ Spaced tokens front ∧ Spaced tokens' behind := by
  induction tokens generalizing text with
  | nil => exact ⟨[], text, rfl, .blanks (by simp), h⟩
  | cons token tokens ih =>
    cases h with
    | token _ hf rest =>
      obtain ⟨front, behind, rfl, hs, hs'⟩ := ih rest
      exact ⟨_, behind, by simp only [List.append_assoc], .token token hf hs, hs'⟩

/-- A token by itself is a text. -/
theorem Spaced.single (token : Token) : Spaced [token] token := by
  have h := Spaced.token token (List.forall_mem_nil _) (.blanks (List.forall_mem_nil _))
  rwa [List.append_nil] at h

/-- Blanks at the front change nothing. -/
theorem Spaced.blanks_append {tokens : List Token} {blanks text : List Char}
    (hb : ∀ c ∈ blanks, isBlank c = true) (h : Spaced tokens text) :
    Spaced tokens (blanks ++ text) :=
  Spaced.append (.blanks hb) h

/-- Blanks behind change nothing. -/
theorem Spaced.append_blanks {tokens : List Token} {blanks text : List Char}
    (h : Spaced tokens text) (hb : ∀ c ∈ blanks, isBlank c = true) :
    Spaced tokens (text ++ blanks) := by
  have hs := Spaced.append h (.blanks hb)
  rwa [List.append_nil] at hs

end DiceNotation.Grammar
