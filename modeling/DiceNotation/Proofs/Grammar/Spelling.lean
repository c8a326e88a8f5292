import DiceNotation.Proofs.Grammar.Derivation

/-!
# The spelling of tokens

The tokens of a derivation are spelled with digits and a few other characters. None of these is a
blank, a comma, a colon or a hash.
-/

namespace DiceNotation.Grammar

open Text

/-- The characters that may stand in a token, apart from digits. -/
def tokenMarks : List Char :=
  ['.', '=', '!', '≠', '>', '≥', '<', '≤', '+', '-', '*', '/', '^', '(', ')', 'D', 'a', 'b', 'd',
    'e', 'g', 'h', 'i', 'l', 'm', 'n', 'o', 'p', 'r', 's', 't', 'w', 'x', 'y']

/-- A character that may stand in a token. -/
def IsSpelling (c : Char) : Prop := c.isDigit = true ∨ c ∈ tokenMarks

instance : DecidablePred IsSpelling := fun _ => inferInstanceAs (Decidable (_ ∨ _))

/-- Tokens of such characters. -/
def Spelled (tokens : List Token) : Prop := ∀ token ∈ tokens, ∀ c ∈ token, IsSpelling c

/-- Tokens are spelled if those in front and those behind are. -/
theorem Spelled.append {tokens others : List Token} (h : Spelled tokens) (h' : Spelled others) :
    Spelled (tokens ++ others) :=
  List.forall_mem_append.2 ⟨h, h'⟩

/-- Tokens are spelled if the first one and the others are. -/
theorem spelled_cons {token : Token} {tokens : List Token} (h : ∀ c ∈ token, IsSpelling c)
    (h' : Spelled tokens) : Spelled (token :: tokens) :=
  List.forall_mem_cons.2 ⟨h, h'⟩

/-- Where there are no tokens, there is nothing to spell. -/
theorem spelled_nil : Spelled [] := List.forall_mem_nil _

/-- The tokens of several pieces are spelled if those of each piece are. -/
theorem Spelled.flatMap {β : Type} {pieces : List β} {tokens : β → List Token}
    (h : ∀ piece ∈ pieces, Spelled (tokens piece)) : Spelled (pieces.flatMap tokens) := by
  intro token htoken
  obtain ⟨piece, hpiece, hmem⟩ := List.mem_flatMap.1 htoken
  exact h piece hpiece token hmem

/-- A positive number is spelled with digits. -/
theorem IsPositive.isSpelling {digits : Token} (h : IsPositive digits) :
    ∀ c ∈ digits, IsSpelling c := by
  cases digits with
  | nil => exact List.forall_mem_nil _
  | cons first more => exact List.forall_mem_cons.2 ⟨.inl h.1, fun c hc => .inl (h.2.2 c hc)⟩

/-- A whole number is spelled with digits. -/
theorem IsWhole.isSpelling {digits : Token} (h : IsWhole digits) : ∀ c ∈ digits, IsSpelling c := by
  rcases h with rfl | hpositive
  · decide
  · exact IsPositive.isSpelling hpositive

/-- Dice are spelled with digits and the letters of their words. -/
theorem DerivesDice.spelled {tokens : List Token} {written : WrittenDice}
    (h : DerivesDice tokens written) : Spelled tokens := by
  cases h with
  | roll hcount hbefore hsides hmodifier =>
    refine Spelled.append ?_ (spelled_cons ?_ (spelled_cons hsides.isSpelling ?_))
    · cases hcount with
      | missing => exact spelled_nil
      | written hdigits => exact spelled_cons hdigits.isSpelling spelled_nil
    · rcases hbefore with rfl | rfl <;> decide
    · cases hmodifier with
      | missing => exact spelled_nil
      | written kind hdigits =>
        refine spelled_cons ?_ (spelled_cons hdigits.isSpelling spelled_nil)
        cases kind <;> decide

/-- No token of a derivation has any other character. -/
theorem Derives.spelled {lvl : Level} {tokens : List Token} {node : Node}
    (h : Derives lvl tokens node) : Spelled tokens := by
  induction h with
  | integer hdigits => exact spelled_cons hdigits.isSpelling spelled_nil
  | decimal hwhole hfraction =>
    have hpoint : IsSpelling '.' := by decide
    exact spelled_cons (List.forall_mem_append.2 ⟨hwhole.isSpelling,
      List.forall_mem_cons.2 ⟨hpoint, fun c hc => .inl (hfraction.2 c hc)⟩⟩) spelled_nil
  | dice hdice => exact hdice.spelled
  | check hdice hcomparison hthreshold =>
    have hmarks : ∀ spelling ∈ comparisons, ∀ c ∈ spelling.toList, IsSpelling c := by decide
    exact hdice.spelled.append (spelled_cons (hmarks _ hcomparison)
      (spelled_cons hthreshold.isSpelling spelled_nil))
  | nb difficulty hcount =>
    refine spelled_cons (by decide) (spelled_cons ?_ (spelled_cons hcount.isSpelling spelled_nil))
    cases difficulty <;> decide
  | parentheses hsum ih =>
    exact spelled_cons (by decide) (ih.append (spelled_cons (by decide) spelled_nil))
  | negated hatom ih => exact spelled_cons (by decide) ih
  | power hfirst hrest hne ihfirst ihrest =>
    exact ihfirst.append
      (.flatMap fun piece hpiece => spelled_cons (by decide) (ihrest piece hpiece))
  | product hfirst hrest hne ihfirst ihrest =>
    refine ihfirst.append (.flatMap fun piece hpiece => spelled_cons ?_ (ihrest piece hpiece))
    cases piece.1 <;> decide
  | sum hfirst hrest hne ihfirst ihrest =>
    refine ihfirst.append (.flatMap fun piece hpiece => spelled_cons ?_ (ihrest piece hpiece))
    cases piece.1 <;> decide
  | _ => assumption

end DiceNotation.Grammar
