import DiceNotation.Proofs.Grammar.Completeness
import DiceNotation.Proofs.Grammar.Spelling

/-!
# Marks between entries

No derivable text contains a comma, a colon or a hash, so the commas, colons and hashes of a text of
entries are those that separate entries and comments.
-/

namespace DiceNotation.Grammar

open Text

/-- The characters that separate entries and comments. -/
def entryMarks : List Char := [',', ':', '#']

/-- Tokens without any such mark. -/
def Clean (tokens : List Token) : Prop := ∀ token ∈ tokens, ∀ c ∈ token, c ∉ entryMarks

theorem not_mem_entryMarks_of_isDigit {c : Char} (h : c.isDigit = true) : c ∉ entryMarks := by
  intro hmem
  have hmarks : ∀ mark ∈ entryMarks, mark.isDigit = false := by decide
  rw [hmarks c hmem] at h
  exact Bool.false_ne_true h

/-- No token of a derivation contains a mark. -/
theorem Derives.clean {lvl : Level} {tokens : List Token} {node : Node}
    (h : Derives lvl tokens node) : Clean tokens := by
  intro token htoken c hc
  have hmarks : ∀ mark ∈ tokenMarks, mark ∉ entryMarks := by decide
  exact (h.spelled token htoken c hc).elim not_mem_entryMarks_of_isDigit (hmarks c)

/-- A derivable text contains no mark. -/
theorem DerivableAs.not_mem_entryMarks {text : List Char} {node : Node}
    (h : DerivableAs text node) : ∀ c ∈ text, c ∉ entryMarks := by
  obtain ⟨tokens, hspaced, hnode⟩ := h
  have hclean := hnode.clean
  have hblank : ∀ c, isBlank c = true → c ∉ entryMarks := by
    intro c hc hmem
    have hmarks : ∀ mark ∈ entryMarks, isBlank mark = false := by decide
    rw [hmarks c hmem] at hc
    exact Bool.false_ne_true hc
  clear hnode
  induction hspaced with
  | blanks hblanks => exact fun c hc => hblank c (hblanks c hc)
  | token token hfront hrest ih =>
    obtain ⟨htoken, hothers⟩ := List.forall_mem_cons.1 hclean
    intro c hc
    rcases List.mem_append.1 hc with hmem | hmem
    · exact hblank c (hfront c hmem)
    · rcases List.mem_append.1 hmem with hmem | hmem
      · exact htoken c hmem
      · exact ih hothers c hmem

end DiceNotation.Grammar
