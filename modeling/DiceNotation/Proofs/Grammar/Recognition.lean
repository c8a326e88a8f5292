import DiceNotation.Proofs.Grammar.Completeness

/-!
# The reader recognises the grammar

Soundness and completeness together say that the reader of expressions decides derivability. It
gives one tree to a text, so the grammar is unambiguous.
-/

namespace DiceNotation.Grammar

/-- A text is read as a written expression exactly if it is derivable as that expression, and it is
derivable as no more than one. -/
theorem readAll_eq_ok_iff_derivableAs (text : String) :
    (∀ node, Reader.expression.padded.readAll text.toList = .ok node ↔
      DerivableAs text.toList node) ∧
    Subsingleton { node // DerivableAs text.toList node } := by
  refine ⟨fun node => ⟨derivableAs_of_readAll, readAll_of_derivableAs⟩, ⟨?_⟩⟩
  rintro ⟨node, h⟩ ⟨node', h'⟩
  have hsame := (readAll_of_derivableAs h).symm.trans (readAll_of_derivableAs h')
  exact Subtype.ext (Except.ok.inj hsame)

/-- A sign inside a subtracted group stays there, and binds closer than the power. -/
example : DerivableAs "2d6 - ( -3 ^ d4)".toList
    (.sum (.dice ⟨some "2", "6", none⟩)
      [(.minus, .power [.negation (.integer "3"), .dice ⟨none, "4", none⟩])]) :=
  derivableAs_of_readAll (by rfl)

end DiceNotation.Grammar
