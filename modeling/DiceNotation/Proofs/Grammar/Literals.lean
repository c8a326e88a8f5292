import DiceNotation.Proofs.Decimal.Overflow
import DiceNotation.Proofs.Decimal.Positional
import DiceNotation.Proofs.Grammar.Soundness
import DiceNotation.Proofs.Reading.Parts
import DiceNotation.Proofs.Refusals

/-!
# Numerals that do not fit

A numeral of a text that matches the grammar is a token of the text, made of digits and, in a
decimal number, a point. So it can only be refused because its value is too great. The comparisons
of the grammar are all known.
-/

namespace DiceNotation

open Decimal Grammar Text

/-- A numeral that stands in an atom, and whose value does not fit. -/
inductive Node.Unfit : Node → String → Prop where
  /-- An integer that has no 64 bits. -/
  | integer {digits : String} {n : ℕ} (hn : readDigits digits.toList = some n)
    (h : 2 ^ 63 ≤ n) : Unfit (.integer digits) digits
  /-- A decimal number that is rounded to no finite floating-point number. -/
  | decimal {digits : String} {whole fraction : List Char} {n : ℕ}
    (hdigits : digits.toList = whole ++ '.' :: fraction)
    (hn : readDigits (whole ++ fraction) = some n)
    (h : overflowBound ≤ (n / (10 ^ fraction.length : ℕ) : ℚ)) : Unfit (.decimal digits) digits
  /-- A count, a number of sides, an argument or a threshold that has no 32 bits. -/
  | count {node : Node} {digits : String} {n : ℕ} (hmem : digits ∈ node.counts)
    (hn : readDigits digits.toList = some n) (h : 2 ^ 32 ≤ n) : Unfit node digits

/-! ## Digits -/

/-- A whole number is refused as a count only if it is too great. -/
theorem le_of_readUInt32_eq_none {digits : List Char} (h : IsWhole digits)
    (hnone : readUInt32 digits = none) : ∃ n, readDigits digits = some n ∧ 2 ^ 32 ≤ n := by
  have hread := readDigits_of_isDigit h.ne_nil h.all_isDigit
  refine ⟨_, hread, ?_⟩
  rw [readUInt32, hread, Option.bind_some] at hnone
  · split at hnone
    · cases hnone
    · rename_i hlarge
      exact Nat.not_lt.1 hlarge
  · exact ne_cons_of_isDigit h.all_isDigit rfl

theorem Node.Unfit.of_count {node : Node} {digits : String} (hmem : digits ∈ node.counts)
    (h : IsWhole digits.toList) (hnone : readUInt32 digits.toList = none) : node.Unfit digits := by
  obtain ⟨n, hn, hlarge⟩ := le_of_readUInt32_eq_none h hnone
  exact .count hmem hn hlarge

/-- A whole number is refused as an integer only if it is too great. -/
theorem le_of_readInt64_eq_none {digits : List Char} (h : IsWhole digits)
    (hnone : readInt64 digits = none) : ∃ n, readDigits digits = some n ∧ 2 ^ 63 ≤ n := by
  have hread := readDigits_of_isDigit h.ne_nil h.all_isDigit
  refine ⟨_, hread, ?_⟩
  rw [readInt64, readSigned, hread, Option.map_some, Option.bind_some] at hnone
  · split at hnone
    · cases hnone
    · rename_i hlarge
      change ¬ (-2 ^ 63 ≤ (Nat.ofDigitChars 10 digits 0 : ℤ) ∧
        (Nat.ofDigitChars 10 digits 0 : ℤ) < 2 ^ 63) at hlarge
      omega
  · exact ne_cons_of_isDigit h.all_isDigit rfl
  · exact ne_cons_of_isDigit h.all_isDigit rfl

/-- A decimal number is refused only if it is too great. -/
theorem le_of_readFloat_eq_none {whole fraction : List Char} (hw : IsWhole whole)
    (hf : IsFraction fraction) (hnone : readFloat (whole ++ '.' :: fraction) = none) :
    ∃ n, readDigits (whole ++ fraction) = some n ∧
      overflowBound ≤ (n / (10 ^ fraction.length : ℕ) : ℚ) := by
  have hdigits : ∀ c ∈ whole ++ fraction, c.isDigit = true :=
    List.forall_mem_append.2 ⟨hw.all_isDigit, hf.2⟩
  have hne : whole ++ fraction ≠ [] := fun hnil => hf.1 (List.append_eq_nil_iff.1 hnil).2
  refine ⟨_, readDigits_of_isDigit hne hdigits, ?_⟩
  by_contra hsmall
  have hfinite := isFinite_nearest (List.length_pos_of_ne_nil hf.1) (not_le.1 hsmall)
  rw [readFloat_decimal hw hf, Option.filter_some, if_pos hfinite] at hnone
  cases hnone

/-! ## Derivations -/

namespace Grammar

/-- A node is derived from some of the tokens. -/
def DerivedFrom (tokens : List Token) (node : Node) : Prop :=
  ∃ lvl own, Derives lvl own node ∧ own ⊆ tokens

theorem DerivedFrom.mono {tokens all : List Token} {node : Node} (h : DerivedFrom tokens node)
    (hsub : tokens ⊆ all) : DerivedFrom all node := by
  obtain ⟨lvl, own, hderives, hown⟩ := h
  exact ⟨lvl, own, hderives, List.Subset.trans hown hsub⟩

theorem Derives.derivedFrom {lvl : Level} {tokens : List Token} {node : Node}
    (h : Derives lvl tokens node) : DerivedFrom tokens node :=
  ⟨lvl, tokens, h, List.Subset.refl tokens⟩

/-- The tokens of an operand are among those of the operation. -/
theorem subset_operands {β : Type} {pieces : List β} {piece : β} {mark : β → Token}
    {operand : β → List Token} {own : List Token} (front : List Token) (hpiece : piece ∈ pieces)
    (h : own = operand piece) :
    own ⊆ front ++ pieces.flatMap fun piece => mark piece :: operand piece := by
  subst h
  intro token htoken
  refine List.mem_append_right front (List.mem_flatMap.2 ⟨piece, hpiece, ?_⟩)
  exact List.mem_cons_of_mem _ htoken

/-- A part of what is derived is derived from some of the tokens. -/
theorem Derives.derivedFrom_of_within {lvl : Level} {tokens : List Token} {node part : Node}
    (hd : Derives lvl tokens node) (h : part.Within node) : DerivedFrom tokens part := by
  induction hd with
  | integer hdigits =>
    cases h
    exact (Derives.integer hdigits).derivedFrom
  | decimal hwhole hfraction =>
    cases h
    exact (Derives.decimal hwhole hfraction).derivedFrom
  | dice hdice =>
    cases h
    exact (Derives.dice hdice).derivedFrom
  | check hdice hcomparison hthreshold =>
    cases h
    exact (Derives.check hdice hcomparison hthreshold).derivedFrom
  | nb difficulty hcount =>
    cases h
    exact (Derives.nb difficulty hcount).derivedFrom
  | parentheses hsum ih =>
    exact (ih h).mono (List.subset_cons_of_subset _ (List.subset_append_left _ _))
  | plain _ ih => exact ih h
  | base _ ih => exact ih h
  | factor _ ih => exact ih h
  | term _ ih => exact ih h
  | negated hatom ih =>
    cases h with
    | itself => exact hatom.negated.derivedFrom
    | negation h => exact (ih h).mono (List.subset_cons_self _ _)
  | power hfirst hrest hne ihfirst ihrest =>
    cases h with
    | itself => exact (Derives.power hfirst hrest hne).derivedFrom
    | power hmem h =>
      rcases List.mem_cons.1 hmem with rfl | hmem
      · exact (ihfirst h).mono (List.subset_append_left _ _)
      · obtain ⟨piece, hpiece, rfl⟩ := List.mem_map.1 hmem
        exact (ihrest piece hpiece h).mono (subset_operands _ hpiece rfl)
  | product hfirst hrest hne ihfirst ihrest =>
    cases h with
    | itself => exact (Derives.product hfirst hrest hne).derivedFrom
    | firstFactor h => exact (ihfirst h).mono (List.subset_append_left _ _)
    | factor hmem h =>
      obtain ⟨piece, hpiece, rfl⟩ := List.mem_map.1 hmem
      exact (ihrest piece hpiece h).mono (subset_operands _ hpiece rfl)
  | sum hfirst hrest hne ihfirst ihrest =>
    cases h with
    | itself => exact (Derives.sum hfirst hrest hne).derivedFrom
    | firstTerm h => exact (ihfirst h).mono (List.subset_append_left _ _)
    | term hmem h =>
      obtain ⟨piece, hpiece, rfl⟩ := List.mem_map.1 hmem
      exact (ihrest piece hpiece h).mono (subset_operands _ hpiece rfl)

/-- The numerals of dice are positive numbers among the tokens. -/
theorem DerivesDice.isPositive_of_mem_counts {tokens : List Token} {written : WrittenDice}
    {digits : String} (hd : DerivesDice tokens written) (h : digits ∈ written.counts) :
    IsPositive digits.toList ∧ digits.toList ∈ tokens := by
  cases hd with
  | roll hcount hletter hsides hmodifier =>
    rcases List.mem_append.1 h with h | h
    · cases hcount with
      | missing => cases h
      | written hdigits =>
        rw [List.mem_singleton.1 h, String.toList_ofList]
        exact ⟨hdigits, List.mem_append_left _ (List.mem_singleton_self _)⟩
    · rcases List.mem_cons.1 h with rfl | h
      · rw [String.toList_ofList]
        exact ⟨hsides, List.mem_append_right _ (List.mem_cons_of_mem _ List.mem_cons_self)⟩
      · cases hmodifier with
        | missing => cases h
        | written kind hdigits =>
          rw [List.mem_singleton.1 h, String.toList_ofList]
          refine ⟨hdigits, List.mem_append_right _ ?_⟩
          simp

/-- A numeral that is refused in a derivation is a token, and its value does not fit. -/
theorem Derives.unfit_of_refused {lvl : Level} {tokens : List Token} {node : Node}
    {digits : String} (hd : Derives lvl tokens node) (h : node.Refused (.invalidNumber digits)) :
    node.Unfit digits ∧ digits.toList ∈ tokens := by
  induction hd with
  | integer hdigits =>
    cases h with
    | integer hnone =>
      rw [String.toList_ofList] at hnone
      obtain ⟨n, hn, hlarge⟩ := le_of_readInt64_eq_none hdigits hnone
      exact ⟨.integer (by rwa [String.toList_ofList]) hlarge, by simp⟩
    | count hmem => cases hmem
  | decimal hwhole hfraction =>
    cases h with
    | decimal hnone =>
      rw [String.toList_ofList] at hnone
      obtain ⟨n, hn, hlarge⟩ := le_of_readFloat_eq_none hwhole hfraction hnone
      exact ⟨.decimal String.toList_ofList hn hlarge, by simp⟩
    | count hmem => cases hmem
  | dice hdice =>
    cases h with
    | count hmem hnone =>
      obtain ⟨hdigits, htoken⟩ := hdice.isPositive_of_mem_counts hmem
      exact ⟨.of_count hmem (.inr hdigits) hnone, htoken⟩
  | check hdice hcomparison hthreshold =>
    cases h with
    | count hmem hnone =>
      rcases List.mem_append.1 hmem with hdigits | hdigits
      · obtain ⟨hdigits, htoken⟩ := hdice.isPositive_of_mem_counts hdigits
        exact ⟨.of_count hmem (.inr hdigits) hnone, List.mem_append_left _ htoken⟩
      · obtain rfl := List.mem_singleton.1 hdigits
        exact ⟨.of_count hmem (by rwa [String.toList_ofList]) hnone, by simp⟩
  | nb difficulty hcount =>
    cases h with
    | count hmem hnone =>
      obtain rfl := List.mem_singleton.1 hmem
      exact ⟨.of_count hmem (.inr (by rwa [String.toList_ofList])) hnone, by simp⟩
  | parentheses hsum ih =>
    obtain ⟨hunfit, htoken⟩ := ih h
    exact ⟨hunfit, List.mem_cons_of_mem _ (List.mem_append_left _ htoken)⟩
  | plain _ ih => exact ih h
  | base _ ih => exact ih h
  | factor _ ih => exact ih h
  | term _ ih => exact ih h
  | _ =>
    cases h with
    | count hmem => cases hmem

/-- The comparison of a check is one of those that are known. -/
theorem Derives.mem_comparisons {lvl : Level} {tokens : List Token} {written : WrittenDice}
    {spelling threshold : String} (hd : Derives lvl tokens (.check written spelling threshold)) :
    spelling ∈ comparisons := by
  generalize hnode : Node.check written spelling threshold = node at hd
  induction hd with
  | check hdice hcomparison hthreshold =>
    cases hnode
    exact hcomparison
  | parentheses _ ih => exact ih hnode
  | plain _ ih => exact ih hnode
  | base _ ih => exact ih hnode
  | factor _ ih => exact ih hnode
  | term _ ih => exact ih hnode
  | _ => cases hnode

theorem Derives.not_refused_unknownCondition {lvl : Level} {tokens : List Token} {node : Node}
    {symbol : String} (hd : Derives lvl tokens node) :
    ¬ node.Refused (.dice (.unknownCondition symbol)) := by
  intro h
  cases h with
  | comparison hnone =>
    have hknown : ∀ spelling ∈ comparisons, Comparison.ofSymbol? spelling ≠ none := by decide
    exact hknown symbol hd.mem_comparisons hnone
  | @dice _ leaf _ _ hinvalid =>
    rw [Dice.validate] at hinvalid
    split at hinvalid
    · cases hinvalid
    · split at hinvalid <;> try split at hinvalid
      all_goals cases hinvalid

/-! ## Texts -/

/-- A token stands in its text as it is. -/
theorem Spaced.infix_of_mem {tokens : List Token} {text : List Char} {token : Token}
    (h : Spaced tokens text) (hmem : token ∈ tokens) : token <:+: text := by
  induction h with
  | blanks => cases hmem
  | @token front text tokens first hblanks hrest ih =>
    rcases List.mem_cons.1 hmem with rfl | hmem
    · exact ⟨front, text, List.append_assoc front token text⟩
    · refine (ih hmem).trans ⟨front ++ first, [], ?_⟩
      rw [List.append_nil, List.append_assoc]

end Grammar

/-- Every piece of a text stands in it. -/
theorem infix_of_mem_pieces {mark : Char} {text piece : List Char} (h : piece ∈ pieces mark text) :
    piece <:+: text := by
  obtain ⟨earlier, later, hpieces⟩ := List.append_of_mem h
  obtain ⟨behind, htext⟩ := exists_behind_of_pieces hpieces
  exact ⟨_, behind, by rw [htext, List.append_assoc]⟩

/-- An entry is read from one of the pieces. -/
theorem exists_piece_of_mem {text : List Char} {position : Nat} {pieces : List (List Char)}
    {entries : List Entry} {entry : Entry} (h : entriesOfPieces text position pieces = .ok entries)
    (hmem : entry ∈ entries) :
    ∃ piece ∈ pieces, ∃ position, Entry.ofPiece text position piece = .ok entry := by
  induction pieces generalizing position entries with
  | nil =>
    cases h
    cases hmem
  | cons piece pieces ih =>
    rw [entriesOfPieces] at h
    obtain ⟨first, hfirst, h⟩ := bind_eq_ok_iff.1 h
    obtain ⟨others, hothers, h⟩ := bind_eq_ok_iff.1 h
    rw [← pure_eq_ok_iff.1 h] at hmem
    rcases List.mem_cons.1 hmem with rfl | hmem
    · exact ⟨piece, List.mem_cons_self, position, hfirst⟩
    · obtain ⟨other, hother, found⟩ := ih hothers hmem
      exact ⟨other, List.mem_cons_of_mem piece hother, found⟩

/-- The expression of an entry is derived from tokens that stand in the text. -/
theorem exists_derives_of_readEntries {text : String} {entries : List Entry} {entry : Entry}
    (h : readEntries text = .ok entries) (hmem : entry ∈ entries) :
    ∃ tokens, Derives .sum tokens entry.node ∧ ∀ token ∈ tokens, token <:+: text.toList := by
  obtain ⟨piece, hpiece, position, hentry⟩ := exists_piece_of_mem h hmem
  rw [Entry.ofPiece] at hentry
  split at hentry
  · rename_i node hread
    cases hentry
    obtain ⟨tokens, hspaced, hderives⟩ := derivableAs_of_readAll hread
    refine ⟨tokens, hderives, fun token htoken => ?_⟩
    exact (hspaced.infix_of_mem htoken).trans
      ((EntryText.source_infix piece).trans (infix_of_mem_pieces hpiece))
  all_goals cases hentry

end DiceNotation
