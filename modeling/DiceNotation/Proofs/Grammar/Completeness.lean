import DiceNotation.Proofs.Grammar.Soundness
import DiceNotation.Proofs.Grammar.Tokens

/-!
# Completeness of reading

A reader is complete for some tokens if it takes them off the front of every text in which they are
followed by the end or by one of the characters that may stand behind them, and if it leaves no
blanks. The characters behind a level are those that levels above it put there, so the greedy
reading of a chain stops where its derivation does. Parentheses are counted, since each of them
needs a level more.
-/

namespace DiceNotation.Grammar

open Text

variable {α β σ : Type}

/-- With at most `depth` opening parentheses in them, some tokens are read as a value wherever they
stand in front of one of some characters. -/
def Complete (depth : Nat) (reader : Reader α) (follow : List Char) (tokens : List Token)
    (a : α) : Prop :=
  ∀ ⦃front rest⦄, Spaced tokens front → front.count '(' ≤ depth →
    Starts (· ∈ follow) (dropBlanks rest) →
    reader.read (dropBlanks (front ++ rest)) = some (a, dropBlanks rest)

namespace Complete

/-- The tokens of an operator and an operand, over and over. -/
theorem readMany {depth : Nat} {sign : Reader σ} {item : Reader α} {mark : σ → Char}
    {follow itemFollow : List Char}
    (hsign : ∀ s text, sign.read (mark s :: text) = some (s, dropBlanks text))
    (hsolid : ∀ s, isBlank (mark s) = false) (hmark : ∀ s, mark s ∈ itemFollow)
    (hrefuse : ∀ rest, Starts (· ∈ follow) (dropBlanks rest) → sign.read (dropBlanks rest) = none)
    (hsub : follow ⊆ itemFollow) {pieces : List (σ × List Token × α)}
    (hpieces : ∀ piece ∈ pieces, Complete depth item itemFollow piece.2.1 piece.2.2)
    {front rest : List Char}
    (hs : Spaced (pieces.flatMap fun piece => [mark piece.1] :: piece.2.1) front)
    (hcount : front.count '(' ≤ depth) (hrest : Starts (· ∈ follow) (dropBlanks rest)) :
    Starts (· ∈ itemFollow) (dropBlanks (front ++ rest)) ∧
      ∀ fuel, (dropBlanks (front ++ rest)).length ≤ fuel →
        DiceNotation.readMany (sign.andThen item).read fuel (dropBlanks (front ++ rest)) =
          (pieces.map fun piece => (piece.1, piece.2.2), dropBlanks rest) := by
  induction pieces generalizing front with
  | nil =>
    rw [hs.dropBlanks_of_nil]
    refine ⟨hrest.mono hsub, fun fuel _ => ?_⟩
    cases fuel with
    | zero => rfl
    | succ fuel => rw [readMany_of_none (read_andThen_none _ (hrefuse _ hrest)), List.map_nil]
  | cons piece pieces ih =>
    obtain ⟨hpiece, hpieces⟩ := List.forall_mem_cons.1 hpieces
    rw [List.flatMap_cons, List.cons_append] at hs
    obtain ⟨behind, hbehind, hcountSign, hdrop⟩ :=
      hs.exists_of_cons ⟨mark piece.1, [], rfl, hsolid piece.1⟩
    obtain ⟨operand, others, rfl, hoperand, hothers⟩ := hbehind.exists_of_append
    rw [List.count_append] at hcountSign
    obtain ⟨hstart, hmany⟩ := ih hpieces hothers (by omega)
    have hitem := hpiece hoperand (by omega) hstart
    rw [hdrop, List.singleton_append, List.append_assoc]
    refine ⟨starts_cons (hmark piece.1), fun fuel hfuel => ?_⟩
    cases fuel with
    | zero => simp only [List.length_cons, Nat.le_zero, Nat.succ_ne_zero] at hfuel
    | succ fuel =>
      have hshort : (dropBlanks (others ++ rest)).length ≤ fuel := by
        have hle := length_dropBlanks_le (others ++ rest)
        rw [List.length_cons, List.length_append] at hfuel
        omega
      rw [readMany_of_some (read_andThen (hsign piece.1 _) hitem), hmany fuel hshort,
        List.map_cons]

/-- A chain is read up to the characters behind it. -/
theorem chain {depth : Nat} {sign : Reader σ} {item : Reader α} (mark : σ → Char)
    {follow itemFollow : List Char}
    (hsign : ∀ s text, sign.read (mark s :: text) = some (s, dropBlanks text))
    (hsolid : ∀ s, isBlank (mark s) = false) (hmark : ∀ s, mark s ∈ itemFollow)
    (hrefuse : ∀ rest, Starts (· ∈ follow) (dropBlanks rest) → sign.read (dropBlanks rest) = none)
    (hsub : follow ⊆ itemFollow) {tokens : List Token} {first : α}
    (hfirst : Complete depth item itemFollow tokens first) {pieces : List (σ × List Token × α)}
    (hpieces : ∀ piece ∈ pieces, Complete depth item itemFollow piece.2.1 piece.2.2) :
    Complete depth (item.andThen (sign.andThen item).many) follow
      (tokens ++ pieces.flatMap fun piece => [mark piece.1] :: piece.2.1)
      (first, pieces.map fun piece => (piece.1, piece.2.2)) := by
  intro front rest hs hcount hrest
  obtain ⟨front, behind, rfl, hfront, hbehind⟩ := hs.exists_of_append
  rw [List.count_append] at hcount
  obtain ⟨hstart, hmany⟩ :=
    readMany hsign hsolid hmark hrefuse hsub hpieces hbehind (by omega) hrest
  rw [List.append_assoc]
  refine read_andThen (hfirst hfront (by omega) hstart) ?_
  simp only [Reader.many, hmany _ (Nat.le_refl _)]

end Complete

/-- The reader of a level, given that of the expressions in parentheses. -/
def Level.reader (inner : Reader Node) : Level → Reader Node
  | sum => Reader.sum inner
  | product => Reader.product inner
  | power => Reader.power inner
  | negation => Reader.negation inner
  | atom => Reader.atom inner

/-- The characters that may stand behind a level. -/
def Level.follow : Level → List Char
  | sum => [')']
  | product => [')', '+', '-']
  | power => [')', '+', '-', '*', '/']
  | negation => atomMarks
  | atom => atomMarks

/-- The reader of the expressions in parentheses. -/
def inside : (depth : Nat) → Reader Node
  | 0 => .never
  | depth + 1 => .level depth

/-- A level of parentheses reads sums of what stands inside it. -/
theorem level_eq_sum_inside (depth : Nat) : Reader.level depth = Reader.sum (inside depth) := by
  cases depth <;> rfl

/-! ## Atoms -/

/-- Dice start with a digit or with their letter. -/
theorem DerivesDice.exists_cons {tokens : List Token} {written : WrittenDice}
    (h : DerivesDice tokens written) :
    ∃ c more others, tokens = (c :: more) :: others ∧ isBlank c = false ∧ c ≠ 'n' ∧ c ≠ '-' := by
  cases h with
  | roll hcount hbefore hsides hmodifier =>
    cases hcount with
    | missing =>
      rcases hbefore with rfl | rfl
      · exact ⟨'d', [], _, rfl, by decide, by decide, by decide⟩
      · exact ⟨'D', [], _, rfl, by decide, by decide, by decide⟩
    | written hdigits =>
      obtain ⟨first, more, rfl, hfirst⟩ := IsWhole.exists_cons (.inr hdigits)
      refine ⟨first, more, _, rfl, isBlank_of_isDigit hfirst, ?_, ?_⟩
      · exact fun heq => absurd (heq ▸ hfirst) (by decide)
      · exact fun heq => absurd (heq ▸ hfirst) (by decide)

/-- No atom starts with a minus sign. -/
theorem Derives.exists_cons_of_atom {tokens : List Token} {node : Node}
    (h : Derives .atom tokens node) :
    ∃ c more others, tokens = (c :: more) :: others ∧ isBlank c = false ∧ c ≠ '-' := by
  have hdigit : ∀ c : Char, c.isDigit = true → c ≠ '-' :=
    fun c hc heq => absurd (heq ▸ hc) (by decide)
  cases h with
  | integer hdigits =>
    obtain ⟨first, more, rfl, hfirst⟩ := hdigits.exists_cons
    exact ⟨first, more, [], rfl, isBlank_of_isDigit hfirst, hdigit first hfirst⟩
  | decimal hwhole hfraction =>
    obtain ⟨first, more, rfl, hfirst⟩ := hwhole.exists_cons
    exact ⟨first, _, [], rfl, isBlank_of_isDigit hfirst, hdigit first hfirst⟩
  | dice hdice =>
    obtain ⟨c, more, others, rfl, hblank, -, hminus⟩ := hdice.exists_cons
    exact ⟨c, more, others, rfl, hblank, hminus⟩
  | check hdice hcomparison hthreshold =>
    obtain ⟨c, more, others, rfl, hblank, -, hminus⟩ := hdice.exists_cons
    exact ⟨c, more, _, rfl, hblank, hminus⟩
  | nb difficulty hcount => exact ⟨'n', ['b'], _, rfl, by decide, by decide⟩
  | parentheses hsum => exact ⟨'(', [], _, rfl, by decide, by decide⟩

/-- An atom is complete if one of its alternatives takes it up to the blanks behind it. -/
theorem complete_atom {inner : Reader Node} {depth : Nat} {tokens : List Token} {node : Node}
    (h : ∀ ⦃front rest⦄, Spaced tokens front → front.count '(' ≤ depth →
      Starts (· ∈ atomMarks) (dropBlanks rest) →
      ∃ middle, ((Reader.check.orElse Reader.number).orElse (Reader.parenthesised inner)).read
          (dropBlanks (front ++ rest)) = some (node, middle) ∧
        dropBlanks middle = dropBlanks rest) :
    Complete depth (Reader.atom inner) atomMarks tokens node := by
  intro front rest hs hcount hrest
  obtain ⟨middle, hread, hmiddle⟩ := h hs hcount hrest
  rw [← hmiddle]
  refine read_padded ?_
  rwa [dropBlanks_dropBlanks]

/-- Every whole number is read as an integer. -/
theorem complete_integer {digits : Token} {inner : Reader Node} {depth : Nat}
    (h : IsWhole digits) :
    Complete depth (Reader.atom inner) atomMarks [digits] (.integer (String.ofList digits)) := by
  refine complete_atom fun front rest hs _ hrest => ?_
  obtain ⟨behind, hbehind, -, hdrop⟩ := hs.exists_of_cons h.solid
  have hdropBehind := hbehind.dropBlanks_of_nil rest
  have hmarks : Starts (· ∈ atomMarks) (dropBlanks (behind ++ rest)) := hdropBehind ▸ hrest
  have hletters : ∀ c ∈ atomMarks, c ∉ ['d', 'D'] := by decide
  have hcheck := read_check_none_of_digits h
    (Starts.not_isDigit (hmarks.mono (List.subset_append_left _ _))) (hmarks.imp hletters)
  refine ⟨behind ++ rest, read_orElse ?_, hdropBehind⟩
  rw [hdrop, read_orElse_of_none hcheck]
  exact read_integer h hmarks

/-- Every whole number with a fraction is read as a decimal number. -/
theorem complete_decimal {whole fraction : Token} {inner : Reader Node} {depth : Nat}
    (hw : IsWhole whole) (hf : IsFraction fraction) :
    Complete depth (Reader.atom inner) atomMarks [whole ++ '.' :: fraction]
      (.decimal (String.ofList (whole ++ '.' :: fraction))) := by
  refine complete_atom fun front rest hs _ hrest => ?_
  have hsolid : Solid (whole ++ '.' :: fraction) := by
    obtain ⟨first, more, rfl, hblank⟩ := hw.solid
    exact ⟨first, _, rfl, hblank⟩
  obtain ⟨behind, hbehind, -, hdrop⟩ := hs.exists_of_cons hsolid
  have hdropBehind := hbehind.dropBlanks_of_nil rest
  have hpoint : Starts (· ∉ ['d', 'D']) (dropBlanks ('.' :: fraction ++ (behind ++ rest))) := by
    rw [List.cons_append, dropBlanks_cons (by decide)]
    exact starts_cons (by decide)
  have hcheck : Reader.check.read ((whole ++ '.' :: fraction) ++ (behind ++ rest)) = none := by
    rw [List.append_assoc]
    exact read_check_none_of_digits hw (starts_cons rfl) hpoint
  refine ⟨behind ++ rest, read_orElse ?_, hdropBehind⟩
  rw [hdrop, read_orElse_of_none hcheck]
  exact read_decimal hw hf (hdropBehind ▸ hrest)

/-- What dice or a check of dice are read as, if they are no short check. -/
theorem complete_of_diceCheck {tokens : List Token} {node : Node} {inner : Reader Node}
    {depth : Nat}
    (hhead : ∃ c more others, tokens = (c :: more) :: others ∧ isBlank c = false ∧ c ≠ 'n')
    (h : ∀ ⦃front rest⦄, Spaced tokens front → Starts (· ∈ atomMarks) (dropBlanks rest) →
      ∃ middle, Reader.diceCheck.read (dropBlanks (front ++ rest)) = some (node, middle) ∧
        dropBlanks middle = dropBlanks rest) :
    Complete depth (Reader.atom inner) atomMarks tokens node := by
  refine complete_atom fun front rest hs _ hrest => ?_
  obtain ⟨middle, hread, hmiddle⟩ := h hs hrest
  obtain ⟨c, more, others, rfl, hblank, hne⟩ := hhead
  obtain ⟨behind, -, -, hdrop⟩ := hs.exists_of_cons ⟨c, more, rfl, hblank⟩
  have hword : (Reader.word "nb" ()).read (dropBlanks (front ++ rest)) = none := by
    rw [hdrop]
    exact read_word_none rfl (starts_cons hne)
  have hshort : Reader.shortCheck.read (dropBlanks (front ++ rest)) = none := by
    simp only [Reader.shortCheck, Reader.named]
    exact read_map_none _ (read_andThen_none _ (read_andThen_none _ hword))
  refine ⟨middle, read_orElse (read_orElse ?_), hmiddle⟩
  rw [Reader.check, read_orElse_of_none hshort]
  exact hread

/-- All dice are read as dice. -/
theorem complete_dice {tokens : List Token} {written : WrittenDice} {inner : Reader Node}
    {depth : Nat} (h : DerivesDice tokens written) :
    Complete depth (Reader.atom inner) atomMarks tokens (.dice written) := by
  obtain ⟨c, more, others, htokens, hblank, hne, -⟩ := h.exists_cons
  exact complete_of_diceCheck ⟨c, more, others, htokens, hblank, hne⟩
    fun front rest hs hrest => read_diceCheck_of_dice h hs hrest

/-- Dice with a comparison and a threshold are read as a check. -/
theorem complete_check {tokens : List Token} {written : WrittenDice} {comparison : String}
    {threshold : Token} {inner : Reader Node} {depth : Nat} (hd : DerivesDice tokens written)
    (hc : comparison ∈ comparisons) (ht : IsWhole threshold) :
    Complete depth (Reader.atom inner) atomMarks (tokens ++ [comparison.toList, threshold])
      (.check written comparison (String.ofList threshold)) := by
  obtain ⟨c, more, others, htokens, hblank, hne, -⟩ := hd.exists_cons
  refine complete_of_diceCheck ⟨c, more, others ++ [comparison.toList, threshold], ?_, hblank, hne⟩
    fun front rest hs hrest => read_diceCheck hd hc ht hs hrest
  rw [htokens, List.cons_append]

/-- Every short check is read as one. -/
theorem complete_nb {count : Token} {inner : Reader Node} {depth : Nat} (difficulty : Difficulty)
    (h : IsPositive count) :
    Complete depth (Reader.atom inner) atomMarks [['n', 'b'], difficulty.word.toList, count]
      (.nb difficulty (String.ofList count)) := by
  refine complete_atom fun front rest hs _ hrest => ?_
  obtain ⟨middle, hread, hmiddle⟩ := read_shortCheck difficulty h hs hrest
  exact ⟨middle, read_orElse (read_orElse (read_orElse hread)), hmiddle⟩

/-- A pair of parentheses takes a level of the reader. -/
theorem complete_parentheses {tokens : List Token} {node : Node} {inner : Reader Node}
    {depth : Nat}
    (h : ∀ less, depth = less + 1 → Complete less inner Level.sum.follow tokens node) :
    Complete depth (Reader.atom inner) atomMarks (['('] :: (tokens ++ [[')']])) node := by
  refine complete_atom fun front rest hs hcount hrest => ?_
  obtain ⟨behind, hbehind, hcounted, hdrop⟩ := hs.exists_of_cons ⟨'(', [], rfl, by decide⟩
  obtain ⟨content, last, rfl, hcontent, hlast⟩ := hbehind.exists_of_append
  obtain ⟨blanks, hblanks, -, hdropLast⟩ := hlast.exists_of_cons ⟨')', [], rfl, by decide⟩
  have hone : ['('].count '(' = 1 := by decide
  rw [List.count_append, hone] at hcounted
  obtain ⟨less, rfl⟩ : ∃ less, depth = less + 1 := ⟨depth - 1, by omega⟩
  have hclosed : Starts (· ∈ Level.sum.follow) (dropBlanks (last ++ rest)) := by
    rw [hdropLast]
    exact starts_cons (by decide)
  have hpadded := read_padded (h less rfl hcontent (by omega) hclosed)
  rw [dropBlanks_dropBlanks, hdropLast] at hpadded
  have hopen := read_word "(" () (content ++ (last ++ rest))
  have hclose := read_word ")" () (blanks ++ rest)
  have hread := read_andThen (read_andThen hopen hpadded) hclose
  refine ⟨blanks ++ rest, ?_, hblanks.dropBlanks_of_nil rest⟩
  rw [hdrop, List.append_assoc, read_orElse_of_none]
  · exact read_map (fun result => result.1.2) hread
  · rw [List.singleton_append, read_orElse_of_none (read_check_none_of_parenthesis _)]
    rfl

/-! ## Levels -/

/-- An atom without a sign is read as what it is. -/
theorem complete_plain {tokens : List Token} {node : Node} {inner : Reader Node} {depth : Nat}
    (hatom : Derives .atom tokens node)
    (h : Complete depth (Reader.atom inner) atomMarks tokens node) :
    Complete depth (Reader.negation inner) atomMarks tokens node := by
  intro front rest hs hcount hrest
  obtain ⟨c, more, others, rfl, hblank, hminus⟩ := hatom.exists_cons_of_atom
  obtain ⟨behind, -, -, hdrop⟩ := hs.exists_of_cons ⟨c, more, rfl, hblank⟩
  have hsign : (Reader.word "-" ()).padded.read (dropBlanks (front ++ rest)) = none := by
    refine read_padded_none ?_
    rw [dropBlanks_dropBlanks, hdrop]
    exact read_word_none rfl (starts_cons hminus)
  have hread := read_andThen (read_optional_none hsign) (h hs hcount hrest)
  simp only [Reader.negation, Reader.map, hread, Option.map_some]

/-- An atom behind a minus is read as its negation. -/
theorem complete_negated {tokens : List Token} {node : Node} {inner : Reader Node} {depth : Nat}
    (h : Complete depth (Reader.atom inner) atomMarks tokens node) :
    Complete depth (Reader.negation inner) atomMarks (['-'] :: tokens) (.negation node) := by
  intro front rest hs hcount hrest
  obtain ⟨behind, hbehind, hcounted, hdrop⟩ := hs.exists_of_cons ⟨'-', [], rfl, by decide⟩
  have hsign : (Reader.word "-" ()).padded.read (dropBlanks (front ++ rest)) =
      some ((), dropBlanks (behind ++ rest)) := by
    refine read_padded ?_
    rw [dropBlanks_dropBlanks, hdrop]
    exact read_word "-" () (behind ++ rest)
  have hread := read_andThen (read_optional hsign) (h hbehind (by omega) hrest)
  simp only [Reader.negation, Reader.map, hread, Option.map_some]

/-- The sign of a term is read with the blanks behind it. -/
theorem read_termSign (sign : TermSign) (text : List Char) :
    Reader.termSign.read (termMark sign :: text) = some (sign, dropBlanks text) := by
  cases sign <;> rfl

/-- The sign of a factor is read with the blanks behind it. -/
theorem read_factorSign (sign : FactorSign) (text : List Char) :
    Reader.factorSign.read (factorMark sign :: text) = some (sign, dropBlanks text) := by
  cases sign <;> rfl

/-- The sign of a power is read with the blanks behind it. -/
theorem read_powerSign (sign : Unit) (text : List Char) :
    (Reader.word "^" ()).padded.read ('^' :: text) = some (sign, dropBlanks text) :=
  rfl

/-- An operator is not there if its characters may not stand behind a level. -/
theorem read_sign_none {words : List (String × α)} {follow : List Char} (marks : List Char)
    (hwords : firstsIn marks words = true) (hmarks : ∀ c ∈ follow, c ∉ marks) {rest : List Char}
    (hrest : Starts (· ∈ follow) (dropBlanks rest)) :
    (Reader.firstWord words).padded.read (dropBlanks rest) = none := by
  refine read_padded_none ?_
  rw [dropBlanks_dropBlanks]
  exact read_firstWord_none marks hwords (hrest.imp hmarks)

/-- A first term and any number of signed terms behind it are all read. -/
theorem complete_terms {inner : Reader Node} {depth : Nat} {tokens : List Token} {first : Node}
    {pieces : List (TermSign × List Token × Node)}
    (hfirst : Complete depth (Reader.product inner) Level.product.follow tokens first)
    (hpieces : ∀ piece ∈ pieces,
      Complete depth (Reader.product inner) Level.product.follow piece.2.1 piece.2.2) :
    Complete depth
      ((Reader.product inner).andThen (Reader.termSign.andThen (Reader.product inner)).many)
      Level.sum.follow (tokens ++ pieces.flatMap fun piece => [termMark piece.1] :: piece.2.1)
      (first, pieces.map fun piece => (piece.1, piece.2.2)) := by
  refine Complete.chain termMark read_termSign ?_ ?_ ?_ (by decide) hfirst hpieces
  · intro sign
    cases sign <;> decide
  · intro sign
    cases sign <;> decide
  · exact fun rest => read_sign_none ['+', '-'] (by decide) (by decide)

/-- A first factor and any number of signed factors behind it are all read. -/
theorem complete_factors {inner : Reader Node} {depth : Nat} {tokens : List Token} {first : Node}
    {pieces : List (FactorSign × List Token × Node)}
    (hfirst : Complete depth (Reader.power inner) Level.power.follow tokens first)
    (hpieces : ∀ piece ∈ pieces,
      Complete depth (Reader.power inner) Level.power.follow piece.2.1 piece.2.2) :
    Complete depth
      ((Reader.power inner).andThen (Reader.factorSign.andThen (Reader.power inner)).many)
      Level.product.follow
      (tokens ++ pieces.flatMap fun piece => [factorMark piece.1] :: piece.2.1)
      (first, pieces.map fun piece => (piece.1, piece.2.2)) := by
  refine Complete.chain factorMark read_factorSign ?_ ?_ ?_ (by decide) hfirst hpieces
  · intro sign
    cases sign <;> decide
  · intro sign
    cases sign <;> decide
  · exact fun rest => read_sign_none ['*', '/'] (by decide) (by decide)

/-- A base and any number of exponents behind it are all read. -/
theorem complete_exponents {inner : Reader Node} {depth : Nat} {tokens : List Token} {first : Node}
    {pieces : List (List Token × Node)}
    (hfirst : Complete depth (Reader.negation inner) Level.negation.follow tokens first)
    (hpieces : ∀ piece ∈ pieces,
      Complete depth (Reader.negation inner) Level.negation.follow piece.1 piece.2) :
    Complete depth
      ((Reader.negation inner).andThen
        ((Reader.word "^" ()).padded.andThen (Reader.negation inner)).many)
      Level.power.follow (tokens ++ pieces.flatMap fun piece => ['^'] :: piece.1)
      (first, pieces.map fun piece => ((), piece.2)) := by
  have hsigned : ∀ piece ∈ pieces.map fun piece => ((), piece),
      Complete depth (Reader.negation inner) Level.negation.follow piece.2.1 piece.2.2 :=
    List.forall_mem_map.2 hpieces
  have hrefuse : ∀ rest, Starts (· ∈ Level.power.follow) (dropBlanks rest) →
      (Reader.firstWord [("^", ())]).padded.read (dropBlanks rest) = none :=
    fun rest => read_sign_none ['^'] (by decide) (by decide)
  have hchain := Complete.chain (fun _ => '^') read_powerSign (fun _ => by decide)
    (fun _ => by decide) hrefuse (by decide) hfirst hsigned
  rwa [List.flatMap_map, List.map_map] at hchain

/-- What is derivable at a level is read at that level. -/
theorem Derives.complete {lvl : Level} {tokens : List Token} {node : Node}
    (h : Derives lvl tokens node) (depth : Nat) :
    Complete depth (lvl.reader (inside depth)) lvl.follow tokens node := by
  induction h generalizing depth with
  | integer hdigits => exact complete_integer hdigits
  | decimal hwhole hfraction => exact complete_decimal hwhole hfraction
  | dice hdice => exact complete_dice hdice
  | check hdice hcomparison hthreshold => exact complete_check hdice hcomparison hthreshold
  | nb difficulty hcount => exact complete_nb difficulty hcount
  | parentheses hsum ih =>
    refine complete_parentheses ?_
    rintro less rfl
    rw [inside, level_eq_sum_inside]
    exact ih less
  | plain hatom ih => exact complete_plain hatom (ih depth)
  | negated hatom ih => exact complete_negated (ih depth)
  | base hnegation ih =>
    intro front rest hs hcount hrest
    have hchain := complete_exponents (ih depth) (List.forall_mem_nil _)
    rw [List.flatMap_nil, List.append_nil] at hchain
    simp only [Level.reader, Reader.power, Reader.map, hchain hs hcount hrest, Option.map_some,
      List.map_nil]
  | @power tokens first pieces hfirst hpieces hne ihfirst ihpieces =>
    intro front rest hs hcount hrest
    have hchain :=
      complete_exponents (ihfirst depth) fun piece hpiece => ihpieces piece hpiece depth
    cases pieces with
    | nil => exact absurd rfl hne
    | cons piece pieces =>
      simp only [Level.reader, Reader.power, Reader.map, hchain hs hcount hrest, Option.map_some,
        List.map_cons, List.map_map, Function.comp_def]
  | factor hpower ih =>
    intro front rest hs hcount hrest
    have hchain := complete_factors (ih depth) (List.forall_mem_nil _)
    rw [List.flatMap_nil, List.append_nil] at hchain
    simp only [Level.reader, Reader.product, Reader.map, hchain hs hcount hrest, Option.map_some,
      List.map_nil]
  | @product tokens first pieces hfirst hpieces hne ihfirst ihpieces =>
    intro front rest hs hcount hrest
    have hchain := complete_factors (ihfirst depth) fun piece hpiece => ihpieces piece hpiece depth
    cases pieces with
    | nil => exact absurd rfl hne
    | cons piece pieces =>
      simp only [Level.reader, Reader.product, Reader.map, hchain hs hcount hrest, Option.map_some,
        List.map_cons]
  | term hproduct ih =>
    intro front rest hs hcount hrest
    have hchain := complete_terms (ih depth) (List.forall_mem_nil _)
    rw [List.flatMap_nil, List.append_nil] at hchain
    simp only [Level.reader, Reader.sum, Reader.map, hchain hs hcount hrest, Option.map_some,
      List.map_nil]
  | @sum tokens first pieces hfirst hpieces hne ihfirst ihpieces =>
    intro front rest hs hcount hrest
    have hchain := complete_terms (ihfirst depth) fun piece hpiece => ihpieces piece hpiece depth
    cases pieces with
    | nil => exact absurd rfl hne
    | cons piece pieces =>
      simp only [Level.reader, Reader.sum, Reader.map, hchain hs hcount hrest, Option.map_some,
        List.map_cons]

/-- What is derivable is read. -/
theorem readAll_of_derivableAs {text : List Char} {node : Node} (h : DerivableAs text node) :
    Reader.expression.padded.readAll text = .ok node := by
  obtain ⟨tokens, hs, hnode⟩ := h
  have hcount : text.count '(' ≤ (dropBlanks text).count '(' := by
    obtain ⟨blanks, hblanks, htext⟩ := exists_blanks_append_dropBlanks text
    have hsum := congrArg (List.count '(') htext
    rw [List.count_append, count_eq_zero_of_blanks hblanks] at hsum
    omega
  have hend : Starts (· ∈ Level.sum.follow) (dropBlanks []) := by
    intro c rest htext
    simp only [dropBlanks, List.dropWhile_nil, reduceCtorEq] at htext
  have hread := hnode.complete _ hs hcount hend
  rw [List.append_nil, Level.reader, ← level_eq_sum_inside] at hread
  have hexpression : Reader.expression.read (dropBlanks text) = some (node, []) := hread
  have hpadded := read_padded hexpression
  have hfinish : Reader.finish.read (dropBlanks []) = some ((), []) := rfl
  simp only [Reader.readAll, read_andThen hpadded hfinish]

end DiceNotation.Grammar
