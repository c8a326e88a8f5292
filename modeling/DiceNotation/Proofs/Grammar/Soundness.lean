import DiceNotation.Proofs.Grammar.Derivation
import DiceNotation.Reading.Grammar

/-!
# Soundness of reading

A reader is sound for a language if the text that it takes consists of tokens that the language
gives to the value. Every combinator of readers has a language made of those of its parts, so a
reader is sound by the way it is put together. What a level of the grammar reads is derivable at
that level, for any number of levels of parentheses.
-/

namespace DiceNotation.Grammar

open Text

variable {α β σ : Type}

/-- Where the reader takes something, reading many goes on with the rest. -/
theorem readMany_of_some {read : List Char → Option (α × List Char)} {fuel : Nat}
    {text rest : List Char} {a : α} (h : read text = some (a, rest)) :
    readMany read (fuel + 1) text =
      (a :: (readMany read fuel rest).1, (readMany read fuel rest).2) := by
  rw [readMany, h]

/-- Where the reader takes nothing, reading many ends with the whole text left. -/
theorem readMany_of_none {read : List Char → Option (α × List Char)} {fuel : Nat}
    {text : List Char} (h : read text = none) : readMany read (fuel + 1) text = ([], text) := by
  rw [readMany, h]

/-- A sequence was read by its first part and, on what that left, by its second. -/
theorem read_of_andThen {first : Reader α} {second : Reader β} {text rest : List Char}
    {result : α × β} (h : (first.andThen second).read text = some (result, rest)) :
    ∃ middle, first.read text = some (result.1, middle) ∧
      second.read middle = some (result.2, rest) := by
  simp only [Reader.andThen, Option.bind_eq_some_iff, Option.map_eq_some_iff, Prod.mk.injEq,
    Prod.exists] at h
  obtain ⟨a, middle, hfirst, b, rest', hsecond, rfl, rfl⟩ := h
  exact ⟨middle, hfirst, hsecond⟩

/-- Something optional was either not there, and then nothing was taken, or it was read. -/
theorem read_of_optional {reader : Reader α} {text rest : List Char} {result : Option α}
    (h : reader.optional.read text = some (result, rest)) :
    (result = none ∧ rest = text) ∨ ∃ a, result = some a ∧ reader.read text = some (a, rest) := by
  simp only [Reader.optional] at h
  split at h
  · next a rest' hread =>
    simp only [Option.some.injEq, Prod.mk.injEq] at h
    obtain ⟨rfl, rfl⟩ := h
    exact .inr ⟨a, rfl, hread⟩
  · simp only [Option.some.injEq, Prod.mk.injEq] at h
    exact .inl ⟨h.1.symm, h.2.symm⟩

/-- A word that could be dropped is what the text starts with. -/
theorem eq_append_of_dropWord {word text rest : List Char}
    (h : Reader.dropWord word text = some rest) : text = word ++ rest := by
  induction word generalizing text with
  | nil => simpa only [Reader.dropWord, Option.some.injEq, List.nil_append] using h
  | cons w word ih =>
    cases text with
    | nil => simp only [Reader.dropWord, reduceCtorEq] at h
    | cons c text =>
      rw [Reader.dropWord] at h
      split at h
      · next hw => rw [hw, List.cons_append, ← ih h]
      · simp only [reduceCtorEq] at h

/-- What a word was read from starts with the word, and has its meaning. -/
theorem read_of_word {word : String} {meaning a : α} {text rest : List Char}
    (h : (Reader.word word meaning).read text = some (a, rest)) :
    a = meaning ∧ text = word.toList ++ rest := by
  simp only [Reader.word, Option.map_eq_some_iff, Prod.mk.injEq] at h
  obtain ⟨rest', hdrop, rfl, rfl⟩ := h
  exact ⟨rfl, eq_append_of_dropWord hdrop⟩

/-- What a reader takes off the front of a text are tokens of a language for the value. -/
def Reads (reader : Reader α) (language : List Token → α → Prop) : Prop :=
  ∀ ⦃text a rest⦄, reader.read text = some (a, rest) →
    ∃ tokens front, text = front ++ rest ∧ Spaced tokens front ∧ language tokens a

namespace Reads

/-- A reader is sound for every larger language. -/
theorem imp {reader : Reader α} {language other : List Token → α → Prop}
    (h : Reads reader language) (himp : ∀ tokens a, language tokens a → other tokens a) :
    Reads reader other := by
  intro text a rest hread
  obtain ⟨tokens, front, htext, hspaced, ha⟩ := h hread
  exact ⟨tokens, front, htext, hspaced, himp tokens a ha⟩

/-- A reader that takes nothing is sound for every language. -/
theorem never {language : List Token → α → Prop} : Reads Reader.never language := by
  intro text a rest hread
  simp only [Reader.never, reduceCtorEq] at hread

/-- The name of what is expected does not change what is read. -/
theorem named {reader : Reader α} {language : List Token → α → Prop} (name : String)
    (h : Reads reader language) : Reads (Reader.named name reader) language := h

/-- A value that is changed after reading is of the language of the changed values. -/
theorem map {reader : Reader α} {language : List Token → α → Prop}
    {other : List Token → β → Prop} {f : α → β} (h : Reads reader language)
    (hf : ∀ tokens a, language tokens a → other tokens (f a)) :
    Reads (Reader.map f reader) other := by
  intro text b rest hread
  simp only [Reader.map, Option.map_eq_some_iff, Prod.mk.injEq, Prod.exists] at hread
  obtain ⟨a, rest', hread, rfl, rfl⟩ := hread
  obtain ⟨tokens, front, htext, hspaced, ha⟩ := h hread
  exact ⟨tokens, front, htext, hspaced, hf tokens a ha⟩

/-- The tokens of a sequence are those of its parts, in order. -/
theorem andThen {first : Reader α} {second : Reader β} {language : List Token → α → Prop}
    {language' : List Token → β → Prop} (h : Reads first language) (h' : Reads second language') :
    Reads (first.andThen second) fun tokens result =>
      ∃ front behind, tokens = front ++ behind ∧ language front result.1 ∧
        language' behind result.2 := by
  intro text result rest hread
  obtain ⟨middle, hfirst, hsecond⟩ := read_of_andThen hread
  obtain ⟨tokens, front, htext, hspaced, ha⟩ := h hfirst
  obtain ⟨tokens', front', htext', hspaced', hb⟩ := h' hsecond
  refine ⟨tokens ++ tokens', front ++ front', ?_, hspaced.append hspaced', tokens, tokens', rfl,
    ha, hb⟩
  rw [htext, htext', List.append_assoc]

/-- A choice is sound for a language for which both of its readers are. -/
theorem orElse {first second : Reader α} {language : List Token → α → Prop}
    (h : Reads first language) (h' : Reads second language) :
    Reads (first.orElse second) language := by
  intro text a rest hread
  simp only [Reader.orElse] at hread
  split at hread
  · next hfirst => exact h (hfirst.trans hread)
  · exact h' hread

/-- A thing that is missing has no tokens. -/
theorem optional {reader : Reader α} {language : List Token → α → Prop}
    (h : Reads reader language) :
    Reads reader.optional fun tokens result =>
      (tokens = [] ∧ result = none) ∨ ∃ a, language tokens a ∧ result = some a := by
  intro text result rest hread
  rcases read_of_optional hread with ⟨rfl, rfl⟩ | ⟨a, rfl, hfound⟩
  · exact ⟨[], [], rfl, .blanks (List.forall_mem_nil _), .inl ⟨rfl, rfl⟩⟩
  · obtain ⟨tokens, front, htext, hspaced, ha⟩ := h hfound
    exact ⟨tokens, front, htext, hspaced, .inr ⟨a, ha, rfl⟩⟩

/-- Blanks around a thing belong to no token. -/
theorem padded {reader : Reader α} {language : List Token → α → Prop}
    (h : Reads reader language) : Reads reader.padded language := by
  intro text a rest hread
  simp only [Reader.padded, Option.map_eq_some_iff, Prod.mk.injEq, Prod.exists] at hread
  obtain ⟨a', middle, hread, rfl, rfl⟩ := hread
  obtain ⟨tokens, front, htext, hspaced, ha⟩ := h hread
  obtain ⟨before, hbefore, htext'⟩ := exists_blanks_append_dropBlanks text
  obtain ⟨behind, hbehind, hmiddle⟩ := exists_blanks_append_dropBlanks middle
  refine ⟨tokens, before ++ (front ++ behind), ?_,
    (hspaced.append_blanks hbehind).blanks_append hbefore, ha⟩
  rw [← htext', htext, List.append_assoc, List.append_assoc, hmiddle]

/-- The operators and operands that follow a first operand are read one pair after another. -/
theorem chain {sign : Reader σ} {item : Reader α} {mark : σ → Token}
    {language : List Token → α → Prop} (hs : Reads sign fun tokens s => tokens = [mark s])
    (hi : Reads item language) :
    Reads (sign.andThen item).many fun tokens result =>
      ∃ pieces : List (σ × List Token × α),
        (∀ piece ∈ pieces, language piece.2.1 piece.2.2) ∧
        tokens = (pieces.flatMap fun piece => mark piece.1 :: piece.2.1) ∧
        result = pieces.map fun piece => (piece.1, piece.2.2) := by
  have hmany : ∀ (fuel : Nat) (text : List Char),
      ∃ pieces : List (σ × List Token × α), ∃ front,
        text = front ++ (readMany (sign.andThen item).read fuel text).2 ∧
        Spaced (pieces.flatMap fun piece => mark piece.1 :: piece.2.1) front ∧
        (∀ piece ∈ pieces, language piece.2.1 piece.2.2) ∧
        (readMany (sign.andThen item).read fuel text).1 =
          pieces.map fun piece => (piece.1, piece.2.2) := by
    intro fuel
    induction fuel with
    | zero =>
      intro text
      exact ⟨[], [], rfl, .blanks (List.forall_mem_nil _), List.forall_mem_nil _, rfl⟩
    | succ fuel ih =>
      intro text
      cases hread : (sign.andThen item).read text with
      | none =>
        rw [readMany_of_none hread]
        exact ⟨[], [], rfl, .blanks (List.forall_mem_nil _), List.forall_mem_nil _, rfl⟩
      | some found =>
        obtain ⟨result, rest⟩ := found
        obtain ⟨tokens, front, htext, hspaced, _, operand, rfl, rfl, ha⟩ := hs.andThen hi hread
        obtain ⟨pieces, front', htext', hspaced', hall, hvalues⟩ := ih rest
        rw [readMany_of_some hread]
        refine ⟨(result.1, operand, result.2) :: pieces, front ++ front', ?_,
          hspaced.append hspaced', List.forall_mem_cons.2 ⟨ha, hall⟩, ?_⟩
        · rw [List.append_assoc, ← htext', ← htext]
        · rw [hvalues, List.map_cons]
  intro text result rest hread
  obtain ⟨pieces, front, htext, hspaced, hall, hvalues⟩ := hmany text.length text
  simp only [Reader.many, Option.some.injEq] at hread
  rw [hread] at htext hvalues
  exact ⟨_, front, htext, hspaced, pieces, hall, rfl, hvalues⟩

end Reads

/-- A word is a single token, and stands for its meaning. -/
theorem Reads.word (text : String) (meaning : α) :
    Reads (Reader.word text meaning) fun tokens a => tokens = [text.toList] ∧ a = meaning := by
  intro input a rest hread
  obtain ⟨ha, htext⟩ := read_of_word hread
  exact ⟨[text.toList], text.toList, htext, .single _, rfl, ha⟩

/-- Of several words, the one that is read is a single token. -/
theorem Reads.firstWord (words : List (String × α)) :
    Reads (Reader.firstWord words) fun tokens a =>
      ∃ text, (text, a) ∈ words ∧ tokens = [text.toList] := by
  induction words with
  | nil => exact .never
  | cons head words ih =>
    obtain ⟨text, meaning⟩ := head
    have hhead : Reads (Reader.word text meaning) fun tokens a =>
        ∃ text', (text', a) ∈ (text, meaning) :: words ∧ tokens = [text'.toList] :=
      (Reads.word text meaning).imp fun tokens a h =>
        ⟨text, h.2 ▸ List.mem_cons_self, h.1⟩
    cases words with
    | nil => exact hhead
    | cons next words =>
      refine hhead.orElse (ih.imp ?_)
      intro tokens a ⟨text', hmem, htokens⟩
      exact ⟨text', List.mem_cons_of_mem _ hmem, htokens⟩

/-- Digits of which the first one is not zero are a positive number. -/
theorem isPositive_of_isLeadingDigit {c : Char} {text : List Char}
    (h : Reader.isLeadingDigit c = true) : IsPositive (c :: text.takeWhile Char.isDigit) := by
  simp only [Reader.isLeadingDigit, Bool.and_eq_true, decide_eq_true_eq] at h
  exact ⟨h.1, h.2, fun d hd => List.all_eq_true.1 List.all_takeWhile d hd⟩

/-- What is read as a whole number is a zero or a positive number. -/
theorem exists_of_whole_read {text rest : List Char} {digits : String}
    (h : Reader.whole.read text = some (digits, rest)) :
    ∃ token, IsWhole token ∧ text = token ++ rest ∧ digits = String.ofList token := by
  cases text with
  | nil => simp only [Reader.whole, reduceCtorEq] at h
  | cons c text =>
    simp only [Reader.whole] at h
    split at h
    · next hc =>
      simp only [Option.some.injEq, Prod.mk.injEq] at h
      obtain ⟨rfl, rfl⟩ := h
      refine ⟨c :: text.takeWhile Char.isDigit, .inr (isPositive_of_isLeadingDigit hc), ?_, rfl⟩
      rw [List.cons_append, List.takeWhile_append_dropWhile]
    · split at h
      · next hc =>
        simp only [Option.some.injEq, Prod.mk.injEq] at h
        obtain ⟨rfl, rfl⟩ := h
        exact ⟨['0'], .inl rfl, by rw [hc, List.singleton_append], rfl⟩
      · simp only [reduceCtorEq] at h

/-- What is read as digits can be a fraction. -/
theorem exists_of_digits_read {text rest : List Char} {digits : String}
    (h : Reader.digits.read text = some (digits, rest)) :
    ∃ token, IsFraction token ∧ text = token ++ rest ∧ digits = String.ofList token := by
  have htext := List.takeWhile_append_dropWhile (p := Char.isDigit) (l := text)
  have hall : ∀ c ∈ text.takeWhile Char.isDigit, c.isDigit = true := fun c hc =>
    List.all_eq_true.1 List.all_takeWhile c hc
  simp only [Reader.digits] at h
  split at h
  · simp only [reduceCtorEq] at h
  · next first more hmore =>
    simp only [Option.some.injEq, Prod.mk.injEq] at h
    obtain ⟨rfl, rfl⟩ := h
    rw [hmore] at htext hall
    exact ⟨first :: more, ⟨List.cons_ne_nil _ _, hall⟩, htext.symm, rfl⟩

/-- The reader knows exactly the comparisons of the grammar. -/
theorem mem_comparisonSpellings_iff {text : String} :
    text ∈ Reader.comparisonSpellings ↔ text ∈ comparisons := by
  have h : ∀ spelling ∈ Reader.comparisonSpellings, spelling ∈ comparisons := by decide
  have h' : ∀ spelling ∈ comparisons, spelling ∈ Reader.comparisonSpellings := by decide
  exact ⟨h text, h' text⟩

namespace Reads

/-- A whole number is a single token. -/
theorem whole : Reads Reader.whole fun tokens digits =>
    ∃ token, IsWhole token ∧ tokens = [token] ∧ digits = String.ofList token := by
  intro text digits rest hread
  obtain ⟨token, htoken, htext, hdigits⟩ := exists_of_whole_read hread
  exact ⟨[token], token, htext, .single token, token, htoken, rfl, hdigits⟩

/-- A positive number is a single token, and not zero. -/
theorem positive : Reads Reader.positive fun tokens digits =>
    ∃ token, IsPositive token ∧ tokens = [token] ∧ digits = String.ofList token := by
  refine named _ ?_
  intro text digits rest hread
  simp only [Option.filter_eq_some_iff, decide_eq_true_eq] at hread
  obtain ⟨token, htoken, htext, hdigits⟩ := exists_of_whole_read hread.1
  have hpositive : IsPositive token := by
    cases htoken with
    | inl hzero => exact absurd (by rw [hdigits, hzero]) hread.2
    | inr hpositive => exact hpositive
  exact ⟨[token], token, htext, .single token, token, hpositive, rfl, hdigits⟩

/-- One of several characters is a token of its own. -/
theorem oneOf (accepted : List Char) :
    Reads (Reader.oneOf accepted) fun tokens c => c ∈ accepted ∧ tokens = [[c]] := by
  intro text c rest hread
  cases text with
  | nil => simp only [Reader.oneOf, reduceCtorEq] at hread
  | cons d text =>
    simp only [Reader.oneOf] at hread
    split at hread
    · next hd =>
      simp only [Option.some.injEq, Prod.mk.injEq] at hread
      obtain ⟨rfl, rfl⟩ := hread
      exact ⟨[[d]], [d], rfl, .single _, List.contains_iff_mem.1 hd, rfl⟩
    · simp only [reduceCtorEq] at hread

/-- A number is a single token, with its fraction if it has one. -/
theorem number : Reads Reader.number (Derives .atom) := by
  refine named _ ?_
  intro text node rest hread
  simp only [Reader.map, Option.map_eq_some_iff, Prod.mk.injEq] at hread
  obtain ⟨⟨result, rest'⟩, hread, rfl, rfl⟩ := hread
  obtain ⟨middle, hwhole, hoptional⟩ := read_of_andThen hread
  obtain ⟨token, htoken, rfl, hdigits⟩ := exists_of_whole_read hwhole
  obtain ⟨whole, fraction⟩ := result
  dsimp only at hdigits hoptional
  subst hdigits
  rcases read_of_optional hoptional with ⟨rfl, rfl⟩ | ⟨⟨_, fraction⟩, rfl, hfraction⟩
  · exact ⟨[token], token, rfl, .single token, .integer htoken⟩
  · obtain ⟨middle', hpoint, hfraction⟩ := read_of_andThen hfraction
    obtain ⟨token', htoken', rfl, hdigits'⟩ := exists_of_digits_read hfraction
    obtain ⟨_, rfl⟩ := read_of_word hpoint
    dsimp only at hdigits'
    subst hdigits'
    refine ⟨[token ++ '.' :: token'], token ++ '.' :: token', by simp, .single _, ?_⟩
    have hnode := Derives.decimal htoken htoken'
    rwa [ofList_decimal] at hnode

/-- Words that stand for the things they are the words of. -/
theorem words (word : α → String) (kinds : List α) :
    Reads (Reader.firstWord (kinds.map fun kind => (word kind, kind))) fun tokens kind =>
      kind ∈ kinds ∧ tokens = [(word kind).toList] := by
  refine (firstWord _).imp ?_
  intro tokens kind ⟨text, hmem, htokens⟩
  obtain ⟨kind', hkind, hpair⟩ := List.mem_map.1 hmem
  rw [Prod.mk.injEq] at hpair
  obtain ⟨rfl, rfl⟩ := hpair
  exact ⟨hkind, htokens⟩

/-- The word of a modifier is a single token. -/
theorem modifierWord : Reads Reader.modifierWord fun tokens kind =>
    tokens = [kind.word.toList] :=
  (words _ _).imp fun _ _ h => h.2

/-- Dice are read as the grammar derives them, with the parts that may be missing. -/
theorem dice : Reads Reader.dice DerivesDice := by
  have hletter := (oneOf ['d', 'D']).padded
  have hmodifier := (modifierWord.padded.andThen positive).optional
  refine named _ (Reads.map (((positive.optional.andThen hletter).andThen positive).andThen
    hmodifier) ?_)
  rintro _ ⟨⟨⟨count, letter⟩, sides⟩, modifier⟩
    ⟨_, behind, rfl, ⟨_, _, rfl, ⟨counted, _, rfl, hcount, hd, rfl⟩, token, htoken, rfl, rfl⟩,
      hmodifier⟩
  have hcounted : DerivesCount counted count := by
    rcases hcount with ⟨rfl, rfl⟩ | ⟨_, ⟨digits, hdigits, rfl, rfl⟩, rfl⟩
    · exact .missing
    · exact .written hdigits
  have hbehind : DerivesModifier behind modifier := by
    rcases hmodifier with ⟨rfl, rfl⟩ | ⟨⟨kind, _⟩, ⟨_, _, rfl, rfl, digits, hdigits, rfl, rfl⟩, rfl⟩
    · exact .missing
    · exact .written kind hdigits
  have hbefore : [letter] = ['d'] ∨ [letter] = ['D'] := by simpa using hd
  simpa using DerivesDice.roll hcounted hbefore htoken hbehind

/-- A comparison is a single token, whatever blanks stand around it. -/
theorem comparison : Reads Reader.comparison fun tokens text =>
    text ∈ comparisons ∧ tokens = [text.toList] := by
  refine named _ ((words (fun text => text) _).padded.imp ?_)
  intro tokens text ⟨hmem, htokens⟩
  exact ⟨mem_comparisonSpellings_iff.1 hmem, htokens⟩

/-- What starts with dice is an atom, which is a check if a comparison follows. -/
theorem diceCheck : Reads Reader.diceCheck (Derives .atom) := by
  refine (dice.andThen (comparison.andThen whole).optional).map ?_
  rintro _ ⟨written, result⟩ ⟨tokens, _, rfl, hdice, hcheck⟩
  rcases hcheck with ⟨rfl, rfl⟩ |
    ⟨⟨text, _⟩, ⟨_, _, rfl, ⟨htext, rfl⟩, threshold, hthreshold, rfl, rfl⟩, rfl⟩
  · rw [List.append_nil]
    exact .dice hdice
  · exact .check hdice htext hthreshold

/-- The word of a difficulty is a single token. -/
theorem difficulty : Reads Reader.difficulty fun tokens kind =>
    tokens = [kind.word.toList] :=
  (words _ _).imp fun _ _ h => h.2

/-- A short check is an atom of three tokens. -/
theorem shortCheck : Reads Reader.shortCheck (Derives .atom) := by
  refine named _ (Reads.map (((Reads.word _ _).andThen difficulty.padded).andThen positive) ?_)
  rintro _ ⟨⟨_, kind⟩, _⟩ ⟨_, _, rfl, ⟨_, _, rfl, ⟨rfl, _⟩, rfl⟩, count, hcount, rfl, rfl⟩
  exact .nb kind hcount

/-- A sum in parentheses is an atom. -/
theorem parenthesised {inner : Reader Node} (h : Reads inner (Derives .sum)) :
    Reads (Reader.parenthesised inner) (Derives .atom) := by
  refine Reads.map (((Reads.word _ _).andThen h.padded).andThen (Reads.word _ _)) ?_
  rintro _ ⟨⟨_, node⟩, _⟩ ⟨_, _, rfl, ⟨_, tokens, rfl, ⟨rfl, _⟩, hnode⟩, rfl, _⟩
  exact .parentheses hnode

/-- Whichever of its forms an atom is read in, the grammar derives it. -/
theorem atom {inner : Reader Node} (h : Reads inner (Derives .sum)) :
    Reads (Reader.atom inner) (Derives .atom) :=
  (((shortCheck.orElse diceCheck).orElse number).orElse (parenthesised h)).padded

/-- A negation is an atom with at most one sign in front. -/
theorem negation {inner : Reader Node} (h : Reads inner (Derives .sum)) :
    Reads (Reader.negation inner) (Derives .negation) := by
  refine ((Reads.word _ _).padded.optional.andThen (atom h)).map ?_
  rintro _ ⟨sign, node⟩ ⟨_, tokens, rfl, hsign, hnode⟩
  rcases hsign with ⟨rfl, rfl⟩ | ⟨_, ⟨rfl, _⟩, rfl⟩
  · exact .plain hnode
  · exact .negated hnode

/-- A power is a negation, followed by any number of exponents. -/
theorem power {inner : Reader Node} (h : Reads inner (Derives .sum)) :
    Reads (Reader.power inner) (Derives .power) := by
  have hsign : Reads (Reader.word "^" ()).padded fun tokens _ => tokens = [['^']] :=
    (Reads.word _ _).padded.imp fun _ _ h => h.1
  refine ((negation h).andThen (chain hsign (negation h))).map ?_
  rintro _ ⟨first, _⟩ ⟨tokens, _, rfl, hfirst, pieces, hpieces, rfl, rfl⟩
  cases pieces with
  | nil =>
    rw [List.flatMap_nil, List.append_nil]
    exact .base hfirst
  | cons piece pieces =>
    have hrest : ∀ operand ∈ (piece :: pieces).map Prod.snd,
        Derives .negation operand.1 operand.2 := List.forall_mem_map.2 hpieces
    have hpower := Derives.power hfirst hrest (by simp)
    rw [List.flatMap_map, List.map_map] at hpower
    simpa only [List.map_cons, List.map_map, Function.comp_def] using hpower

/-- The sign of a factor is a single token. -/
theorem factorSign : Reads Reader.factorSign fun tokens sign =>
    tokens = [[factorMark sign]] := by
  refine (Reads.firstWord _).padded.imp ?_
  intro tokens sign ⟨text, hmem, htokens⟩
  simp only [List.mem_cons, Prod.mk.injEq, List.not_mem_nil, or_false] at hmem
  rcases hmem with ⟨rfl, rfl⟩ | ⟨rfl, rfl⟩ <;> exact htokens

/-- The sign of a term is a single token. -/
theorem termSign : Reads Reader.termSign fun tokens sign => tokens = [[termMark sign]] := by
  refine (Reads.firstWord _).padded.imp ?_
  intro tokens sign ⟨text, hmem, htokens⟩
  simp only [List.mem_cons, Prod.mk.injEq, List.not_mem_nil, or_false] at hmem
  rcases hmem with ⟨rfl, rfl⟩ | ⟨rfl, rfl⟩ <;> exact htokens

/-- A product is a power, followed by any number of signed factors. -/
theorem product {inner : Reader Node} (h : Reads inner (Derives .sum)) :
    Reads (Reader.product inner) (Derives .product) := by
  refine ((power h).andThen (chain factorSign (power h))).map ?_
  rintro _ ⟨first, _⟩ ⟨tokens, _, rfl, hfirst, pieces, hpieces, rfl, rfl⟩
  cases pieces with
  | nil =>
    rw [List.flatMap_nil, List.append_nil]
    exact .factor hfirst
  | cons piece pieces => exact .product hfirst hpieces (List.cons_ne_nil _ _)

/-- A sum is a product, followed by any number of signed terms. -/
theorem sum {inner : Reader Node} (h : Reads inner (Derives .sum)) :
    Reads (Reader.sum inner) (Derives .sum) := by
  refine ((product h).andThen (chain termSign (product h))).map ?_
  rintro _ ⟨first, _⟩ ⟨tokens, _, rfl, hfirst, pieces, hpieces, rfl, rfl⟩
  cases pieces with
  | nil =>
    rw [List.flatMap_nil, List.append_nil]
    exact .term hfirst
  | cons piece pieces => exact .sum hfirst hpieces (List.cons_ne_nil _ _)

/-- For any number of levels of parentheses, what is read is a sum. -/
theorem level (depth : Nat) : Reads (Reader.level depth) (Derives .sum) := by
  induction depth with
  | zero => exact sum never
  | succ depth ih => exact sum ih

end Reads

/-- What is read of a text is derivable. -/
theorem derivableAs_of_readAll {text : List Char} {node : Node}
    (h : Reader.expression.padded.readAll text = .ok node) : DerivableAs text node := by
  have hexpression : Reads Reader.expression (Derives .sum) := by
    intro text node rest hread
    exact Reads.level _ hread
  simp only [Reader.readAll] at h
  split at h
  · next node' _ rest hread =>
    rw [Except.ok.injEq] at h
    subst h
    obtain ⟨middle, hread, hfinish⟩ := read_of_andThen hread
    obtain ⟨tokens, front, rfl, hspaced, hnode⟩ := hexpression.padded hread
    cases middle with
    | nil => exact ⟨tokens, by rwa [List.append_nil], hnode⟩
    | cons c middle => simp only [Reader.finish, reduceCtorEq] at hfinish
  · simp only [reduceCtorEq] at h

end DiceNotation.Grammar
