import DiceNotation.Proofs.Grammar.Derivation
import DiceNotation.Reading.Grammar

/-!
# Reading tokens

Readers of tokens take exactly their token off the front of a text, as long as what follows could
not be a part of it, and they refuse a text that starts in another way. Dice are read together with
their modifier, since what may stand behind them depends on both.
-/

namespace DiceNotation.Grammar

open Text

variable {α β : Type}

/-- A text that is empty or starts with a character of some kind. -/
def Starts (kind : Char → Prop) (text : List Char) : Prop :=
  ∀ ⦃c rest⦄, text = c :: rest → kind c

/-- A text that starts with a character of one kind starts with one of every larger kind. -/
theorem Starts.imp {kind other : Char → Prop} {text : List Char} (h : Starts kind text)
    (himp : ∀ c, kind c → other c) : Starts other text := by
  intro c rest htext
  exact himp c (h htext)

/-- A text starts with its first character. -/
theorem starts_cons {kind : Char → Prop} {c : Char} {text : List Char} (h : kind c) :
    Starts kind (c :: text) := by
  intro d rest htext
  rw [List.cons.injEq] at htext
  rwa [← htext.1]

/-- Blanks in front do not matter to a kind that blanks are of. -/
theorem Starts.of_dropBlanks {kind : Char → Prop} {text : List Char}
    (h : Starts kind (dropBlanks text)) (hb : ∀ c, isBlank c = true → kind c) :
    Starts kind text := by
  intro c rest htext
  by_cases hc : isBlank c = true
  · exact hb c hc
  · have hdrop : dropBlanks text = c :: rest := by
      rw [htext, dropBlanks, List.dropWhile_cons_of_neg hc]
    exact h hdrop

/-- No blank is a parenthesis. -/
theorem count_eq_zero_of_blanks {blanks : List Char} (h : ∀ c ∈ blanks, isBlank c = true) :
    blanks.count '(' = 0 := by
  rw [List.count_eq_zero]
  intro hmem
  exact absurd (h _ hmem) (by decide)

/-- A token that does not start with a blank. -/
def Solid (token : Token) : Prop := ∃ c more, token = c :: more ∧ isBlank c = false

/-- The first token is what a text starts with once its blanks are dropped. -/
theorem Spaced.exists_of_cons {token : Token} {tokens : List Token} {front : List Char}
    (h : Spaced (token :: tokens) front) (htoken : Solid token) :
    ∃ behind, Spaced tokens behind ∧
      front.count '(' = token.count '(' + behind.count '(' ∧
      ∀ rest, dropBlanks (front ++ rest) = token ++ (behind ++ rest) := by
  obtain ⟨c, more, rfl, hc⟩ := htoken
  cases h with
  | @token blanks behind _ _ hblanks hspaced =>
    have hzero := count_eq_zero_of_blanks hblanks
    refine ⟨behind, hspaced, by rw [List.count_append, List.count_append, hzero, Nat.zero_add], ?_⟩
    intro rest
    rw [List.append_assoc, dropBlanks_append hblanks, List.append_assoc, List.cons_append,
      dropBlanks_cons hc]

/-- Without any token all is dropped. -/
theorem Spaced.dropBlanks_of_nil {front : List Char} (h : Spaced [] front) (rest : List Char) :
    dropBlanks (front ++ rest) = dropBlanks rest := by
  cases h with
  | blanks hblanks => exact dropBlanks_append hblanks

/-- No digit is a blank. -/
theorem isBlank_of_isDigit {c : Char} (h : c.isDigit = true) : isBlank c = false := by
  have hnine : '9'.val.toNat = 57 := rfl
  have hzero : '0'.val.toNat = 48 := rfl
  have hc : c.toNat = c.val.toNat := rfl
  simp only [Char.isDigit, ge_iff_le, Bool.and_eq_true, decide_eq_true_eq,
    UInt32.le_iff_toNat_le] at h
  simp only [isBlank, Bool.or_eq_false_iff, Bool.and_eq_false_iff, decide_eq_false_iff_not,
    beq_eq_false_iff_ne]
  omega

/-! ## Combinators -/

/-- A sequence is read if its second part is read on what the first one leaves. -/
theorem read_andThen {first : Reader α} {second : Reader β} {text middle rest : List Char} {a : α}
    {b : β} (h : first.read text = some (a, middle)) (h' : second.read middle = some (b, rest)) :
    (first.andThen second).read text = some ((a, b), rest) := by
  simp only [Reader.andThen, h, h', Option.bind_some, Option.map_some]

/-- A sequence is not there if its first part is not. -/
theorem read_andThen_none {first : Reader α} (second : Reader β) {text : List Char}
    (h : first.read text = none) : (first.andThen second).read text = none := by
  simp only [Reader.andThen, h, Option.bind_none]

/-- Nor is it if its second part is not there behind the first one. -/
theorem read_andThen_none_right {first : Reader α} {second : Reader β}
    {text middle : List Char} {a : α} (h : first.read text = some (a, middle))
    (h' : second.read middle = none) : (first.andThen second).read text = none := by
  simp only [Reader.andThen, h, h', Option.bind_some, Option.map_none]

/-- A value is changed after it was read. -/
theorem read_map {reader : Reader α} {text rest : List Char} {a : α} (f : α → β)
    (h : reader.read text = some (a, rest)) : (reader.map f).read text = some (f a, rest) := by
  simp only [Reader.map, h, Option.map_some]

/-- Where nothing is read, there is nothing to change. -/
theorem read_map_none {reader : Reader α} {text : List Char} (f : α → β)
    (h : reader.read text = none) : (reader.map f).read text = none := by
  simp only [Reader.map, h, Option.map_none]

/-- Something optional that is there is read. -/
theorem read_optional {reader : Reader α} {text rest : List Char} {a : α}
    (h : reader.read text = some (a, rest)) :
    reader.optional.read text = some (some a, rest) := by
  simp only [Reader.optional, h]

/-- Something optional that is not there is missing, and nothing is taken. -/
theorem read_optional_none {reader : Reader α} {text : List Char} (h : reader.read text = none) :
    reader.optional.read text = some (none, text) := by
  simp only [Reader.optional, h]

/-- The first reader of a choice goes first. -/
theorem read_orElse {first second : Reader α} {text rest : List Char} {a : α}
    (h : first.read text = some (a, rest)) :
    (first.orElse second).read text = some (a, rest) := by
  simp only [Reader.orElse, h]

/-- Where the first reader of a choice takes nothing, the second one reads. -/
theorem read_orElse_of_none {first second : Reader α} {text : List Char}
    (h : first.read text = none) : (first.orElse second).read text = second.read text := by
  simp only [Reader.orElse, h]

/-- Blanks are dropped in front of and behind what is read. -/
theorem read_padded {reader : Reader α} {text rest : List Char} {a : α}
    (h : reader.read (dropBlanks text) = some (a, rest)) :
    reader.padded.read text = some (a, dropBlanks rest) := by
  simp only [Reader.padded, h, Option.map_some]

/-- What is not there behind the blanks is not there at all. -/
theorem read_padded_none {reader : Reader α} {text : List Char}
    (h : reader.read (dropBlanks text) = none) : reader.padded.read text = none := by
  simp only [Reader.padded, h, Option.map_none]

/-! ## Words -/

/-- A word in front of a text can be dropped. -/
theorem dropWord_append (word rest : List Char) :
    Reader.dropWord word (word ++ rest) = some rest := by
  induction word with
  | nil => rfl
  | cons w word ih => rw [List.cons_append, Reader.dropWord, if_pos rfl, ih]

/-- A word in front of a text is read. -/
theorem read_word (text : String) (meaning : α) (rest : List Char) :
    (Reader.word text meaning).read (text.toList ++ rest) = some (meaning, rest) := by
  simp only [Reader.word, dropWord_append, Option.map_some]

/-- A word that starts with another character than the text is not there. -/
theorem read_word_none {word : String} {meaning : α} {text : List Char} {w : Char}
    {more : List Char} (hword : word.toList = w :: more) (h : Starts (· ≠ w) text) :
    (Reader.word word meaning).read text = none := by
  cases text with
  | nil => simp only [Reader.word, hword, Reader.dropWord, Option.map_none]
  | cons c text =>
    have hc : w ≠ c := (h rfl).symm
    simp only [Reader.word, hword, Reader.dropWord, if_neg hc, Option.map_none]

/-- Whether all words start with a character of some kind. -/
def firstsIn (marks : List Char) (words : List (String × α)) : Bool :=
  words.all fun pair => pair.1.toList.head?.any marks.contains

/-- None of several words is there if the text starts with none of their first characters. -/
theorem read_firstWord_none (marks : List Char) {words : List (String × α)} {text : List Char}
    (hwords : firstsIn marks words = true) (h : Starts (· ∉ marks) text) :
    (Reader.firstWord words).read text = none := by
  induction words with
  | nil => rfl
  | cons head words ih =>
    obtain ⟨word, meaning⟩ := head
    simp only [firstsIn, List.all_cons, Bool.and_eq_true, Option.any_eq_true] at hwords
    obtain ⟨⟨w, hw, hmark⟩, hall⟩ := hwords
    obtain ⟨more, hmore⟩ := List.head?_eq_some_iff.1 hw
    have hfirst : (Reader.word word meaning).read text = none := by
      refine read_word_none hmore (h.imp ?_)
      rintro c hc rfl
      exact hc (List.contains_iff_mem.1 hmark)
    cases words with
    | nil => exact hfirst
    | cons next words =>
      rw [Reader.firstWord, read_orElse_of_none hfirst]
      · exact ih hall
      · exact List.cons_ne_nil _ _

/-! ## Numbers -/

/-- Digits in front of something else are all the digits that are taken. -/
theorem takeWhile_isDigit_append {digits rest : List Char} (h : ∀ c ∈ digits, c.isDigit = true)
    (hrest : Starts (fun c => c.isDigit = false) rest) :
    (digits ++ rest).takeWhile Char.isDigit = digits ∧
      (digits ++ rest).dropWhile Char.isDigit = rest := by
  rw [List.takeWhile_append_of_pos h, List.dropWhile_append_of_pos h]
  cases rest with
  | nil => simp only [List.takeWhile_nil, List.append_nil, List.dropWhile_nil, and_self]
  | cons c rest =>
    have hc : ¬ c.isDigit = true := by rw [hrest rfl]; exact Bool.false_ne_true
    rw [List.takeWhile_cons_of_neg hc, List.dropWhile_cons_of_neg hc, List.append_nil]
    exact ⟨rfl, rfl⟩

/-- A positive number is read as a whole number. -/
theorem read_whole_of_isPositive {digits rest : List Char} (h : IsPositive digits)
    (hrest : Starts (fun c => c.isDigit = false) rest) :
    Reader.whole.read (digits ++ rest) = some (String.ofList digits, rest) := by
  cases digits with
  | nil => exact h.elim
  | cons first more =>
    obtain ⟨hfirst, hzero, hmore⟩ := h
    have hleading : Reader.isLeadingDigit first = true := by
      simp only [Reader.isLeadingDigit, hfirst, hzero, ne_eq, not_false_eq_true, decide_true,
        Bool.and_self]
    obtain ⟨htake, hdrop⟩ := takeWhile_isDigit_append hmore hrest
    simp only [List.cons_append, Reader.whole, if_pos hleading, htake, hdrop]

/-- A whole number is read up to its last digit. -/
theorem read_whole {digits rest : List Char} (h : IsWhole digits)
    (hrest : Starts (fun c => c.isDigit = false) rest) :
    Reader.whole.read (digits ++ rest) = some (String.ofList digits, rest) := by
  rcases h with rfl | hpositive
  · rfl
  · exact read_whole_of_isPositive hpositive hrest

/-- A positive number is read up to its last digit. -/
theorem read_positive {digits rest : List Char} (h : IsPositive digits)
    (hrest : Starts (fun c => c.isDigit = false) rest) :
    Reader.positive.read (digits ++ rest) = some (String.ofList digits, rest) := by
  have hne : String.ofList digits ≠ "0" := by
    intro heq
    have hdigits : digits = ['0'] := String.ofList_injective heq
    subst hdigits
    exact h.2.1 rfl
  simp only [Reader.positive, Reader.named, read_whole_of_isPositive h hrest, Option.filter_some,
    hne, ne_eq, not_false_eq_true, decide_true, if_true]

/-- No positive number starts with a character other than a digit, nor with a zero. -/
theorem read_positive_none {text : List Char}
    (h : Starts (fun c => c.isDigit = false ∨ c = '0') text) :
    Reader.positive.read text = none := by
  cases text with
  | nil => rfl
  | cons c text =>
    have hleading : Reader.isLeadingDigit c = false := by
      rcases h rfl with hdigit | rfl
      · rw [Reader.isLeadingDigit, hdigit, Bool.false_and]
      · rfl
    simp only [Reader.positive, Reader.named, Reader.whole, hleading, Bool.false_eq_true, if_false]
    split
    · rfl
    · rfl

/-- The digits of a fraction are read up to the last one. -/
theorem read_digits {digits rest : List Char} (h : IsFraction digits)
    (hrest : Starts (fun c => c.isDigit = false) rest) :
    Reader.digits.read (digits ++ rest) = some (String.ofList digits, rest) := by
  obtain ⟨htake, hdrop⟩ := takeWhile_isDigit_append h.2 hrest
  cases digits with
  | nil => exact absurd rfl h.1
  | cons first more => simp only [Reader.digits, htake, hdrop]

/-- The first digit of a whole number. -/
theorem IsWhole.exists_cons {digits : Token} (h : IsWhole digits) :
    ∃ first more, digits = first :: more ∧ first.isDigit = true := by
  rcases h with rfl | hpositive
  · exact ⟨'0', [], rfl, rfl⟩
  · cases digits with
    | nil => exact hpositive.elim
    | cons first more => exact ⟨first, more, rfl, hpositive.1⟩

/-- A whole number starts with a digit, which is no blank. -/
theorem IsWhole.solid {digits : Token} (h : IsWhole digits) : Solid digits := by
  obtain ⟨first, more, hdigits, hfirst⟩ := h.exists_cons
  exact ⟨first, more, hdigits, isBlank_of_isDigit hfirst⟩

/-- So does a positive number. -/
theorem IsPositive.solid {digits : Token} (h : IsPositive digits) : Solid digits :=
  IsWhole.solid (.inr h)

/-- No blank is a digit. -/
theorem isDigit_eq_false_of_isBlank {c : Char} (h : isBlank c = true) : c.isDigit = false := by
  refine Bool.eq_false_iff.2 fun hdigit => ?_
  rw [isBlank_of_isDigit hdigit] at h
  exact Bool.false_ne_true h

/-! ## Dice -/

/-- The letter of dice is read, be it small or capital. -/
theorem read_letter {before : List Char} (text : List Char) (h : before = ['d'] ∨ before = ['D']) :
    ∃ c, (Reader.oneOf ['d', 'D']).read (before ++ text) = some (c, text) := by
  rcases h with rfl | rfl
  · exact ⟨'d', rfl⟩
  · exact ⟨'D', rfl⟩

/-- Nothing else is taken for the letter of dice. -/
theorem read_letter_none {text : List Char} (h : Starts (· ∉ ['d', 'D']) text) :
    (Reader.oneOf ['d', 'D']).read text = none := by
  cases text with
  | nil => rfl
  | cons c text =>
    have hc : ¬ ['d', 'D'].contains c = true := fun hmem => h rfl (List.contains_iff_mem.1 hmem)
    simp only [Reader.oneOf, if_neg hc]

/-- The word of a modifier is read as its kind. -/
theorem read_modifierWord (kind : ModifierWord) (rest : List Char) :
    Reader.modifierWord.read (kind.word.toList ++ rest) = some (kind, rest) := by
  cases kind <;> rfl

/-- The word of a difficulty is read as its kind. -/
theorem read_difficulty (kind : Difficulty) (rest : List Char) :
    Reader.difficulty.read (kind.word.toList ++ rest) = some (kind, rest) := by
  cases kind <;> rfl

/-- The first characters of comparisons. -/
def comparisonMarks : List Char := ['=', '!', '≠', '>', '≥', '<', '≤']

/-- The characters that may stand behind an atom. -/
def atomMarks : List Char := [')', '+', '-', '*', '/', '^']

/-- The characters that may stand behind dice belong to no other part of dice. -/
theorem not_mem_of_mem_marks : ∀ c ∈ atomMarks ++ comparisonMarks,
    c.isDigit = false ∧ c ∉ ['d', 'D'] ∧ c ∉ ['e', 'h', 'l', 'r'] := by
  decide

/-- A text with such a mark behind its blanks does not start with a digit. -/
theorem Starts.not_isDigit {rest : List Char}
    (h : Starts (· ∈ atomMarks ++ comparisonMarks) (dropBlanks rest)) :
    Starts (fun c => c.isDigit = false) rest :=
  (h.imp fun c hc => (not_mem_of_mem_marks c hc).1).of_dropBlanks
    fun _ => isDigit_eq_false_of_isBlank

/-- The number of dice is read up to the blanks behind it, or is missing. -/
theorem read_count {counted : List Token} {count : Option String} {front rest : List Char}
    (h : DerivesCount counted count) (hs : Spaced counted front)
    (hrest : Starts (fun c => c.isDigit = false) (dropBlanks rest)) :
    ∃ middle, Reader.positive.optional.read (dropBlanks (front ++ rest)) = some (count, middle) ∧
      dropBlanks middle = dropBlanks rest := by
  cases h with
  | missing =>
    rw [hs.dropBlanks_of_nil]
    exact ⟨_, read_optional_none (read_positive_none (hrest.imp fun _ => .inl)),
      dropBlanks_dropBlanks rest⟩
  | written hdigits =>
    obtain ⟨behind, hbehind, -, hfront⟩ := hs.exists_of_cons hdigits.solid
    have hdrop := hbehind.dropBlanks_of_nil rest
    have hnext : Starts (fun c => c.isDigit = false) (behind ++ rest) :=
      Starts.of_dropBlanks (hdrop ▸ hrest) fun _ => isDigit_eq_false_of_isBlank
    rw [hfront]
    exact ⟨_, read_optional (read_positive hdigits hnext), hdrop⟩

/-- The words of modifiers start with a letter. -/
theorem solid_modifierWord (kind : ModifierWord) : Solid kind.word.toList := by
  cases kind <;> exact ⟨_, _, rfl, by decide⟩

/-- The sides of dice end where their modifier starts. -/
theorem starts_modifier {behind : List Token} {modifier : Option (ModifierWord × String)}
    {front rest : List Char} (h : DerivesModifier behind modifier) (hs : Spaced behind front)
    (hrest : Starts (· ∈ atomMarks ++ comparisonMarks) (dropBlanks rest)) :
    Starts (fun c => c.isDigit = false) (front ++ rest) := by
  refine Starts.of_dropBlanks ?_ fun _ => isDigit_eq_false_of_isBlank
  cases h with
  | missing =>
    rw [hs.dropBlanks_of_nil]
    exact hrest.imp fun c hc => (not_mem_of_mem_marks c hc).1
  | written kind hdigits =>
    obtain ⟨next, -, -, hfront⟩ := hs.exists_of_cons (solid_modifierWord kind)
    rw [hfront]
    cases kind <;> exact starts_cons rfl

/-- The modifier of dice is read up to the blanks behind it, or is missing. -/
theorem read_modifier {behind : List Token} {modifier : Option (ModifierWord × String)}
    {front rest : List Char} (h : DerivesModifier behind modifier) (hs : Spaced behind front)
    (hrest : Starts (· ∈ atomMarks ++ comparisonMarks) (dropBlanks rest)) :
    ∃ middle, (Reader.modifierWord.padded.andThen Reader.positive).optional.read (front ++ rest) =
        some (modifier, middle) ∧ dropBlanks middle = dropBlanks rest := by
  cases h with
  | missing =>
    have hdrop := hs.dropBlanks_of_nil rest
    have hword : Reader.modifierWord.padded.read (front ++ rest) = none := by
      refine read_padded_none ?_
      rw [hdrop]
      exact read_firstWord_none ['e', 'h', 'l', 'r'] (by decide)
        (hrest.imp fun c hc => (not_mem_of_mem_marks c hc).2.2)
    exact ⟨_, read_optional_none (read_andThen_none _ hword), hdrop⟩
  | written kind hdigits =>
    obtain ⟨next, hnext, -, hfront⟩ := hs.exists_of_cons (solid_modifierWord kind)
    obtain ⟨last, hlast, -, hargument⟩ := hnext.exists_of_cons hdigits.solid
    have hdrop := hlast.dropBlanks_of_nil rest
    have hword : Reader.modifierWord.padded.read (front ++ rest) =
        some (kind, dropBlanks (next ++ rest)) := by
      refine read_padded ?_
      rw [hfront]
      exact read_modifierWord kind _
    rw [hargument] at hword
    exact ⟨_, read_optional (read_andThen hword (read_positive hdigits
      (Starts.not_isDigit (hdrop ▸ hrest)))), hdrop⟩

/-- Dice are read up to the blanks behind them. -/
theorem read_dice {tokens : List Token} {written : WrittenDice} {front rest : List Char}
    (h : DerivesDice tokens written) (hs : Spaced tokens front)
    (hrest : Starts (· ∈ atomMarks ++ comparisonMarks) (dropBlanks rest)) :
    ∃ middle, Reader.dice.read (dropBlanks (front ++ rest)) = some (written, middle) ∧
      dropBlanks middle = dropBlanks rest := by
  cases h with
  | @roll before sides count counted behind modifier hcount hbefore hsides hmodifier =>
    have hletter : Solid before := by
      rcases hbefore with rfl | rfl
      · exact ⟨'d', [], rfl, by decide⟩
      · exact ⟨'D', [], rfl, by decide⟩
    obtain ⟨front, after, rfl, hfront, hafter⟩ := hs.exists_of_append
    obtain ⟨after', hafter', -, hdropLetter⟩ := hafter.exists_of_cons hletter
    obtain ⟨last, hlast, -, hdropSides⟩ := hafter'.exists_of_cons hsides.solid
    have hstart : Starts (fun c => c.isDigit = false) (dropBlanks (after ++ rest)) := by
      rw [hdropLetter]
      rcases hbefore with rfl | rfl <;> exact starts_cons rfl
    obtain ⟨middle, hreadCount, hmiddle⟩ := read_count hcount hfront hstart
    obtain ⟨c, hreadLetter⟩ := read_letter (after' ++ rest) hbefore
    rw [← hdropLetter, ← hmiddle] at hreadLetter
    have hpadded := read_padded hreadLetter
    rw [hdropSides] at hpadded
    obtain ⟨middle', hreadModifier, hmiddle'⟩ := read_modifier hmodifier hlast hrest
    have hread := read_andThen (read_andThen (read_andThen hreadCount hpadded)
      (read_positive hsides (starts_modifier hmodifier hlast hrest))) hreadModifier
    rw [List.append_assoc]
    refine ⟨middle', ?_, hmiddle'⟩
    simp only [Reader.dice, Reader.named, Reader.map, hread, Option.map_some]

/-! ## Checks -/

/-- A comparison is read as a whole, although others may start it. -/
theorem read_comparison {spelling : String} {rest : List Char} (h : spelling ∈ comparisons)
    (hrest : Starts (· ≠ '=') rest) :
    (Reader.firstWord (Reader.comparisonSpellings.map fun text => (text, text))).read
      (spelling.toList ++ rest) = some (spelling, rest) := by
  have hnext : Reader.dropWord ['='] rest = none := by
    cases rest with
    | nil => rfl
    | cons c rest => rw [Reader.dropWord, if_neg (hrest rfl).symm]
  simp only [comparisons, List.mem_cons, List.not_mem_nil, or_false] at h
  rcases h with rfl | rfl | rfl | rfl | rfl | rfl | rfl | rfl | rfl | rfl <;>
    simp [Reader.comparisonSpellings, Reader.firstWord, Reader.word, Reader.orElse,
      Reader.dropWord, hnext]

/-- The first character of a comparison. -/
theorem exists_cons_of_mem_comparisons :
    ∀ spelling ∈ comparisons, ∃ c ∈ comparisonMarks, spelling.toList.head? = some c := by
  decide

/-- No comparison starts with a blank. -/
theorem isBlank_of_mem_marks : ∀ c ∈ comparisonMarks, isBlank c = false := by
  decide

/-- What may stand behind an atom is not taken for a comparison. -/
theorem read_comparison_none {rest : List Char} (h : Starts (· ∈ atomMarks) (dropBlanks rest)) :
    Reader.comparison.read rest = none := by
  refine read_padded_none (read_firstWord_none comparisonMarks (by decide) ?_)
  have hmarks : ∀ c ∈ atomMarks, c ∉ comparisonMarks := by decide
  exact h.imp hmarks

/-- A text that starts with one of some characters starts with one of more of them. -/
theorem Starts.mono {marks others : List Char} {text : List Char} (h : Starts (· ∈ marks) text)
    (hsub : marks ⊆ others) : Starts (· ∈ others) text :=
  h.imp fun _ hc => hsub hc

/-- Dice without a comparison behind them are only dice. -/
theorem read_diceCheck_of_dice {tokens : List Token} {written : WrittenDice}
    {front rest : List Char} (h : DerivesDice tokens written) (hs : Spaced tokens front)
    (hrest : Starts (· ∈ atomMarks) (dropBlanks rest)) :
    ∃ middle, Reader.diceCheck.read (dropBlanks (front ++ rest)) = some (.dice written, middle) ∧
      dropBlanks middle = dropBlanks rest := by
  obtain ⟨middle, hread, hmiddle⟩ :=
    read_dice h hs (hrest.mono (List.subset_append_left _ _))
  have hcomparison := read_comparison_none (hmiddle ▸ hrest)
  have hoptional := read_optional_none
    (read_andThen_none Reader.whole hcomparison)
  refine ⟨middle, ?_, hmiddle⟩
  simp only [Reader.diceCheck, Reader.map, read_andThen hread hoptional, Option.map_some]

/-- A comparison and a threshold make dice a check. -/
theorem read_diceCheck {tokens : List Token} {written : WrittenDice} {comparison : String}
    {threshold : Token} {front rest : List Char} (hd : DerivesDice tokens written)
    (hc : comparison ∈ comparisons) (ht : IsWhole threshold)
    (hs : Spaced (tokens ++ [comparison.toList, threshold]) front)
    (hrest : Starts (· ∈ atomMarks) (dropBlanks rest)) :
    ∃ middle, Reader.diceCheck.read (dropBlanks (front ++ rest)) =
        some (.check written comparison (String.ofList threshold), middle) ∧
      dropBlanks middle = dropBlanks rest := by
  obtain ⟨front, behind, rfl, hfront, hbehind⟩ := hs.exists_of_append
  obtain ⟨c, hmark, hhead⟩ := exists_cons_of_mem_comparisons comparison hc
  obtain ⟨more, hmore⟩ := List.head?_eq_some_iff.1 hhead
  have hsolid : Solid comparison.toList := ⟨c, more, hmore, isBlank_of_mem_marks c hmark⟩
  obtain ⟨after, hafter, -, hdropComparison⟩ := hbehind.exists_of_cons hsolid
  obtain ⟨last, hlast, -, hdropThreshold⟩ := hafter.exists_of_cons ht.solid
  have hdropLast := hlast.dropBlanks_of_nil rest
  have hstart : Starts (· ∈ atomMarks ++ comparisonMarks) (dropBlanks (behind ++ rest)) := by
    rw [hdropComparison, hmore]
    exact starts_cons (List.mem_append_right _ hmark)
  obtain ⟨middle, hread, hmiddle⟩ := read_dice hd hfront hstart
  have hnext : Starts (· ≠ '=') (after ++ rest) := by
    obtain ⟨first, _, hdigits, hfirst⟩ := ht.exists_cons
    refine Starts.of_dropBlanks ?_ ?_
    · rw [hdropThreshold, hdigits]
      exact starts_cons fun heq => by rw [heq] at hfirst; exact absurd hfirst (by decide)
    · intro c hblank heq
      rw [heq] at hblank
      exact absurd hblank (by decide)
  have hpadded : Reader.comparison.read middle =
      some (comparison, threshold ++ (last ++ rest)) := by
    rw [← hdropThreshold]
    refine read_padded ?_
    rw [hmiddle, hdropComparison]
    exact read_comparison hc hnext
  have hwhole := read_whole ht (Starts.not_isDigit
    (hdropLast ▸ hrest.mono (List.subset_append_left _ _)))
  have hoptional := read_optional (read_andThen hpadded hwhole)
  rw [List.append_assoc]
  refine ⟨_, ?_, hdropLast⟩
  simp only [Reader.diceCheck, Reader.map, read_andThen hread hoptional, Option.map_some]

/-- Neither a check nor dice start with digits that are no number of dice. -/
theorem read_check_none_of_digits {digits rest : List Char} (h : IsWhole digits)
    (hdigit : Starts (fun c => c.isDigit = false) rest)
    (hrest : Starts (· ∉ ['d', 'D']) (dropBlanks rest)) :
    Reader.check.read (digits ++ rest) = none := by
  obtain ⟨first, more, hdigits, hfirst⟩ := h.exists_cons
  have hnb : Reader.shortCheck.read (digits ++ rest) = none := by
    have hne : Starts (· ≠ 'n') (digits ++ rest) := by
      rw [hdigits]
      exact starts_cons fun heq => by rw [heq] at hfirst; exact absurd hfirst (by decide)
    have hword : (Reader.word "nb" ()).read (digits ++ rest) = none := read_word_none rfl hne
    simp only [Reader.shortCheck, Reader.named]
    exact read_map_none _ (read_andThen_none _ (read_andThen_none _ hword))
  have hletter : (Reader.positive.optional.andThen (Reader.oneOf ['d', 'D']).padded).read
      (digits ++ rest) = none := by
    rcases h with rfl | hpositive
    · have hzero : Starts (fun c => c.isDigit = false ∨ c = '0') (['0'] ++ rest) :=
        starts_cons (.inr rfl)
      refine read_andThen_none_right (read_optional_none (read_positive_none hzero)) ?_
      exact read_padded_none (read_letter_none (starts_cons (by decide)))
    · refine read_andThen_none_right (read_optional (read_positive hpositive hdigit)) ?_
      exact read_padded_none (read_letter_none hrest)
  have hdice : Reader.dice.read (digits ++ rest) = none := by
    simp only [Reader.dice, Reader.named]
    exact read_map_none _ (read_andThen_none _ (read_andThen_none _ hletter))
  rw [Reader.check, read_orElse_of_none hnb]
  exact read_map_none _ (read_andThen_none _ hdice)

/-- Nor do they start with a parenthesis. -/
theorem read_check_none_of_parenthesis (rest : List Char) :
    Reader.check.read ('(' :: rest) = none := by
  rfl

/-- The words of difficulties start with a letter. -/
theorem solid_difficulty (kind : Difficulty) : Solid kind.word.toList := by
  cases kind <;> exact ⟨_, _, rfl, by decide⟩

/-- A short check is read up to the blanks behind it. -/
theorem read_shortCheck {count : Token} {front rest : List Char} (difficulty : Difficulty)
    (h : IsPositive count) (hs : Spaced [['n', 'b'], difficulty.word.toList, count] front)
    (hrest : Starts (· ∈ atomMarks) (dropBlanks rest)) :
    ∃ middle, Reader.shortCheck.read (dropBlanks (front ++ rest)) =
        some (.nb difficulty (String.ofList count), middle) ∧
      dropBlanks middle = dropBlanks rest := by
  obtain ⟨behind, hbehind, -, hdropName⟩ := hs.exists_of_cons ⟨'n', ['b'], rfl, by decide⟩
  obtain ⟨after, hafter, -, hdropWord⟩ := hbehind.exists_of_cons (solid_difficulty difficulty)
  obtain ⟨last, hlast, -, hdropCount⟩ := hafter.exists_of_cons h.solid
  have hdropLast := hlast.dropBlanks_of_nil rest
  have hword := read_word "nb" () (behind ++ rest)
  have hpadded : Reader.difficulty.padded.read (behind ++ rest) =
      some (difficulty, count ++ (last ++ rest)) := by
    rw [← hdropCount]
    refine read_padded ?_
    rw [hdropWord]
    exact read_difficulty difficulty _
  have hcount := read_positive h (Starts.not_isDigit
    (hdropLast ▸ hrest.mono (List.subset_append_left _ _)))
  have hread := read_andThen (read_andThen hword hpadded) hcount
  refine ⟨last ++ rest, ?_, hdropLast⟩
  rw [hdropName]
  simp only [Reader.shortCheck, Reader.named]
  exact read_map (fun result => Node.nb result.1.2 result.2) hread

/-! ## Numbers as atoms -/

/-- The characters behind a number are neither digits nor a point. -/
theorem Starts.ne_point {rest : List Char} (h : Starts (· ∈ atomMarks) (dropBlanks rest)) :
    Starts (· ≠ '.') rest := by
  have hmarks : ∀ c ∈ atomMarks, c ≠ '.' := by decide
  refine (h.imp hmarks).of_dropBlanks ?_
  rintro c hblank rfl
  exact absurd hblank (by decide)

/-- A whole number that no point follows is an integer. -/
theorem read_integer {digits rest : List Char} (h : IsWhole digits)
    (hrest : Starts (· ∈ atomMarks) (dropBlanks rest)) :
    Reader.number.read (digits ++ rest) = some (.integer (String.ofList digits), rest) := by
  have hwhole := read_whole h (Starts.not_isDigit (hrest.mono (List.subset_append_left _ _)))
  have hword : (Reader.word "." ()).read rest = none := read_word_none rfl hrest.ne_point
  have hoptional := read_optional_none (read_andThen_none Reader.digits hword)
  simp only [Reader.number, Reader.named, Reader.map, read_andThen hwhole hoptional,
    Option.map_some]

/-- A whole number with a point and a fraction is a decimal number. -/
theorem read_decimal {whole fraction rest : List Char} (hw : IsWhole whole)
    (hf : IsFraction fraction) (hrest : Starts (· ∈ atomMarks) (dropBlanks rest)) :
    Reader.number.read ((whole ++ '.' :: fraction) ++ rest) =
      some (.decimal (String.ofList (whole ++ '.' :: fraction)), rest) := by
  have hpoint : Starts (fun c => c.isDigit = false) ('.' :: (fraction ++ rest)) := starts_cons rfl
  have hwhole := read_whole hw hpoint
  have hword := read_word "." () (fraction ++ rest)
  have hdigits := read_digits hf (Starts.not_isDigit (hrest.mono (List.subset_append_left _ _)))
  have hread := read_andThen hwhole (read_optional (read_andThen hword hdigits))
  rw [List.append_assoc, List.cons_append, ofList_decimal]
  simp only [Reader.number, Reader.named, Reader.map, hread, Option.map_some]

end DiceNotation.Grammar
