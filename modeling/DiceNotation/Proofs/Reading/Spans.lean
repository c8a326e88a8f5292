import DiceNotation.Proofs.Grammar.Soundness
import DiceNotation.Reading.Entries

/-!
# Spans of failures

Whatever a reader looks for, it looks for it in its text: it leaves an end of the text, and the span
of every failure that it notes starts and stops within the text. This holds of the basic readers and
is kept by everything that readers are made of. So the span of a syntax error lies in the piece of
the text whose expression could not be read.
-/

namespace DiceNotation

open Text Grammar

/-- The span of a failure lies between two byte positions. -/
structure Failure.Within (first last : Nat) (failure : Failure) : Prop where
  /-- It does not start too early. -/
  first_le : first ≤ failure.start
  /-- It does not stop before it starts. -/
  start_le : failure.start ≤ failure.stop
  /-- It does not stop too late. -/
  stop_le : failure.stop ≤ last

/-- The span of the failure that is noted, if there is one, lies between two byte positions. -/
def Note.Within (first last : Nat) : Note → Prop
  | missed failure => failure.Within first last
  | gathered failure => failure.Within first last
  | settled => True

/-- A span between two positions lies between all positions around them. -/
theorem Failure.Within.mono {first last least most : Nat} {failure : Failure}
    (h : failure.Within first last) (hfirst : least ≤ first) (hlast : last ≤ most) :
    failure.Within least most :=
  ⟨Nat.le_trans hfirst h.first_le, h.start_le, Nat.le_trans h.stop_le hlast⟩

/-- The same holds of the span of a note. -/
theorem Note.Within.mono {first last least most : Nat} {note : Note} (h : note.Within first last)
    (hfirst : least ≤ first) (hlast : last ≤ most) : note.Within least most := by
  cases note with
  | missed failure => exact Failure.Within.mono h hfirst hlast
  | gathered failure => exact Failure.Within.mono h hfirst hlast
  | settled => trivial

/-- Of two failures, the one that counts has the span of one of them. -/
theorem Failure.Within.absorb {join : List Expectation → List Expectation → List Expectation}
    {first last : Nat} {new : Failure} {left : Option Failure} (h : new.Within first last)
    (hleft : ∀ old ∈ left, old.Within first last) : (new.absorb join left).Within first last := by
  cases left with
  | none => exact h
  | some old =>
    have hold := hleft old rfl
    rw [Failure.absorb]
    split
    · exact h
    · split
      · exact ⟨hold.first_le, hold.start_le, hold.stop_le⟩
      · exact hold

/-- What is left of some notes has the span of one of them. -/
theorem within_furthest {first last : Nat} {notes : List Note} {failure : Failure}
    (h : ∀ note ∈ notes, note.Within first last) (hleft : furthest notes = some failure) :
    failure.Within first last := by
  suffices hfold : ∀ left : Option Failure, (∀ old ∈ left, old.Within first last) →
      ∀ new ∈ notes.foldl Note.apply left, new.Within first last from
    hfold none (by simp) failure hleft
  clear hleft
  induction notes with
  | nil => exact fun left hleft => hleft
  | cons note notes ih =>
    intro left hleft
    obtain ⟨hnote, hnotes⟩ := List.forall_mem_cons.1 h
    refine ih hnotes _ ?_
    cases note with
    | missed failure =>
      rintro _ ⟨⟩
      exact Failure.Within.absorb hnote hleft
    | gathered failure =>
      rintro _ ⟨⟩
      exact Failure.Within.absorb hnote hleft
    | settled => simp [Note.apply]

/-- A failure at the front of a text has the first character as its span, if there is one. -/
theorem within_failureAt (position : Nat) (text : List Char) (expected : List Expectation) :
    (failureAt position text expected).Within position (position + byteLength text) := by
  cases text with
  | nil => exact ⟨Nat.le_refl _, Nat.le_refl _, Nat.le_add_right _ _⟩
  | cons c text =>
    refine ⟨Nat.le_refl _, Nat.le_add_right _ _, ?_⟩
    rw [byteLength, ← Nat.add_assoc]
    exact Nat.le_add_right _ _

/-- An end of a text is not longer than the text. -/
theorem byteLength_le_of_suffix {rest text : List Char} (h : rest <:+ text) :
    byteLength rest ≤ byteLength text := by
  obtain ⟨front, rfl⟩ := h
  rw [byteLength_append]
  exact Nat.le_add_left _ _

/-- A position in the end of a text is one in the text. -/
theorem Note.Within.of_suffix {position : Nat} {rest text : List Char} {note : Note}
    (hrest : rest <:+ text)
    (h : note.Within (positionOf position text rest)
      (positionOf position text rest + byteLength rest)) :
    note.Within position (position + byteLength text) := by
  have hle := byteLength_le_of_suffix hrest
  rw [positionOf] at h
  exact h.mono (Nat.le_add_right _ _) (by omega)

/-- A reader leaves an end of its text, and finds all its failures in the text. -/
structure Reader.Confined {α : Type} (reader : Reader α) : Prop where
  /-- What is left is an end of the text. -/
  rest_suffix : ∀ {text a rest}, reader.read text = some (a, rest) → rest <:+ text
  /-- The spans of all failures lie in the text. -/
  notes_within : ∀ position text, ∀ note ∈ reader.notes position text,
    note.Within position (position + byteLength text)

namespace Reader.Confined

variable {α β : Type}

/-- A reader that takes nothing notes nothing. -/
theorem never : (Reader.never : Reader α).Confined where
  rest_suffix h := by cases h
  notes_within _ _ := List.forall_mem_nil _

/-- Changing the value of a reader changes neither what is left nor what is noted. -/
theorem map {reader : Reader α} (h : reader.Confined) (f : α → β) : (reader.map f).Confined where
  rest_suffix hread := by
    simp only [Reader.map, Option.map_eq_some_iff, Prod.mk.injEq, Prod.exists] at hread
    obtain ⟨a, rest, hread, -, rfl⟩ := hread
    exact h.rest_suffix hread
  notes_within := h.notes_within

/-- The second part of a sequence looks at an end of what the first one looked at. -/
theorem andThen {first : Reader α} {second : Reader β} (h : first.Confined)
    (h' : second.Confined) : (first.andThen second).Confined where
  rest_suffix hread := by
    obtain ⟨middle, hfirst, hsecond⟩ := read_of_andThen hread
    exact (h'.rest_suffix hsecond).trans (h.rest_suffix hfirst)
  notes_within position text note hnote := by
    rcases List.mem_append.1 hnote with hnote | hnote
    · exact h.notes_within position text note hnote
    · cases hread : first.read text with
      | none => simp [hread] at hnote
      | some found =>
        rw [hread] at hnote
        exact .of_suffix (h.rest_suffix hread) (h'.notes_within _ _ note hnote)

/-- Both readers of a choice look at the same text. -/
theorem orElse {first second : Reader α} (h : first.Confined) (h' : second.Confined) :
    (first.orElse second).Confined where
  rest_suffix hread := by
    simp only [Reader.orElse] at hread
    split at hread
    · next hfirst => exact h.rest_suffix (hfirst.trans hread)
    · exact h'.rest_suffix hread
  notes_within position text note hnote := by
    rcases List.mem_append.1 hnote with hnote | hnote
    · exact h.notes_within position text note hnote
    · split at hnote
      · exact absurd hnote List.not_mem_nil
      · exact h'.notes_within position text note hnote

/-- Something optional leaves the whole text if it is not there. -/
theorem optional {reader : Reader α} (h : reader.Confined) : reader.optional.Confined where
  rest_suffix hread := by
    rcases read_of_optional hread with ⟨-, rfl⟩ | ⟨a, -, hread⟩
    · exact List.suffix_rfl
    · exact h.rest_suffix hread
  notes_within := h.notes_within

/-- Reading many things leaves an end of what reading one of them leaves. -/
theorem readMany_suffix {reader : Reader α} (h : reader.Confined) (fuel : Nat) (text : List Char) :
    (readMany reader.read fuel text).2 <:+ text := by
  induction fuel generalizing text with
  | zero => exact List.suffix_rfl
  | succ fuel ih =>
    cases hread : reader.read text with
    | none => exact ⟨[], congrArg Prod.snd (readMany_of_none hread)⟩
    | some found =>
      rw [readMany_of_some hread]
      exact (ih found.2).trans (h.rest_suffix hread)

/-- Everything that is read one after another is looked for in an end of the text. -/
theorem notesMany_within {reader : Reader α} (h : reader.Confined) (fuel position : Nat)
    (text : List Char) :
    ∀ note ∈ reader.notesMany fuel position text,
      note.Within position (position + byteLength text) := by
  induction fuel generalizing position text with
  | zero => exact List.forall_mem_nil _
  | succ fuel ih =>
    intro note hnote
    rw [Reader.notesMany] at hnote
    rcases List.mem_append.1 hnote with hnote | hnote
    · exact h.notes_within position text note hnote
    · cases hread : reader.read text with
      | none => simp [hread] at hnote
      | some found =>
        rw [hread] at hnote
        exact .of_suffix (h.rest_suffix hread) (ih _ _ note hnote)

/-- Reading many things stays within the text. -/
theorem many {reader : Reader α} (h : reader.Confined) : reader.many.Confined where
  rest_suffix {text} as rest hread := by
    have hrest : (readMany reader.read text.length text).2 = rest :=
      congrArg Prod.snd (Option.some.inj hread)
    rw [← hrest]
    exact h.readMany_suffix text.length text
  notes_within position text := h.notesMany_within _ position text

/-- Dropping blanks on both sides leaves an end of the text. -/
theorem padded {reader : Reader α} (h : reader.Confined) : reader.padded.Confined where
  rest_suffix hread := by
    simp only [Reader.padded, Option.map_eq_some_iff, Prod.mk.injEq, Prod.exists] at hread
    obtain ⟨a, rest, hread, -, rfl⟩ := hread
    exact (List.dropWhile_suffix _).trans
      ((h.rest_suffix hread).trans (List.dropWhile_suffix _))
  notes_within position text note hnote :=
    .of_suffix (List.dropWhile_suffix _) (h.notes_within _ _ note hnote)

/-- A name replaces what was expected, and leaves the span. -/
theorem named {reader : Reader α} (h : reader.Confined) (name : String) :
    (reader.named name).Confined where
  rest_suffix := h.rest_suffix
  notes_within position text note hnote := by
    simp only [Reader.named] at hnote
    split at hnote
    · exact absurd hnote List.not_mem_nil
    · next failure hfailure =>
      have hwithin := within_furthest (h.notes_within position text) hfailure
      split at hnote
      · rw [List.mem_singleton.1 hnote]
        exact ⟨hwithin.first_le, hwithin.start_le, hwithin.stop_le⟩
      · rw [List.mem_singleton.1 hnote]
        exact hwithin

/-- The character of a word that is missing is missed in the text. -/
theorem missingInWord_within (position : Nat) (word text : List Char) :
    ∀ note ∈ missingInWord position word text,
      note.Within position (position + byteLength text) := by
  induction word generalizing position text with
  | nil => exact List.forall_mem_nil _
  | cons w word ih =>
    cases text with
    | nil => exact List.forall_mem_singleton.2 (within_failureAt position [] _)
    | cons c text =>
      rw [missingInWord]
      split
      · intro note hnote
        refine (ih _ _ note hnote).mono (Nat.le_add_right _ _) (Nat.le_of_eq ?_)
        rw [byteLength, Nat.add_assoc]
      · exact List.forall_mem_singleton.2 (within_failureAt position (c :: text) _)

/-- A word is taken off the front, and missed at one of its characters. -/
theorem word (text : String) (meaning : α) : (Reader.word text meaning).Confined where
  rest_suffix hread := by
    rw [(read_of_word hread).2]
    exact List.suffix_append _ _
  notes_within position input := missingInWord_within position text.toList input

/-- Each of several words stays within the text, so their choice does. -/
theorem firstWord (words : List (String × α)) : (Reader.firstWord words).Confined := by
  fun_induction Reader.firstWord words with
  | case1 => exact never
  | case2 text meaning => exact word text meaning
  | case3 text meaning words hwords ih => exact (word text meaning).orElse ih

/-- One of several characters is taken off the front, or missed there. -/
theorem oneOf (accepted : List Char) : (Reader.oneOf accepted).Confined where
  rest_suffix {text} a rest hread := by
    cases text with
    | nil => cases hread
    | cons c text =>
      simp only [Reader.oneOf] at hread
      split at hread
      · cases hread
        exact List.suffix_cons _ _
      · cases hread
  notes_within position text := by
    have hwithin := within_failureAt position text (accepted.map .character)
    cases text with
    | nil => exact List.forall_mem_singleton.2 hwithin
    | cons c text =>
      simp only [Reader.oneOf]
      split
      · exact List.forall_mem_nil _
      · exact List.forall_mem_singleton.2 ⟨hwithin.first_le, hwithin.start_le, hwithin.stop_le⟩

/-- A whole number is taken off the front, or missed there. -/
theorem whole : Reader.whole.Confined where
  rest_suffix {text} a rest hread := by
    cases text with
    | nil => cases hread
    | cons c text =>
      simp only [Reader.whole] at hread
      split at hread
      · cases hread
        exact (List.dropWhile_suffix _).trans (List.suffix_cons _ _)
      · split at hread
        · cases hread
          exact List.suffix_cons _ _
        · cases hread
  notes_within position text := by
    have hnothing := within_failureAt position text []
    have hzero := within_failureAt position text [.character '0']
    cases text with
    | nil => exact List.forall_mem_cons.2 ⟨hnothing, List.forall_mem_singleton.2 hzero⟩
    | cons c text =>
      simp only [Reader.whole]
      split
      · exact List.forall_mem_singleton.2 trivial
      · split
        · exact List.forall_mem_singleton.2 hnothing
        · exact List.forall_mem_cons.2 ⟨hnothing, List.forall_mem_singleton.2 hzero⟩

/-- A positive number is taken and missed as a whole number is. -/
theorem positive : Reader.positive.Confined := by
  apply named
  refine ⟨fun hread => ?_, whole.notes_within⟩
  exact whole.rest_suffix (Option.filter_eq_some_iff.1 hread).1

/-- Digits are taken off the front, and missed behind them. -/
theorem digits : Reader.digits.Confined where
  rest_suffix hread := by
    simp only [Reader.digits] at hread
    split at hread
    · cases hread
    · cases hread
      exact List.dropWhile_suffix _
  notes_within position text note hnote := by
    refine .of_suffix (List.dropWhile_suffix Char.isDigit) ?_
    simp only [Reader.digits] at hnote
    rw [missingDigit.eq_def] at hnote
    split at hnote
    · next hrest =>
      rw [List.mem_singleton.1 hnote, hrest]
      exact within_failureAt _ [] []
    · rw [List.mem_singleton.1 hnote]
      exact within_failureAt _ _ []

/-- What stands where the text should end is noted at its first character. -/
theorem finish : Reader.finish.Confined where
  rest_suffix {text} a rest hread := by
    cases text with
    | nil =>
      cases hread
      exact List.suffix_rfl
    | cons c text => cases hread
  notes_within position text := by
    cases text with
    | nil => exact List.forall_mem_nil _
    | cons c text => exact List.forall_mem_singleton.2 (within_failureAt position (c :: text) _)

/-! ## The readers of the grammar -/

/-- Dice stay within the text, with their modifier. -/
theorem dice : Reader.dice.Confined :=
  ((((positive.optional.andThen (oneOf _).padded).andThen positive).andThen
    ((firstWord _).padded.andThen positive).optional).map _).named _

/-- Dice with a comparison stay within the text. -/
theorem diceCheck : Reader.diceCheck.Confined :=
  (dice.andThen (((firstWord _).padded.named _).andThen whole).optional).map _

/-- A short check stays within the text. -/
theorem shortCheck : Reader.shortCheck.Confined :=
  ((((word _ _).andThen (firstWord _).padded).andThen positive).map _).named _

/-- A number stays within the text, with its fraction. -/
theorem number : Reader.number.Confined :=
  ((whole.andThen ((word _ _).andThen digits).optional).map _).named _

variable {inner : Reader Node}

/-- An atom stays within the text if the sum in its parentheses does. -/
theorem atom (h : inner.Confined) : (Reader.atom inner).Confined :=
  (((shortCheck.orElse diceCheck).orElse number).orElse
    ((((word _ _).andThen h.padded).andThen (word _ _)).map _)).padded

/-- A sign in front of an atom stays within the text. -/
theorem negation (h : inner.Confined) : (Reader.negation inner).Confined :=
  ((word _ _).padded.optional.andThen (atom h)).map _

/-- The exponents of a power stay within the text. -/
theorem power (h : inner.Confined) : (Reader.power inner).Confined :=
  ((negation h).andThen ((word _ _).padded.andThen (negation h)).many).map _

/-- The factors of a product stay within the text. -/
theorem product (h : inner.Confined) : (Reader.product inner).Confined :=
  ((power h).andThen ((firstWord _).padded.andThen (power h)).many).map _

/-- The terms of a sum stay within the text. -/
theorem sum (h : inner.Confined) : (Reader.sum inner).Confined :=
  ((product h).andThen ((firstWord _).padded.andThen (product h)).many).map _

/-- The readers of all levels of parentheses stay within the text. -/
theorem level (depth : Nat) : (Reader.level depth).Confined := by
  induction depth with
  | zero => exact sum never
  | succ depth ih => exact sum ih

/-- The reader of expressions stays within every text, whatever its depth. -/
theorem expression : Reader.expression.Confined where
  rest_suffix hread := (level _).rest_suffix hread
  notes_within position text := (level _).notes_within position text

end Reader.Confined

/-- A text that cannot be read is refused at a span within the text. -/
theorem Reader.Confined.within_of_readAll {α : Type} {reader : Reader α} (h : reader.Confined)
    {text : List Char} {failure : Failure} (hread : reader.readAll text = .error (some failure)) :
    failure.Within 0 (byteLength text) := by
  rw [Reader.readAll] at hread
  split at hread
  · cases hread
  · have hwithin := (h.andThen .finish).notes_within 0 text
    rw [Nat.zero_add] at hwithin
    exact within_furthest hwithin (Except.error.inj hread)

end DiceNotation
