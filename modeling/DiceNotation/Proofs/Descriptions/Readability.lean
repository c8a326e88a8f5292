import DiceNotation.Proofs.Notation.Numerals
import DiceNotation.Proofs.Notation.Rebuilding

/-!
# What descriptions tell

A description lists dice, each as its value between marks that set it off, and may end the list with
a note on the dice that are left out; behind an arrow it says what the dice amount to. A blank
stands behind every part and none within a value with its marks, so the parts can be told apart, and
the text of a description determines everything that it tells.
-/

namespace DiceNotation

open Grammar Text

/-! ## Parts -/

/-- How a value is set off from the others in a description. -/
inductive Emphasis where
  /-- Not at all. -/
  | plain
  /-- It is struck through. -/
  | struck
  /-- It is in italics. -/
  | italic
  /-- It is in bold. -/
  | bold
  /-- It is in bold and in italics. -/
  | boldItalic
deriving DecidableEq, Repr

/-- Whether a value is struck through. -/
def Emphasis.isStruck (emphasis : Emphasis) : Bool := emphasis = struck

/-- Whether a value is in italics. -/
def Emphasis.isItalic (emphasis : Emphasis) : Bool := emphasis = italic || emphasis = boldItalic

/-- Whether a value is in bold. -/
def Emphasis.isBold (emphasis : Emphasis) : Bool := emphasis = bold || emphasis = boldItalic

/-- The marks in front of a value and behind it. -/
def Emphasis.marks : Emphasis → String × String
  | plain => ("", "")
  | struck => ("~~", "~~")
  | italic => ("_", "_")
  | bold => ("**", "**")
  | boldItalic => ("**_", "_**")

/-- A part of the list of dice in a description. -/
inductive Part where
  /-- A die: its value, set off. -/
  | die (emphasis : Emphasis) (value : UInt32)
  /-- A note on the number of dice that are not listed. -/
  | more (count : Nat)
deriving DecidableEq, Repr

namespace Part

/-- The text of a part. -/
def text : Part → String
  | die emphasis value => emphasis.marks.1 ++ toString value ++ emphasis.marks.2
  | more count => toString count ++ " more..."

/-- The value of the die that a part shows, and how it is set off. -/
def die? : Part → Option (Emphasis × UInt32)
  | die emphasis value => some (emphasis, value)
  | more _ => none

/-- The value of the die that a part shows. -/
def value? (part : Part) : Option UInt32 := part.die?.map Prod.snd

/-- Whether a part is a value that is struck through. -/
def isStruck (part : Part) : Bool := part.die?.any fun shown => shown.1.isStruck

/-- Whether a part is a value in italics. -/
def isItalic (part : Part) : Bool := part.die?.any fun shown => shown.1.isItalic

/-- Whether a part is a value in bold. -/
def isBold (part : Part) : Bool := part.die?.any fun shown => shown.1.isBold

/-- The first word of a part, up to its first blank. -/
def word : Part → List Char
  | die emphasis value =>
    emphasis.marks.1.toList ++ (Nat.toDigits 10 value.toNat ++ emphasis.marks.2.toList)
  | more count => Nat.toDigits 10 count

/-- What follows the first word of a part. -/
def rest : Part → List Char
  | die _ _ => []
  | more _ => " more...".toList

/-- The text of a part is its first word and what follows. -/
theorem toList_text (part : Part) : part.text.toList = part.word ++ part.rest := by
  cases part with
  | die emphasis value =>
    rw [text, String.toList_append, String.toList_append, toList_toString, List.append_assoc]
    exact (List.append_nil _).symm
  | more count =>
    rw [text, String.toList_append]
    exact congrArg (· ++ _) Nat.toList_repr

end Part

/-! ## Words -/

/-- The marks that set off values. -/
def emphasisMarks : List Char := ['~', '_', '*']

/-- Emphasis is written with the marks for it. -/
theorem Emphasis.mem_emphasisMarks (emphasis : Emphasis) :
    (∀ c ∈ emphasis.marks.1.toList, c ∈ emphasisMarks) ∧
      ∀ c ∈ emphasis.marks.2.toList, c ∈ emphasisMarks := by
  cases emphasis <;> decide

/-- Different kinds of emphasis have different marks. -/
theorem Emphasis.eq_of_marks {emphasis other : Emphasis}
    (h : emphasis.marks.1.toList = other.marks.1.toList) : emphasis = other := by
  revert h
  cases emphasis <;> cases other <;> decide

/-- No mark of emphasis is a digit. -/
theorem isDigit_of_mem_emphasisMarks {c : Char} (h : c ∈ emphasisMarks) : c.isDigit = false := by
  have hmarks : ∀ mark ∈ emphasisMarks, mark.isDigit = false := by decide
  exact hmarks c h

/-- Digits follow marks, so the marks can be told from the digits. -/
theorem takeWhile_marks {marks digits : List Char} (hmarks : ∀ c ∈ marks, c ∈ emphasisMarks)
    (hdigits : ∀ c ∈ digits, c.isDigit = true) (hne : digits ≠ []) (behind : List Char) :
    (marks ++ (digits ++ behind)).takeWhile (fun c => !c.isDigit) = marks := by
  have hplain : ∀ c ∈ marks, (!c.isDigit) = true := fun c hc => by
    rw [isDigit_of_mem_emphasisMarks (hmarks c hc)]
    rfl
  obtain ⟨c, more, rfl⟩ := List.exists_cons_of_ne_nil hne
  have hc : ¬ (!c.isDigit) = true := by
    rw [hdigits c List.mem_cons_self]
    exact Bool.false_ne_true
  have hstop : (c :: (more ++ behind)).takeWhile (fun c => !c.isDigit) = [] :=
    List.takeWhile_cons_of_neg hc
  rw [List.takeWhile_append_of_pos hplain, List.cons_append, hstop, List.append_nil]

/-- Different numbers have different digits. -/
theorem toDigits_inj {n m : Nat} (h : Nat.toDigits 10 n = Nat.toDigits 10 m) : n = m := by
  rw [← Nat.ofDigitChars_ten_toDigits (n := n), h, Nat.ofDigitChars_ten_toDigits]

/-- A number with marks around it determines the number and the marks. -/
theorem Part.die_of_word {emphasis other : Emphasis} {value value' : UInt32}
    (h : (die emphasis value).word = (die other value').word) :
    emphasis = other ∧ value = value' := by
  have hopening := congrArg (List.takeWhile fun c => !c.isDigit) h
  rw [word, word, takeWhile_marks emphasis.mem_emphasisMarks.1 (fun _ => isDigit_of_mem_digits)
    Nat.toDigits_ne_nil, takeWhile_marks other.mem_emphasisMarks.1 (fun _ => isDigit_of_mem_digits)
    Nat.toDigits_ne_nil] at hopening
  obtain rfl := Emphasis.eq_of_marks hopening
  rw [word, word, List.append_cancel_left_eq, List.append_cancel_right_eq] at h
  exact ⟨rfl, UInt32.toNat_inj.1 (toDigits_inj h)⟩

/-- The first word of a part consists of digits and marks. -/
theorem Part.mem_word {part : Part} {c : Char} (h : c ∈ part.word) :
    c.isDigit = true ∨ c ∈ emphasisMarks := by
  cases part with
  | die emphasis value =>
    rcases List.mem_append.1 h with h | h
    · exact .inr (emphasis.mem_emphasisMarks.1 c h)
    · rcases List.mem_append.1 h with h | h
      · exact .inl (isDigit_of_mem_digits h)
      · exact .inr (emphasis.mem_emphasisMarks.2 c h)
  | more count => exact .inl (isDigit_of_mem_digits h)

/-- The word of a part is not empty. -/
theorem Part.word_ne_nil (part : Part) : part.word ≠ [] := by
  cases part with
  | die emphasis value =>
    exact List.append_ne_nil_of_right_ne_nil _
      (List.append_ne_nil_of_left_ne_nil Nat.toDigits_ne_nil _)
  | more count => exact Nat.toDigits_ne_nil

/-- The word of a part has no blank. -/
theorem not_mem_word (part : Part) : ' ' ∉ part.word := by
  intro hmem
  rcases Part.mem_word hmem with hdigit | hmark
  · exact absurd hdigit (by decide)
  · exact absurd hmark (by decide)

/-! ## Lists -/

/-- What stands in front of the first blank is told apart from what stands behind it. -/
theorem eq_of_append_blank {word other behind behind' : List Char} (hword : ' ' ∉ word)
    (hother : ' ' ∉ other) (h : word ++ ' ' :: behind = other ++ ' ' :: behind') :
    word = other ∧ behind = behind' := by
  have hcut := congrArg (cutAt ' ') h
  rw [cutAt_append hword, cutAt_append hother] at hcut
  exact Prod.mk.inj (Option.some.inj hcut)

/-- A part is told apart from what stands behind it, unless that reads on like a note. -/
theorem Part.eq_of_text_append {part other : Part} {behind behind' : List Char}
    (hbehind : Starts (· ≠ 'm') behind) (hbehind' : Starts (· ≠ 'm') behind')
    (h : part.text.toList ++ ' ' :: behind = other.text.toList ++ ' ' :: behind') :
    part = other ∧ behind = behind' := by
  rw [toList_text, toList_text, List.append_assoc, List.append_assoc] at h
  cases part with
  | die emphasis value =>
    cases other with
    | die emphasis' value' =>
      obtain ⟨hword, hrest⟩ := eq_of_append_blank (not_mem_word _) (not_mem_word _) h
      obtain ⟨rfl, rfl⟩ := die_of_word hword
      exact ⟨rfl, hrest⟩
    | more count =>
      obtain ⟨-, hrest⟩ := eq_of_append_blank (not_mem_word _) (not_mem_word _) h
      exact absurd rfl (hbehind hrest)
  | more count =>
    cases other with
    | die emphasis value =>
      obtain ⟨-, hrest⟩ := eq_of_append_blank (not_mem_word _) (not_mem_word _) h
      exact absurd rfl (hbehind' hrest.symm)
    | more count' =>
      obtain ⟨hword, hrest⟩ := eq_of_append_blank (not_mem_word _) (not_mem_word _) h
      obtain rfl := toDigits_inj hword
      exact ⟨rfl, (List.cons.inj (List.append_cancel_left hrest)).2⟩

/-- What stands behind the blank in front of a part is no note, no arrow and no other blank. -/
theorem Part.starts_lead {lead : List Char} (hlead : Starts (· = '+') lead) (part : Part)
    (behind : List Char) :
    Starts (· ∉ ['m', '=', ' ']) (lead ++ (part.text.toList ++ behind)) := by
  cases lead with
  | cons c lead =>
    obtain rfl := hlead rfl
    exact starts_cons (by decide)
  | nil =>
    obtain ⟨c, more, hword⟩ := List.exists_cons_of_ne_nil part.word_ne_nil
    have hmarks : ∀ mark ∈ ['m', '=', ' '], ¬ (mark.isDigit = true ∨ mark ∈ emphasisMarks) := by
      decide
    have hmem : c ∈ part.word := by
      rw [hword]
      exact List.mem_cons_self
    rw [toList_text, hword]
    exact starts_cons fun hc => hmarks c hc (mem_word hmem)

/-- The parts of a list, each behind a separator that starts with a blank, and an arrow behind
them. -/
def partsText (lead : List Char) (parts : List Part) (ending : List Char) : List Char :=
  (parts.flatMap fun part => ' ' :: (lead ++ part.text.toList)) ++ ' ' :: '=' :: ending

/-- The first of several parts is written in front of the others. -/
theorem partsText_cons (lead : List Char) (part : Part) (parts : List Part) (ending : List Char) :
    partsText lead (part :: parts) ending =
      ' ' :: (lead ++ (part.text.toList ++ partsText lead parts ending)) := by
  simp only [partsText, List.flatMap_cons, List.cons_append, List.append_assoc]

/-- Behind every part stands a blank, and then nothing like a note. -/
theorem exists_partsText_eq {lead : List Char} (hlead : Starts (· = '+') lead) (parts : List Part)
    (ending : List Char) :
    ∃ behind, partsText lead parts ending = ' ' :: behind ∧ Starts (· ≠ 'm') behind := by
  cases parts with
  | nil => exact ⟨'=' :: ending, rfl, starts_cons (by decide)⟩
  | cons part parts =>
    exact ⟨_, partsText_cons lead part parts ending,
      (part.starts_lead hlead _).imp fun c hc hm => hc (by rw [hm]; decide)⟩

/-- The parts of a list are told apart from each other and from what stands behind the arrow. -/
theorem eq_of_partsText {lead : List Char} (hlead : Starts (· = '+') lead)
    {parts others : List Part} {ending ending' : List Char}
    (h : partsText lead parts ending = partsText lead others ending') :
    parts = others ∧ ending = ending' := by
  -- A list that ends before the other one has its arrow where the other one has a part.
  have harrow : ∀ (part : Part) (parts : List Part) (ending ending' : List Char),
      partsText lead (part :: parts) ending ≠ partsText lead [] ending' := by
    intro part parts ending ending' h
    rw [partsText_cons] at h
    exact part.starts_lead hlead _ (List.cons.inj h).2 (by decide)
  induction parts generalizing others with
  | nil =>
    cases others with
    | nil => exact ⟨rfl, (List.cons.inj (List.cons.inj h).2).2⟩
    | cons other others => exact absurd h.symm (harrow other others ending' ending)
  | cons part parts ih =>
    cases others with
    | nil => exact absurd h (harrow part parts ending ending')
    | cons other others =>
      obtain ⟨behind, hbehind, hstarts⟩ := exists_partsText_eq hlead parts ending
      obtain ⟨behind', hbehind', hstarts'⟩ := exists_partsText_eq hlead others ending'
      rw [partsText_cons, partsText_cons, hbehind, hbehind'] at h
      obtain ⟨rfl, rfl⟩ := Part.eq_of_text_append hstarts hstarts'
        (List.append_cancel_left (List.cons.inj h).2)
      obtain ⟨rfl, hending⟩ := ih (hbehind.trans hbehind'.symm)
      exact ⟨rfl, hending⟩

/-- A description in parentheses: a list of parts, and behind an arrow what they amount to. -/
def listing (separator : String) (parts : List Part) (summary : String) : String :=
  "(" ++ separator.intercalate (parts.map Part.text) ++ " => **" ++ summary ++ "**)"

/-- What stands behind the first character of the arrow. -/
def arrowEnding (summary : String) : List Char := "> **".toList ++ (summary.toList ++ "**)".toList)

/-- A listing is its parts in a parenthesis, an arrow and a summary. -/
theorem toList_listing (separator : String) (parts : List Part) (summary : String) :
    (listing separator parts summary).toList =
      '(' :: ((separator.intercalate (parts.map Part.text)).toList ++
        ' ' :: '=' :: arrowEnding summary) := by
  simp only [listing, arrowEnding, String.toList_append, List.append_assoc]
  rfl

/-- The parts of a list follow each other as they do behind separators, but for the first one. -/
theorem partsText_eq {separator : String} {lead : List Char}
    (hseparator : separator.toList = ' ' :: lead) (part : Part) (parts : List Part)
    (ending : List Char) :
    partsText lead (part :: parts) ending =
      ' ' :: (lead ++ ((separator.intercalate ((part :: parts).map Part.text)).toList ++
        ' ' :: '=' :: ending)) := by
  rw [List.map_cons, toList_intercalate_cons, partsText_cons, partsText, hseparator,
    List.flatMap_map]
  simp only [List.cons_append, List.append_assoc]

/-- A list in parentheses is read as its parts and as what it says that they amount to. -/
theorem eq_of_listing {separator : String} {lead : List Char}
    (hseparator : separator.toList = ' ' :: lead) (hlead : Starts (· = '+') lead)
    {parts others : List Part} {summary summary' : String}
    (h : listing separator parts summary = listing separator others summary') :
    parts = others ∧ summary = summary' := by
  have hends : ∀ {summary summary'}, arrowEnding summary = arrowEnding summary' →
      summary = summary' := by
    intro summary summary' h
    exact String.toList_inj.1 (List.append_cancel_right (List.append_cancel_left h))
  have hblank : ∀ (part : Part) (parts : List Part) (ending ending' : List Char),
      (separator.intercalate ((part :: parts).map Part.text)).toList ++ ending ≠
        (separator.intercalate (List.map Part.text [])).toList ++ ' ' :: ending' := by
    intro part parts ending ending' h
    rw [List.map_cons, toList_intercalate_cons, List.append_assoc] at h
    have hnone : Starts (· = '+') [] := fun _ _ h => by cases h
    exact part.starts_lead hnone _ h (by decide)
  have htext := congrArg String.toList h
  rw [toList_listing, toList_listing] at htext
  have hinner := (List.cons.inj htext).2
  cases parts with
  | nil =>
    cases others with
    | nil => exact ⟨rfl, hends (List.cons.inj (List.cons.inj hinner).2).2⟩
    | cons other others => exact absurd hinner.symm (hblank other others _ _)
  | cons part parts =>
    cases others with
    | nil => exact absurd hinner (hblank part parts _ _)
    | cons other others =>
      -- There is no separator in front of the first part; with one there, all parts are alike.
      have hparts := congrArg (fun text => ' ' :: (lead ++ text)) hinner
      rw [← partsText_eq hseparator, ← partsText_eq hseparator] at hparts
      obtain ⟨hsame, hending⟩ := eq_of_partsText hlead hparts
      exact ⟨hsame, hends hending⟩

/-! ## Reports -/

/-- What the description of rolled dice tells. -/
inductive DiceReport where
  /-- The value of a single die. -/
  | lone (value : UInt32)
  /-- A list of dice and their total. -/
  | list (parts : List Part) (total : Nat)
deriving DecidableEq, Repr

/-- The description of rolled dice; a single value is in bold. -/
def DiceReport.text : DiceReport → String
  | lone value => "(" ++ (Part.die .bold value).text ++ ")"
  | list parts total => listing " + " parts (toString total)

/-- What the description of a check tells. -/
structure CheckReport where
  /-- The list of dice. -/
  parts : List Part
  /-- The number of hits. -/
  hits : Nat
deriving DecidableEq, Repr

/-- A number of hits in words. -/
def hitsText (hits : Nat) : String := toString hits ++ " hit" ++ if hits = 1 then "" else "s"

/-- The description of a check. -/
def CheckReport.text (report : CheckReport) : String :=
  listing " " report.parts (hitsText report.hits)

/-- A lone die is a single word in parentheses. -/
theorem DiceReport.toList_lone (value : UInt32) :
    (lone value).text.toList = '(' :: ((Part.die .bold value).word ++ [')']) := by
  rw [text, String.toList_append, String.toList_append, Part.toList_text]
  exact congrArg ('(' :: · ++ [')']) (List.append_nil _)

/-- The description of dice determines what it tells. -/
theorem DiceReport.text_injective : Function.Injective DiceReport.text := by
  -- Only a list has a blank.
  have hblank : ∀ (value : UInt32) (parts : List Part) (total : Nat),
      (lone value).text ≠ (list parts total).text := by
    intro value parts total h
    have hmem : ' ' ∈ (list parts total).text.toList := by
      rw [text, toList_listing]
      exact List.mem_cons_of_mem _ (List.mem_append_right _ List.mem_cons_self)
    rw [← h, toList_lone, List.mem_cons, List.mem_append] at hmem
    rcases hmem with hmem | hmem | hmem
    · exact absurd hmem (by decide)
    · exact not_mem_word _ hmem
    · exact absurd hmem (by decide)
  intro report other h
  cases report with
  | lone value =>
    cases other with
    | lone value' =>
      have htext := congrArg String.toList h
      rw [toList_lone, toList_lone] at htext
      rw [(Part.die_of_word (List.append_cancel_right (List.cons.inj htext).2)).2]
    | list parts total => exact absurd h (hblank value parts total)
  | list parts total =>
    cases other with
    | lone value => exact absurd h.symm (hblank value parts total)
    | list others total' =>
      obtain ⟨rfl, htotal⟩ := eq_of_listing rfl (starts_cons rfl) h
      rw [Nat.repr_injective htotal]

/-- Different numbers of hits are written differently. -/
theorem hitsText_injective : Function.Injective hitsText := by
  have hdigits : ∀ n : Nat, ' ' ∉ Nat.toDigits 10 n :=
    fun n hmem => absurd (isDigit_of_mem_digits hmem) (by decide)
  have hword : ∀ n : Nat, ∃ unit, (hitsText n).toList = Nat.toDigits 10 n ++ ' ' :: unit := by
    intro n
    refine ⟨"hit".toList ++ (if n = 1 then "" else "s").toList, ?_⟩
    rw [hitsText, String.toList_append, String.toList_append, List.append_assoc]
    exact congrArg (· ++ _) Nat.toList_repr
  intro n m h
  obtain ⟨unit, hn⟩ := hword n
  obtain ⟨unit', hm⟩ := hword m
  have htext := congrArg String.toList h
  rw [hn, hm] at htext
  exact toDigits_inj (eq_of_append_blank (hdigits n) (hdigits m) htext).1

/-- The description of a check determines what it tells. -/
theorem CheckReport.text_injective : Function.Injective CheckReport.text := by
  intro report other h
  have hnone : Starts (· = '+') [] := fun _ _ h => by cases h
  obtain ⟨hparts, hsummary⟩ := eq_of_listing rfl hnone h
  have hhits := hitsText_injective hsummary
  cases report
  cases other
  cases hparts
  cases hhits
  rfl

end DiceNotation
