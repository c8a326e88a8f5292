/-!
# Blank characters

Blanks are the 25 characters with the Unicode property `White_Space`. They may stand between the
tokens of an expression, and they are trimmed from both ends of a comment. Trimming only removes
blanks, and what it leaves neither starts nor ends with one.
-/

namespace DiceNotation.Text

/-- Decides the Unicode property `White_Space`. -/
def isBlank (c : Char) : Bool :=
  let code := c.toNat
  (9 ≤ code && code ≤ 13) || code == 0x20 || code == 0x85 || code == 0xA0 || code == 0x1680 ||
    (0x2000 ≤ code && code ≤ 0x200A) || code == 0x2028 || code == 0x2029 || code == 0x202F ||
    code == 0x205F || code == 0x3000

/-- Removes the blanks at the front. -/
def dropBlanks (text : List Char) : List Char := text.dropWhile isBlank

/-- Removes the blanks at both ends. -/
def trimBlanks (text : List Char) : List Char := (dropBlanks (dropBlanks text).reverse).reverse

/-- Dropping blanks leaves no blank in front. -/
theorem isBlank_head_dropBlanks {text rest : List Char} {c : Char}
    (h : dropBlanks text = c :: rest) : isBlank c = false := by
  induction text with
  | nil => simp [dropBlanks] at h
  | cons d text ih =>
    by_cases hd : isBlank d = true
    · exact ih (by simpa [dropBlanks, hd] using h)
    · simp only [dropBlanks, List.dropWhile_cons, if_neg hd, List.cons.injEq] at h
      simpa [h.1] using hd

/-- Only blanks are dropped. -/
theorem exists_blanks_append_dropBlanks (text : List Char) :
    ∃ blanks : List Char, (∀ c ∈ blanks, isBlank c = true) ∧ blanks ++ dropBlanks text = text :=
  ⟨text.takeWhile isBlank, fun c hc => List.all_eq_true.1 List.all_takeWhile c hc,
    List.takeWhile_append_dropWhile⟩

/-- Dropping blanks never lengthens a text. -/
theorem length_dropBlanks_le (text : List Char) : (dropBlanks text).length ≤ text.length :=
  (List.dropWhile_sublist isBlank).length_le

/-- Blanks in front are dropped. -/
theorem dropBlanks_append {blanks text : List Char} (h : ∀ c ∈ blanks, isBlank c = true) :
    dropBlanks (blanks ++ text) = dropBlanks text :=
  List.dropWhile_append_of_pos h

/-- Dropping stops at the first character that is no blank. -/
theorem dropBlanks_cons {c : Char} {text : List Char} (h : isBlank c = false) :
    dropBlanks (c :: text) = c :: text :=
  List.dropWhile_cons_of_neg (by rw [h]; exact Bool.false_ne_true)

/-- Nothing is left to drop. -/
theorem dropBlanks_dropBlanks (text : List Char) :
    dropBlanks (dropBlanks text) = dropBlanks text := by
  cases htext : dropBlanks text with
  | nil => rfl
  | cons c rest => exact dropBlanks_cons (isBlank_head_dropBlanks htext)

/-- Trimming only removes characters. -/
theorem mem_of_mem_trimBlanks {text : List Char} {c : Char} (h : c ∈ trimBlanks text) :
    c ∈ text := by
  have hreverse := (List.dropWhile_sublist isBlank).subset (List.mem_reverse.1 h)
  exact (List.dropWhile_sublist isBlank).subset (List.mem_reverse.1 hreverse)

/-- Trimming leaves all but blanks at the end of what dropping the blanks in front leaves. -/
theorem exists_trimBlanks_append_blanks (text : List Char) :
    ∃ blanks : List Char, (∀ c ∈ blanks, isBlank c = true) ∧
      trimBlanks text ++ blanks = dropBlanks text := by
  obtain ⟨blanks, hblanks, hdrop⟩ := exists_blanks_append_dropBlanks (dropBlanks text).reverse
  refine ⟨blanks.reverse, fun c hc => hblanks c (List.mem_reverse.1 hc), ?_⟩
  rw [trimBlanks, ← List.reverse_append, hdrop, List.reverse_reverse]

/-- What trimming leaves does not start with a blank. -/
theorem isBlank_head_trimBlanks {text rest : List Char} {c : Char}
    (h : trimBlanks text = c :: rest) : isBlank c = false := by
  obtain ⟨blanks, -, hblanks⟩ := exists_trimBlanks_append_blanks text
  rw [h, List.cons_append] at hblanks
  exact isBlank_head_dropBlanks hblanks.symm

/-- Nothing is left to trim. -/
theorem trimBlanks_trimBlanks (text : List Char) :
    trimBlanks (trimBlanks text) = trimBlanks text := by
  have hfront : dropBlanks (trimBlanks text) = trimBlanks text := by
    cases htrimmed : trimBlanks text with
    | nil => rfl
    | cons c rest => exact dropBlanks_cons (isBlank_head_trimBlanks htrimmed)
  have hreverse : (trimBlanks text).reverse = dropBlanks (dropBlanks text).reverse :=
    List.reverse_reverse _
  rw [trimBlanks, hfront, hreverse, dropBlanks_dropBlanks]
  rfl

/-- A text is another one with blanks around it, and the other one neither starts nor ends with a
blank. -/
structure Trims (text trimmed : List Char) : Prop where
  /-- Only blanks are missing, and only at both ends. -/
  around : ∃ front behind, (∀ c ∈ front, isBlank c = true) ∧ (∀ c ∈ behind, isBlank c = true) ∧
    text = front ++ (trimmed ++ behind)
  /-- The first character is no blank. -/
  head : ∀ c ∈ trimmed.head?, isBlank c = false
  /-- The last character is no blank. -/
  last : ∀ c ∈ trimmed.getLast?, isBlank c = false

theorem trims_trimBlanks (text : List Char) : Trims text (trimBlanks text) := by
  obtain ⟨front, hfront, htext⟩ := exists_blanks_append_dropBlanks text
  obtain ⟨behind, hbehind, hdrop⟩ := exists_trimBlanks_append_blanks text
  refine ⟨⟨front, behind, hfront, hbehind, by rw [hdrop, htext]⟩, fun c hc => ?_, fun c hc => ?_⟩
  · obtain ⟨rest, hrest⟩ := List.head?_eq_some_iff.1 hc
    exact isBlank_head_trimBlanks hrest
  · rw [trimBlanks, List.getLast?_reverse] at hc
    obtain ⟨rest, hrest⟩ := List.head?_eq_some_iff.1 hc
    exact isBlank_head_dropBlanks hrest

/-- Trimming removes the blanks that were put around a trimmed text. -/
theorem trimBlanks_append {before text behind : List Char}
    (hbefore : ∀ c ∈ before, isBlank c = true) (hbehind : ∀ c ∈ behind, isBlank c = true)
    (htext : trimBlanks text = text) (hne : text ≠ []) :
    trimBlanks (before ++ (text ++ behind)) = text := by
  have hlength : text.length ≤ (dropBlanks text).length := by
    have hshort := length_dropBlanks_le (dropBlanks text).reverse
    rw [List.length_reverse] at hshort
    rwa [← List.length_reverse, ← trimBlanks, htext] at hshort
  have hdrop : dropBlanks text = text :=
    (List.dropWhile_sublist isBlank).eq_of_length_le hlength
  have hreverse : dropBlanks text.reverse = text.reverse := by
    rw [trimBlanks, hdrop] at htext
    rw [← List.reverse_reverse (dropBlanks text.reverse), htext]
  obtain ⟨c, more, rfl⟩ := List.exists_cons_of_ne_nil hne
  have hc : isBlank c = false := isBlank_head_dropBlanks hdrop
  have hblanks : ∀ c ∈ behind.reverse, isBlank c = true :=
    fun c hmem => hbehind c (List.mem_reverse.1 hmem)
  rw [trimBlanks, dropBlanks_append hbefore, List.cons_append, dropBlanks_cons hc,
    ← List.cons_append, List.reverse_append, dropBlanks_append hblanks, hreverse,
    List.reverse_reverse]

end DiceNotation.Text
