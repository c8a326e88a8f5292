import DiceNotation.Proofs.Fallible
import DiceNotation.Proofs.Grammar.Completeness
import DiceNotation.Proofs.Grammar.Literals
import DiceNotation.Proofs.Grammar.Spelling
import DiceNotation.Proofs.Reading.Joined
import DiceNotation.Session

/-!
# Texts with fewer blanks

Blanks are there for the reader of a text only. Deleting some of them, or all, changes no token: no
token holds a blank, and the tokens of a text that can be read are told apart without any blanks
between them. So what is left is read as the same entries, piece by piece, and builds to the same
expression. Comments are another matter, as they keep their blanks.
-/

namespace DiceNotation

open Grammar Text

namespace Text

/-- A character that is no mark belongs to the first piece. -/
theorem pieces_cons_of_ne {mark c : Char} {text piece : List Char} {rest : List (List Char)}
    (hc : c ≠ mark) (h : pieces mark text = piece :: rest) :
    pieces mark (c :: text) = (c :: piece) :: rest := by
  rw [pieces, if_neg hc, h]

/-- A text and what is left of it when some of its blanks are deleted. -/
inductive Compacts : List Char → List Char → Prop where
  /-- Nothing is left of nothing. -/
  | nil : Compacts [] []
  /-- A character may stay. -/
  | keep {text left : List Char} (c : Char) (h : Compacts text left) :
    Compacts (c :: text) (c :: left)
  /-- A blank may be deleted. -/
  | delete {text left : List Char} {c : Char} (hc : isBlank c = true) (h : Compacts text left) :
    Compacts (c :: text) left

namespace Compacts

variable {text left : List Char}

/-- All blanks may be deleted. -/
theorem filter (text : List Char) : Compacts text (text.filter fun c => !isBlank c) := by
  induction text with
  | nil => exact .nil
  | cons c text ih =>
    cases hc : isBlank c with
    | true =>
      rw [List.filter_cons_of_neg (by rw [hc]; exact Bool.false_ne_true)]
      exact .delete hc ih
    | false =>
      rw [List.filter_cons_of_pos (by rw [hc]; rfl)]
      exact .keep c ih

theorem sublist (h : Compacts text left) : left.Sublist text := by
  induction h with
  | nil => exact .slnil
  | keep c _ ih => exact ih.cons_cons c
  | delete _ _ ih => exact ih.cons _

/-- Nothing but blanks is deleted. -/
theorem eq_of_solid (h : Compacts text left) (hsolid : ∀ c ∈ text, isBlank c = false) :
    left = text := by
  induction h with
  | nil => rfl
  | keep c _ ih => rw [ih (List.forall_mem_cons.1 hsolid).2]
  | delete hc _ _ =>
    rw [(List.forall_mem_cons.1 hsolid).1] at hc
    cases hc

/-- What is left of two parts is left of each of them. -/
theorem exists_of_append {front behind : List Char} (h : Compacts (front ++ behind) left) :
    ∃ front' behind', left = front' ++ behind' ∧ Compacts front front' ∧
      Compacts behind behind' := by
  induction front generalizing left with
  | nil => exact ⟨[], left, rfl, .nil, h⟩
  | cons c front ih =>
    cases h with
    | keep _ h =>
      obtain ⟨front', behind', rfl, hfront, hbehind⟩ := ih h
      exact ⟨c :: front', behind', rfl, .keep c hfront, hbehind⟩
    | delete hc h =>
      obtain ⟨front', behind', rfl, hfront, hbehind⟩ := ih h
      exact ⟨front', behind', rfl, .delete hc hfront, hbehind⟩

/-- The pieces between marks are shortened one by one, as no mark is deleted. -/
theorem pieces {mark : Char} (hmark : isBlank mark = false) (h : Compacts text left) :
    List.Forall₂ Compacts (pieces mark text) (pieces mark left) := by
  induction h with
  | nil => exact .cons .nil .nil
  | @keep text left c _ ih =>
    by_cases hc : c = mark
    · rw [Text.pieces, if_pos hc, Text.pieces, if_pos hc]
      exact .cons .nil ih
    · obtain ⟨piece, rest, hpieces⟩ := List.exists_cons_of_ne_nil (pieces_ne_nil mark text)
      obtain ⟨piece', rest', hpieces'⟩ := List.exists_cons_of_ne_nil (pieces_ne_nil mark left)
      rw [hpieces, hpieces', List.forall₂_cons] at ih
      rw [pieces_cons_of_ne hc hpieces, pieces_cons_of_ne hc hpieces']
      exact .cons (.keep c ih.1) ih.2
  | @delete text left c hc _ ih =>
    have hne : c ≠ mark := by
      rintro rfl
      rw [hmark] at hc
      cases hc
    obtain ⟨piece, rest, hpieces⟩ := List.exists_cons_of_ne_nil (pieces_ne_nil mark text)
    obtain ⟨piece', rest', hpieces'⟩ := List.exists_cons_of_ne_nil (pieces_ne_nil mark left)
    rw [hpieces, hpieces', List.forall₂_cons] at ih
    rw [pieces_cons_of_ne hne hpieces, hpieces']
    exact .cons (.delete hc ih.1) ih.2

end Compacts

end Text

/-! ## Tokens -/

namespace Grammar

/-- No blank stands in a token. -/
theorem IsSpelling.isBlank_eq_false {c : Char} (h : IsSpelling c) : isBlank c = false := by
  have hmarks : ∀ mark ∈ tokenMarks, isBlank mark = false := by decide
  exact h.elim isBlank_of_isDigit (hmarks c)

/-- What is left of a text has the same tokens. -/
theorem Spaced.of_compacts {tokens : List Token} {text left : List Char}
    (h : Spaced tokens text) (hspelled : Spelled tokens) (hleft : Compacts text left) :
    Spaced tokens left := by
  induction h generalizing left with
  | blanks hblanks => exact .blanks fun c hc => hblanks c (hleft.sublist.subset hc)
  | @token front text tokens token hfront _ ih =>
    obtain ⟨htoken, hothers⟩ := List.forall_mem_cons.1 hspelled
    obtain ⟨blanks, others, rfl, hblanks, hrest⟩ := hleft.exists_of_append
    obtain ⟨same, behind, rfl, hsame, hbehind⟩ := hrest.exists_of_append
    obtain rfl := hsame.eq_of_solid fun c hc => (htoken c hc).isBlank_eq_false
    exact .token _ (fun c hc => hfront c (hblanks.sublist.subset hc)) (ih hothers hbehind)

/-- What is left of a derivable text is derivable as the same expression. -/
theorem DerivableAs.of_compacts {text left : List Char} {node : Node}
    (h : DerivableAs text node) (hleft : Compacts text left) : DerivableAs left node := by
  obtain ⟨tokens, hspaced, hnode⟩ := h
  exact ⟨tokens, hspaced.of_compacts hnode.spelled hleft, hnode⟩

end Grammar

/-! ## Entries -/

/-- A piece without comments is read as the same entry if blanks are deleted in it. -/
theorem Entry.ofPiece_of_compacts {text other piece left : List Char} {position place : Nat}
    {entry : Entry} (hhash : '#' ∉ piece) (hcolon : ':' ∉ piece)
    (h : Entry.ofPiece text position piece = .ok entry) (hleft : Compacts piece left) :
    Entry.ofPiece other place left = .ok entry := by
  have hhash' : '#' ∉ left := fun hmem => hhash (hleft.sublist.subset hmem)
  have hcolon' : ':' ∉ left := fun hmem => hcolon (hleft.sublist.subset hmem)
  rw [ofPiece, EntryText.ofPiece_plain hhash hcolon] at h
  rw [ofPiece, EntryText.ofPiece_plain hhash' hcolon']
  dsimp only at h ⊢
  split at h
  · rename_i node hread
    rw [readAll_of_derivableAs ((derivableAs_of_readAll hread).of_compacts hleft)]
    exact h
  all_goals cases h

/-- Pieces without comments are read as the same entries if blanks are deleted in them. -/
theorem entriesOfPieces_of_compacts {text other : List Char} {position place : Nat}
    {pieces left : List (List Char)} {entries : List Entry}
    (hplain : ∀ piece ∈ pieces, '#' ∉ piece ∧ ':' ∉ piece)
    (h : entriesOfPieces text position pieces = .ok entries)
    (hleft : List.Forall₂ Compacts pieces left) :
    entriesOfPieces other place left = .ok entries := by
  induction hleft generalizing position place entries with
  | nil => exact h
  | cons hpiece _ ih =>
    obtain ⟨⟨hhash, hcolon⟩, hothers⟩ := List.forall_mem_cons.1 hplain
    rw [entriesOfPieces] at h
    obtain ⟨entry, hentry, h⟩ := bind_eq_ok_iff.1 h
    obtain ⟨rest, hrest, h⟩ := bind_eq_ok_iff.1 h
    rw [entriesOfPieces]
    exact bind_eq_ok_iff.2 ⟨entry, Entry.ofPiece_of_compacts hhash hcolon hentry hpiece,
      bind_eq_ok_iff.2 ⟨rest, ih hothers hrest, h⟩⟩

/-- Blanks between tokens do not matter: if a text without comments can be read, then what is left
of it when some of its blanks are deleted, or all, is read as the same entries. So it builds to the
same expression or is refused for the same cause, and it rolls in the same way. -/
theorem readEntries_of_compacts {text left : String} {entries : List Entry}
    (hcolon : ':' ∉ text.toList) (hhash : '#' ∉ text.toList)
    (hread : readEntries text = .ok entries) (hleft : Compacts text.toList left.toList) :
    readEntries left = .ok entries ∧ Expression.ofText left = Expression.ofText text ∧
      rollText left = rollText text := by
  have hplain : ∀ piece ∈ pieces ',' text.toList, '#' ∉ piece ∧ ':' ∉ piece := by
    intro piece hpiece
    have hstands := (infix_of_mem_pieces hpiece).subset
    exact ⟨fun hmem => hhash (hstands hmem), fun hmem => hcolon (hstands hmem)⟩
  have hsame : readEntries left = .ok entries :=
    entriesOfPieces_of_compacts hplain hread (hleft.pieces (by decide))
  have hof : Expression.ofText left = Expression.ofText text := by
    rw [Expression.ofText, Expression.ofText, hsame, hread]
  exact ⟨hsame, hof, by rw [rollText, rollText, hof]⟩

/-- Without all of its blanks, a text keeps the keywords and numbers apart that stood between them,
and without some of them it holds the same check. Dice that cannot be rolled are refused for the
same cause. -/
theorem readEntries_of_compacts_keywords :
    let text := " 2 d 6  explode 5 >= 3 , d 4 * ( nb hard 2 - 1 ) "
    let entries : List Entry :=
      [⟨none, .check ⟨some "2", "6", some (.explode, "5")⟩ ">=" "3", none⟩,
        ⟨none, .product (.dice ⟨none, "4", none⟩)
          [(.times, .sum (.nb .hard "2") [(.minus, .integer "1")])], none⟩]
    readEntries "2d6explode5>=3,d4*(nbhard2-1)" = .ok entries ∧
      Expression.ofText "2d6explode5>=3,d4*(nbhard2-1)" = Expression.ofText text ∧
      readEntries "d6 reroll2" = .ok [⟨none, .dice ⟨none, "6", some (.reroll, "2")⟩, none⟩] ∧
      Expression.ofText "d6 reroll2" = Expression.ofText "d 6 reroll 2" ∧
      ∃ error, Expression.ofText "d 6 reroll 2" = .error (.meaningless error) := by
  intro text entries
  have hread : readEntries text = .ok entries := by cbv
  have hall : "2d6explode5>=3,d4*(nbhard2-1)".toList =
      text.toList.filter fun c => !isBlank c := by
    decide
  obtain ⟨hentries, hsame, -⟩ := readEntries_of_compacts (by decide) (by decide) hread
    (hall ▸ Compacts.filter text.toList)
  have hread' : readEntries "d 6 reroll 2" =
      .ok [⟨none, .dice ⟨none, "6", some (.reroll, "2")⟩, none⟩] := by
    rfl
  have hsome : Compacts "d 6 reroll 2".toList "d6 reroll2".toList :=
    .keep 'd' (.delete rfl (.keep '6' (.keep ' ' (.keep 'r' (.keep 'e' (.keep 'r' (.keep 'o'
      (.keep 'l' (.keep 'l' (.delete rfl (.keep '2' .nil)))))))))))
  obtain ⟨hentries', hsame', -⟩ := readEntries_of_compacts (by decide) (by decide) hread' hsome
  exact ⟨hentries, hsame, hentries', hsame', ⟨_, rfl⟩⟩

end DiceNotation
