import DiceNotation.Reading.Entries

/-!
# The parts of an entry

An entry is cut at the first hash, and what stands before the hash is cut at the first colon. The
expression is what stands between the two comments, and its position is the length of what stands
before it.
-/

namespace DiceNotation

open Text

/-- Without a hash and a colon all of an entry is its expression. -/
theorem EntryText.ofPiece_plain {body : List Char} (hhash : '#' ∉ body) (hcolon : ':' ∉ body) :
    EntryText.ofPiece body = ⟨none, body, none, 0⟩ := by
  simp only [EntryText.ofPiece, cutAt_eq_none_iff.2 hhash, cutAt_eq_none_iff.2 hcolon]

/-- A comment in front ends at the first colon. -/
theorem EntryText.ofPiece_before {comment source : List Char} (hne : comment ≠ [])
    (hhash : '#' ∉ comment ++ ':' :: source) (hcolon : ':' ∉ comment) :
    EntryText.ofPiece (comment ++ ':' :: source) =
      ⟨some comment, source, none, byteLength comment + 1⟩ := by
  obtain ⟨c, more, rfl⟩ := List.exists_cons_of_ne_nil hne
  simp only [EntryText.ofPiece, cutAt_eq_none_iff.2 hhash, cutAt_append hcolon source]

/-- A colon in front does not end a comment. -/
theorem EntryText.ofPiece_colon {source : List Char} (hhash : '#' ∉ ':' :: source) :
    EntryText.ofPiece (':' :: source) = ⟨none, ':' :: source, none, 0⟩ := by
  have hcut : cutAt ':' (':' :: source) = some ([], source) := cutAt_append List.not_mem_nil source
  simp only [EntryText.ofPiece, cutAt_eq_none_iff.2 hhash, hcut]

/-- A comment behind starts at the first hash, and the rest is cut as if it were missing. -/
theorem EntryText.ofPiece_after {body : List Char} (hhash : '#' ∉ body) (comment : List Char) :
    EntryText.ofPiece (body ++ '#' :: comment) =
      { EntryText.ofPiece body with after := some comment } := by
  simp only [EntryText.ofPiece, cutAt_eq_none_iff.2 hhash, cutAt_append hhash comment]
  split <;> rfl

/-- Between two comments, the expression starts behind the colon. -/
theorem EntryText.ofPiece_commented {before source : List Char} (hne : before ≠ [])
    (hbefore : '#' ∉ before) (hsource : '#' ∉ source) (hcolon : ':' ∉ before)
    (after : List Char) :
    EntryText.ofPiece ((before ++ ':' :: source) ++ '#' :: after) =
      ⟨some before, source, some after, byteLength before + 1⟩ := by
  have hbody : '#' ∉ before ++ ':' :: source := by
    simp [hbefore, hsource]
  rw [ofPiece_after hbody, ofPiece_before hne hbody hcolon]

/-- An entry as it is made of a comment that ends with the first colon, the text of an expression,
and a comment that starts with the first hash. -/
structure EntryText.Parted (piece opening source closing : List Char) : Prop where
  /-- The parts follow each other. -/
  piece_eq : piece = opening ++ (source ++ closing)
  /-- Only a comment that is not empty ends with the first colon. Without one there is no colon in
  the text of the expression, except for one in front. -/
  opening_cases : (∃ comment, comment ≠ [] ∧ ':' ∉ comment ∧ opening = comment ++ [':']) ∨
    opening = [] ∧ (':' ∈ source → source.head? = some ':')
  /-- A comment behind the expression starts with a hash. -/
  closing_cases : (∃ comment, closing = '#' :: comment) ∨ closing = []
  /-- There is no hash before it. -/
  noHash : '#' ∉ opening ++ source

/-- Without a hash, an entry is cut at the first colon unless the colon stands in front. -/
theorem EntryText.exists_parted_of_not_mem {body : List Char} (hhash : '#' ∉ body) :
    ∃ opening, Parted body opening (ofPiece body).source [] ∧
      (ofPiece body).position = byteLength opening := by
  cases hcut : cutAt ':' body with
  | none =>
    have hcolon := cutAt_eq_none_iff.1 hcut
    rw [ofPiece_plain hhash hcolon]
    exact ⟨[], ⟨(List.append_nil body).symm, .inr ⟨rfl, fun hmem => absurd hmem hcolon⟩, .inr rfl,
      hhash⟩, rfl⟩
  | some cut =>
    obtain ⟨comment, source⟩ := cut
    obtain ⟨hcolon, rfl⟩ := cutAt_eq_some_iff.1 hcut
    cases comment with
    | nil =>
      rw [List.nil_append] at hhash ⊢
      rw [ofPiece_colon hhash]
      exact ⟨[], ⟨(List.append_nil _).symm, .inr ⟨rfl, fun _ => rfl⟩, .inr rfl, hhash⟩, rfl⟩
    | cons c comment =>
      rw [ofPiece_before (List.cons_ne_nil c comment) hhash hcolon]
      refine ⟨c :: comment ++ [':'], ⟨?_, .inl ⟨_, List.cons_ne_nil c comment, hcolon, rfl⟩,
        .inr rfl, ?_⟩, ?_⟩
      · rw [List.append_nil, List.append_assoc, List.singleton_append]
      · rwa [List.append_assoc, List.singleton_append]
      · rw [byteLength_append]
        rfl

/-- An entry is cut into these parts, and the position that is noted for the expression is the one
at which it stands. -/
theorem EntryText.exists_parted (piece : List Char) :
    ∃ opening closing, Parted piece opening (ofPiece piece).source closing ∧
      (ofPiece piece).position = byteLength opening := by
  cases hcut : cutAt '#' piece with
  | none =>
    obtain ⟨opening, hparted, hposition⟩ := exists_parted_of_not_mem (cutAt_eq_none_iff.1 hcut)
    exact ⟨opening, [], hparted, hposition⟩
  | some cut =>
    obtain ⟨body, comment⟩ := cut
    obtain ⟨hhash, rfl⟩ := cutAt_eq_some_iff.1 hcut
    obtain ⟨opening, hparted, hposition⟩ := exists_parted_of_not_mem hhash
    rw [ofPiece_after hhash]
    refine ⟨opening, '#' :: comment,
      ⟨?_, hparted.opening_cases, .inl ⟨comment, rfl⟩, hparted.noHash⟩, hposition⟩
    have hbody_eq := hparted.piece_eq
    rw [List.append_nil] at hbody_eq
    rw [← List.append_assoc, ← hbody_eq]

/-- The expression stands in its entry at the position that is noted for it. -/
theorem EntryText.exists_around (piece : List Char) :
    ∃ front behind, piece = front ++ ((ofPiece piece).source ++ behind) ∧
      (ofPiece piece).position = byteLength front := by
  obtain ⟨opening, closing, hparted, hposition⟩ := exists_parted piece
  exact ⟨opening, closing, hparted.piece_eq, hposition⟩

/-- The text of an expression stands in that of its entry. -/
theorem EntryText.source_infix (piece : List Char) : (ofPiece piece).source <:+: piece := by
  obtain ⟨front, behind, hpiece, -⟩ := exists_around piece
  exact ⟨front, behind, by rw [List.append_assoc, ← hpiece]⟩

/-- A text without a comma is a single piece. -/
theorem readEntries_of_not_mem {text : String} (h : ',' ∉ text.toList) :
    readEntries text = Entry.ofPiece text.toList 0 text.toList >>= fun entry => .ok [entry] := by
  rw [readEntries, pieces_of_not_mem h, entriesOfPieces]
  rfl

end DiceNotation
