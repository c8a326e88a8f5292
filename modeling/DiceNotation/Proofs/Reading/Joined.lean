import Mathlib
import DiceNotation.Proofs.Fallible
import DiceNotation.Proofs.Reading.Parts
import DiceNotation.Proofs.Reading.Spans

/-!
# Texts joined by a comma

The entries of a text are read one by one, and nothing of the text around an entry matters, except
that positions are counted from its beginning. So two texts that are joined by a comma are read as
their entries together, and what is wrong with one of them is wrong with both, at the same place of
that text.
-/

namespace DiceNotation

open Text

/-- The same error, some bytes later. What is shown of the text around it may differ. -/
structure SyntaxError.MovedBy (distance : Nat) (error moved : SyntaxError) : Prop where
  /-- The same was found, and the same was expected. -/
  description : moved.description = error.description
  /-- The error starts later. -/
  start : moved.start = error.start + distance
  /-- The error stops later. -/
  stop : moved.stop = error.stop + distance

/-- A span within a part of a text is lowered to boundaries as it is in the part by itself. -/
theorem SyntaxError.movedBy_locate (front behind : List Char) {text : List Char}
    {start stop : Nat} (hstart : start ≤ stop) (hstop : stop ≤ byteLength text)
    (description : String) :
    (locate text start stop description).MovedBy (byteLength front)
      (locate (front ++ (text ++ behind)) (byteLength front + start) (byteLength front + stop)
        description) := by
  have hfirst : floorBoundary (front ++ (text ++ behind)) (byteLength front + start) =
      byteLength front + floorBoundary text start :=
    floorBoundary_append front behind (Nat.le_trans hstart hstop)
  have hraised : max stop (floorBoundary text start) ≤ byteLength text :=
    Nat.max_le.2 ⟨hstop, floorBoundary_le_byteLength text start⟩
  refine ⟨rfl, ?_, ?_⟩
  · change floorBoundary _ _ = _
    rw [hfirst, Nat.add_comm]
    rfl
  · change floorBoundary _ (max (byteLength front + stop) (floorBoundary _ _)) = _
    rw [hfirst, Nat.add_max_add_left, floorBoundary_append front behind hraised, Nat.add_comm]
    rfl

/-! ## Entries -/

/-- An expression that cannot be read is refused in the same way wherever it stands, at a span
within it. -/
theorem Entry.refused_cases (source : List Char) :
    (∃ node, Reader.expression.padded.readAll source = .ok node) ∨
      ∃ start stop description, start ≤ stop ∧ stop ≤ byteLength source ∧
        ∀ text position piece, (EntryText.ofPiece piece).source = source →
          Entry.ofPiece text position piece =
            .error (.locate text (position + (EntryText.ofPiece piece).position + start)
              (position + (EntryText.ofPiece piece).position + stop) description) := by
  cases hread : Reader.expression.padded.readAll source with
  | ok node => exact .inl ⟨node, rfl⟩
  | error left =>
    refine .inr ?_
    cases left with
    | none =>
      refine ⟨0, byteLength source, unexplained, Nat.zero_le _, Nat.le_refl _, ?_⟩
      intro text position piece hsource
      simp only [Entry.ofPiece, hsource, hread, Nat.add_zero]
    | some failure =>
      have hwithin := Reader.Confined.expression.padded.within_of_readAll hread
      refine ⟨failure.start, failure.stop, failure.message, hwithin.start_le, hwithin.stop_le, ?_⟩
      intro text position piece hsource
      simp only [Entry.ofPiece, hsource, hread]

/-- A piece of a text is read or refused in the same way wherever it stands, and it is refused at a
span within it. -/
theorem Entry.ofPiece_cases (piece : List Char) :
    (∃ entry, ∀ text position, Entry.ofPiece text position piece = .ok entry) ∨
      ∃ start stop description, start ≤ stop ∧ stop ≤ byteLength piece ∧
        ∀ text position, Entry.ofPiece text position piece =
          .error (.locate text (position + start) (position + stop) description) := by
  rcases Entry.refused_cases (EntryText.ofPiece piece).source with
    ⟨node, hread⟩ | ⟨start, stop, description, hstart, hstop, hrefused⟩
  · refine .inl ⟨⟨(EntryText.ofPiece piece).before.map String.ofList, node,
      (EntryText.ofPiece piece).after.map String.ofList⟩, fun text position => ?_⟩
    simp only [Entry.ofPiece, hread]
  · obtain ⟨front, behind, hpiece, hposition⟩ := EntryText.exists_around piece
    have hlength : (EntryText.ofPiece piece).position +
        byteLength (EntryText.ofPiece piece).source ≤ byteLength piece := by
      have hbytes := congrArg byteLength hpiece
      rw [byteLength_append, byteLength_append, ← hposition] at hbytes
      omega
    refine .inr ⟨(EntryText.ofPiece piece).position + start,
      (EntryText.ofPiece piece).position + stop, description, by omega, by omega, ?_⟩
    intro text position
    rw [hrefused text position piece rfl, Nat.add_assoc, Nat.add_assoc]

/-- The bytes of some pieces and of a comma behind each of them. -/
def spread (pieces : List (List Char)) : Nat := (pieces.map fun piece => byteLength piece + 1).sum

theorem spread_cons (piece : List Char) (pieces : List (List Char)) :
    spread (piece :: pieces) = byteLength piece + 1 + spread pieces := rfl

theorem byteLength_flatMap_comma (pieces : List (List Char)) :
    byteLength (pieces.flatMap fun piece => piece ++ [',']) = spread pieces := by
  induction pieces with
  | nil => rfl
  | cons piece pieces ih =>
    rw [List.flatMap_cons, byteLength_append, byteLength_append, ih, spread_cons]
    rfl

/-- The pieces of a text make up the text and one more comma. -/
theorem spread_pieces (text : List Char) : spread (pieces ',' text) = byteLength text + 1 := by
  rw [← byteLength_flatMap_comma, flatMap_pieces, byteLength_append]
  rfl

/-- Pieces of a text are read or refused in the same way wherever they stand, and they are refused
at a span within them. -/
theorem entriesOfPieces_cases (pieces : List (List Char)) :
    (∃ entries, ∀ text position, entriesOfPieces text position pieces = .ok entries) ∨
      ∃ start stop description, start ≤ stop ∧ stop < spread pieces ∧
        ∀ text position, entriesOfPieces text position pieces =
          .error (.locate text (position + start) (position + stop) description) := by
  induction pieces with
  | nil => exact .inl ⟨[], fun text position => rfl⟩
  | cons piece pieces ih =>
    rw [spread_cons]
    rcases Entry.ofPiece_cases piece with
      ⟨entry, hentry⟩ | ⟨start, stop, description, hstart, hstop, hrefused⟩
    · rcases ih with ⟨entries, hentries⟩ | ⟨start, stop, description, hstart, hstop, hrefused⟩
      · refine .inl ⟨entry :: entries, fun text position => ?_⟩
        simp only [entriesOfPieces, hentry, hentries]
        rfl
      · refine .inr ⟨byteLength piece + 1 + start, byteLength piece + 1 + stop, description,
          by omega, by omega, fun text position => ?_⟩
        simp only [entriesOfPieces, hentry, hrefused, Nat.add_assoc]
        rfl
    · refine .inr ⟨start, stop, description, hstart, by omega, fun text position => ?_⟩
      simp only [entriesOfPieces, hrefused]
      rfl

/-- Pieces that are read in one place are read everywhere, as the same entries. -/
theorem entriesOfPieces_eq_ok {text : List Char} {position : Nat} {pieces : List (List Char)}
    {entries : List Entry} (h : entriesOfPieces text position pieces = .ok entries)
    (other : List Char) (place : Nat) : entriesOfPieces other place pieces = .ok entries := by
  rcases entriesOfPieces_cases pieces with ⟨read, hread⟩ | ⟨_, _, _, -, -, hrefused⟩
  · rw [← h, hread, hread]
  · rw [hrefused] at h
    cases h

/-- A text that is refused is refused as a part of another text too. -/
theorem exists_movedBy {text : List Char} {error : SyntaxError}
    (h : entriesOfPieces text 0 (pieces ',' text) = .error error) (front behind : List Char) :
    ∃ moved, entriesOfPieces (front ++ (text ++ behind)) (byteLength front) (pieces ',' text) =
      .error moved ∧ error.MovedBy (byteLength front) moved := by
  rcases entriesOfPieces_cases (pieces ',' text) with
    ⟨read, hread⟩ | ⟨start, stop, description, hstart, hstop, hrefused⟩
  · rw [hread] at h
    cases h
  · rw [hrefused, Nat.zero_add, Nat.zero_add] at h
    rw [spread_pieces] at hstop
    rw [hrefused, ← Except.error.inj h]
    exact ⟨_, rfl, SyntaxError.movedBy_locate front behind hstart (Nat.le_of_lt_succ hstop) _⟩

/-- Some pieces are read, and then the pieces behind them. -/
theorem entriesOfPieces_append (text : List Char) (position : Nat)
    (first second : List (List Char)) :
    entriesOfPieces text position (first ++ second) =
      entriesOfPieces text position first >>= fun entries =>
        entriesOfPieces text (position + spread first) second >>= fun others =>
          .ok (entries ++ others) := by
  induction first generalizing position with
  | nil =>
    change entriesOfPieces text position second = entriesOfPieces text position second >>= _
    cases entriesOfPieces text position second <;> rfl
  | cons piece first ih =>
    rw [List.cons_append, entriesOfPieces, entriesOfPieces, spread_cons, ih, Nat.add_assoc,
      Nat.add_assoc]
    simp only [bind_assoc]
    rfl

/-! ## Texts -/

theorem toList_joined (a b : String) : (a ++ "," ++ b).toList = a.toList ++ ',' :: b.toList := by
  rw [String.toList_append, String.toList_append, List.append_assoc]
  rfl

/-- A joined text is read from its first part and then from the second. -/
theorem readEntries_append (a b : String) :
    readEntries (a ++ "," ++ b) =
      entriesOfPieces (a.toList ++ ',' :: b.toList) 0 (pieces ',' a.toList) >>= fun entries =>
        entriesOfPieces (a.toList ++ ',' :: b.toList) (byteLength (a.toList ++ [',']))
          (pieces ',' b.toList) >>= fun others => .ok (entries ++ others) := by
  have hlength : byteLength (a.toList ++ [',']) = 0 + spread (pieces ',' a.toList) := by
    rw [byteLength_append, spread_pieces, Nat.zero_add]
    rfl
  rw [readEntries, toList_joined, pieces_append_cons, entriesOfPieces_append, hlength]

/-- A joined text can be read exactly if both parts can. -/
theorem readEntries_append_eq_ok_iff {a b : String} {read : List Entry} :
    readEntries (a ++ "," ++ b) = .ok read ↔
      ∃ entries others, readEntries a = .ok entries ∧ readEntries b = .ok others ∧
        read = entries ++ others := by
  rw [readEntries_append, bind_eq_ok_iff]
  constructor
  · rintro ⟨entries, hentries, h⟩
    obtain ⟨others, hothers, hread⟩ := bind_eq_ok_iff.1 h
    exact ⟨entries, others, entriesOfPieces_eq_ok hentries _ _, entriesOfPieces_eq_ok hothers _ _,
      (Except.ok.inj hread).symm⟩
  · rintro ⟨entries, others, hentries, hothers, rfl⟩
    exact ⟨entries, entriesOfPieces_eq_ok hentries _ _,
      bind_eq_ok_iff.2 ⟨others, entriesOfPieces_eq_ok hothers _ _, rfl⟩⟩

/-- Every text that can be read has an entry. -/
theorem ne_nil_of_readEntries {text : String} {entries : List Entry}
    (h : readEntries text = .ok entries) : entries ≠ [] := by
  obtain ⟨piece, rest, hpieces⟩ := List.exists_cons_of_ne_nil (pieces_ne_nil ',' text.toList)
  rw [readEntries, hpieces, entriesOfPieces] at h
  obtain ⟨entry, -, h⟩ := bind_eq_ok_iff.1 h
  obtain ⟨others, -, h⟩ := bind_eq_ok_iff.1 h
  rw [← pure_eq_ok_iff.1 h]
  exact List.cons_ne_nil _ _

/-- Reading a joined text comes down to reading its parts. If both can be read, the entries of the
second follow those of the first. What is wrong with the first is wrong with the joined text, at the
same place. If the first can be read, what is wrong with the second is wrong with the joined text,
as much later as the first part and the comma are long. -/
theorem readEntries_joined (a b : String) :
    (∀ entries others, readEntries a = .ok entries → readEntries b = .ok others →
      readEntries (a ++ "," ++ b) = .ok (entries ++ others)) ∧
    (∀ error, readEntries a = .error error →
      ∃ moved, readEntries (a ++ "," ++ b) = .error moved ∧ error.MovedBy 0 moved) ∧
    ∀ entries error, readEntries a = .ok entries → readEntries b = .error error →
      ∃ moved, readEntries (a ++ "," ++ b) = .error moved ∧
        error.MovedBy (a.utf8ByteSize + 1) moved := by
  refine ⟨fun entries others ha hb => ?_, fun error ha => ?_, fun entries error ha hb => ?_⟩
  · exact readEntries_append_eq_ok_iff.2 ⟨entries, others, ha, hb, rfl⟩
  · obtain ⟨moved, hmoved, hsame⟩ := exists_movedBy ha [] (',' :: b.toList)
    have hfirst : entriesOfPieces (a.toList ++ ',' :: b.toList) 0 (pieces ',' a.toList) =
        .error moved := hmoved
    exact ⟨moved, by rw [readEntries_append, hfirst]; rfl, hsame⟩
  · obtain ⟨moved, hmoved, hsame⟩ := exists_movedBy hb (a.toList ++ [',']) []
    rw [List.append_nil, List.append_assoc, List.singleton_append] at hmoved
    rw [byteLength_append, byteLength_toList] at hsame
    exact ⟨moved, by rw [readEntries_append, entriesOfPieces_eq_ok ha, hmoved]; rfl, hsame⟩

/-- Two entries with umlauts in their comments, and a text with a second plus. Behind the entries
the plus is refused 17 bytes later. -/
theorem readEntries_joined_umlaut :
    let a := "für: d6, 2 # ü"
    let b := "1 + + 2"
    let entries := [⟨some "für", .dice ⟨none, "6", none⟩, none⟩, ⟨none, .integer "2", some " ü"⟩]
    ∃ error, readEntries a = .ok entries ∧ readEntries b = .error error ∧
      (error.start = 4 ∧ error.stop = 5) ∧
      readEntries (a ++ "," ++ a) = .ok (entries ++ entries) ∧
      (∃ moved, readEntries (b ++ "," ++ a) = .error moved ∧ error.MovedBy 0 moved) ∧
      ∃ moved, readEntries (a ++ "," ++ b) = .error moved ∧ error.MovedBy 17 moved := by
  intro a b entries
  have ha : readEntries a = .ok entries := by cbv
  obtain ⟨error, hb, hstart, hstop⟩ :
      ∃ error, readEntries b = .error error ∧ error.start = 4 ∧ error.stop = 5 :=
    ⟨⟨"found + expected 'd', or 'D'", 4, 5, "+", "1 + + 2\n    ^\n"⟩, by cbv, rfl, rfl⟩
  exact ⟨error, ha, hb, ⟨hstart, hstop⟩, (readEntries_joined a a).1 entries entries ha ha,
    (readEntries_joined b a).2.1 error hb, (readEntries_joined a b).2.2 entries error ha hb⟩

end DiceNotation
