import DiceNotation.Proofs.Reading.Boundaries
import DiceNotation.Proofs.Reading.Joined

/-!
# Positions of syntax errors

The span of a syntax error can be cut out of the text whatever was asked for: both ends are
boundaries of the text, in order, and there is always something to show. The error of a text is that
of the first entry that cannot be read, and its span lies in the text of the expression of this
entry, between the comments.
-/

namespace DiceNotation

open Text

namespace SyntaxError

/-! ## Any span -/

/-- What is shown of a span, given its text and what stands behind it. -/
inductive Excerpt : (shown behind : List Char) → String → Prop where
  /-- The text of the span, if there is any. -/
  | span {shown behind : List Char} (h : shown ≠ []) : Excerpt shown behind (.ofList shown)
  /-- The next character, if the span is empty. -/
  | next (c : Char) (behind : List Char) : Excerpt [] (c :: behind) (.singleton c)
  /-- A note, if there is no next character. -/
  | endOfInput : Excerpt [] [] "end of input"

/-- There is always something to show. -/
theorem Excerpt.ne_empty {shown behind : List Char} {excerpt : String}
    (h : Excerpt shown behind excerpt) : excerpt ≠ "" := by
  cases h with
  | span hshown => exact fun h => hshown (String.ofList_eq_empty_iff.1 h)
  | next c behind => exact String.singleton_ne_empty
  | endOfInput => decide

/-- An error as it is located at two byte positions, which may be any. -/
structure Located (text : List Char) (start stop : Nat) (error : SyntaxError) : Prop where
  /-- The error starts at the greatest boundary not above the first position. -/
  start_isGreatest : IsGreatest {boundary | IsBoundary text boundary ∧ boundary ≤ start} error.start
  /-- It stops at the greatest boundary not above the second one, raised to the start. -/
  stop_isGreatest :
    IsGreatest {boundary | IsBoundary text boundary ∧ boundary ≤ max stop error.start} error.stop
  /-- It does not stop before it starts. -/
  start_le_stop : error.start ≤ error.stop
  /-- It does not stop behind the text. -/
  stop_le : error.stop ≤ byteLength text
  /-- The text can be cut there, and what stands there is shown. -/
  excerpt : ∃ front shown behind, text = front ++ (shown ++ behind) ∧
    byteLength front = error.start ∧ byteLength front + byteLength shown = error.stop ∧
    Excerpt shown behind error.excerpt
  /-- Something is shown. -/
  excerpt_ne : error.excerpt ≠ ""

theorem excerpt_excerptOf {text shown behind : List Char} {start stop : Nat}
    (hslice : slice text start stop = shown)
    (hrest : (splitAtByte text start).2 = shown ++ behind) :
    Excerpt shown behind (excerptOf text start stop) := by
  rw [excerptOf, hslice, hrest]
  cases shown with
  | cons c shown => exact .span (List.cons_ne_nil c shown)
  | nil =>
    cases behind with
    | nil => exact .endOfInput
    | cons c behind => exact .next c behind

theorem located_locate (text : List Char) (start stop : Nat) (description : String) :
    (locate text start stop description).Located text start stop := by
  have hstart := isBoundary_floorBoundary text start
  have hstop := isBoundary_floorBoundary text (max stop (floorBoundary text start))
  have hle : floorBoundary text start ≤ floorBoundary text (max stop (floorBoundary text start)) :=
    hstart.le_floorBoundary (Nat.le_max_right _ _)
  obtain ⟨front, behind, htext, hrest, hfront, hlength⟩ := exists_slice hstart hstop hle
  have hexcerpt : Excerpt _ behind (locate text start stop description).excerpt :=
    excerpt_excerptOf rfl hrest
  exact ⟨isGreatest_floorBoundary text start, isGreatest_floorBoundary text _, hle,
    hstop.le_byteLength, ⟨front, _, behind, htext, hfront, hlength, hexcerpt⟩, hexcerpt.ne_empty⟩

end SyntaxError

/-! ## The first entry that is refused -/

/-- A piece that is read in one place is read everywhere, as the same entry. -/
theorem Entry.ofPiece_eq_ok {text piece : List Char} {position : Nat} {entry : Entry}
    (h : Entry.ofPiece text position piece = .ok entry) (other : List Char) (place : Nat) :
    Entry.ofPiece other place piece = .ok entry := by
  rcases Entry.ofPiece_cases piece with ⟨read, hread⟩ | ⟨_, _, _, -, -, hrefused⟩
  · rw [← h, hread, hread]
  · rw [hrefused] at h
    cases h

/-- If some pieces cannot all be read, those before one of them can be, and the error is that of
this one. -/
theorem exists_refused_of_entriesOfPieces {text : List Char} {position : Nat}
    {pieces : List (List Char)} {error : SyntaxError}
    (h : entriesOfPieces text position pieces = .error error) :
    ∃ read piece rest, pieces = read ++ piece :: rest ∧
      (∀ other ∈ read, ∃ entry, Entry.ofPiece other 0 other = .ok entry) ∧
      Entry.ofPiece text (position + spread read) piece = .error error := by
  induction pieces generalizing position with
  | nil => cases h
  | cons first pieces ih =>
    rw [entriesOfPieces] at h
    rcases bind_eq_error_iff.1 h with hfirst | ⟨entry, hentry, h⟩
    · exact ⟨[], first, pieces, rfl, List.forall_mem_nil _, hfirst⟩
    · rcases bind_eq_error_iff.1 h with hothers | ⟨others, -, h⟩
      · obtain ⟨read, piece, rest, rfl, hread, hpiece⟩ := ih hothers
        refine ⟨first :: read, piece, rest, rfl,
          List.forall_mem_cons.2 ⟨⟨entry, Entry.ofPiece_eq_ok hentry _ _⟩, hread⟩, ?_⟩
        rwa [spread_cons, ← Nat.add_assoc, ← Nat.add_assoc]
      · cases h

/-- An entry that stands in a text is refused as it is by itself, only later, and in the text of its
expression. -/
theorem Entry.refused_of_ofPiece {front piece behind : List Char} {error : SyntaxError}
    (h : Entry.ofPiece (front ++ (piece ++ behind)) (byteLength front) piece = .error error) :
    (∃ own, Entry.ofPiece piece 0 piece = .error own ∧ own.MovedBy (byteLength front) error) ∧
    (∃ start stop, error.Located (front ++ (piece ++ behind)) start stop) ∧
    ∃ opening source closing, EntryText.Parted piece opening source closing ∧
      byteLength (front ++ opening) ≤ error.start ∧ error.start ≤ error.stop ∧
      error.stop ≤ byteLength (front ++ (opening ++ source)) := by
  obtain ⟨opening, closing, hparted, hposition⟩ := EntryText.exists_parted piece
  obtain ⟨source, hsource⟩ : ∃ source, (EntryText.ofPiece piece).source = source := ⟨_, rfl⟩
  rw [hsource] at hparted
  rcases Entry.refused_cases source with
    ⟨node, hnode⟩ | ⟨start, stop, description, hstart, hstop, hrefused⟩
  · simp only [Entry.ofPiece, hsource, hnode] at h
    cases h
  · have hown := hrefused piece 0 piece hsource
    rw [hposition, Nat.zero_add] at hown
    rw [hrefused _ _ _ hsource, hposition, Nat.add_assoc, Nat.add_assoc] at h
    obtain rfl := Except.error.inj h
    have hlength : byteLength opening + stop ≤ byteLength piece := by
      rw [hparted.piece_eq, byteLength_append, byteLength_append]
      omega
    have hmoved := SyntaxError.movedBy_locate front behind
      (Nat.add_le_add_left hstart (byteLength opening)) hlength description
    refine ⟨⟨_, hown, hmoved⟩, ⟨_, _, SyntaxError.located_locate _ _ _ _⟩,
      opening, source, closing, hparted, ?_⟩
    -- The span is that of the expression by itself, moved by all that stands before it.
    have hinner := SyntaxError.located_locate source start stop description
    have hplace := SyntaxError.movedBy_locate (front ++ opening) (closing ++ behind) hstart hstop
      description
    have htext : front ++ opening ++ (source ++ (closing ++ behind)) =
        front ++ (piece ++ behind) := by
      rw [hparted.piece_eq]
      simp only [List.append_assoc]
    rw [htext, byteLength_append, Nat.add_assoc, Nat.add_assoc] at hplace
    rw [hplace.start, hplace.stop, byteLength_append, byteLength_append, byteLength_append]
    have hordered := hinner.start_le_stop
    have hinside := hinner.stop_le
    omega

/-- The error of a text as that of one of its entries. -/
structure SyntaxError.OfEntry (text : String) (error : SyntaxError) (earlier : List (List Char))
    (piece : List Char) : Prop where
  /-- The entry stands behind some others. -/
  pieces_eq : ∃ later, pieces ',' text.toList = earlier ++ piece :: later
  /-- Each of those can be read by itself. -/
  earlier_read : ∀ other ∈ earlier, ∃ entry, readEntries (.ofList other) = .ok [entry]
  /-- The entry is refused in the same way by itself, as much earlier as it stands behind the
  beginning of the text. -/
  refused : ∃ own, readEntries (.ofList piece) = .error own ∧ own.MovedBy (spread earlier) error
  /-- The span lies in the text of the expression of the entry. -/
  within : ∃ front opening source closing behind,
    text.toList = front ++ (piece ++ behind) ∧ byteLength front = spread earlier ∧
    EntryText.Parted piece opening source closing ∧
    byteLength (front ++ opening) ≤ error.start ∧ error.start ≤ error.stop ∧
    error.stop ≤ byteLength (front ++ (opening ++ source))
  /-- The text can be cut at the start of the span. -/
  start_valid : String.Pos.Raw.IsValid text ⟨error.start⟩
  /-- The text can be cut at the stop of the span. -/
  stop_valid : String.Pos.Raw.IsValid text ⟨error.stop⟩

/-- A text that cannot be read is refused for the first entry that cannot be read. -/
theorem exists_ofEntry_of_readEntries {text : String} {error : SyntaxError}
    (h : readEntries text = .error error) : ∃ earlier piece, error.OfEntry text earlier piece := by
  obtain ⟨earlier, piece, later, hpieces, hread, hpiece⟩ := exists_refused_of_entriesOfPieces h
  obtain ⟨behind, htext⟩ := exists_behind_of_pieces hpieces
  have hfront := byteLength_flatMap_comma earlier
  rw [htext, Nat.zero_add, ← hfront] at hpiece
  obtain ⟨⟨own, hown, hmoved⟩, ⟨start, stop, hlocated⟩, opening, source, closing, hparted,
    hwithin⟩ :=
    Entry.refused_of_ofPiece hpiece
  have halone : ∀ other ∈ earlier ++ piece :: later, readEntries (.ofList other) =
      Entry.ofPiece other 0 other >>= fun entry => .ok [entry] := by
    intro other hother
    have hcomma : ',' ∉ (String.ofList other).toList := by
      rw [String.toList_ofList]
      exact not_mem_of_mem_pieces (hpieces ▸ hother)
    rw [readEntries_of_not_mem hcomma, String.toList_ofList]
  rw [← htext] at hlocated
  refine ⟨earlier, piece, ⟨later, hpieces⟩, fun other hother => ?_, ⟨own, ?_, hfront ▸ hmoved⟩,
    ⟨_, opening, source, closing, behind, htext, hfront, hparted, hwithin⟩,
    isBoundary_toList_iff.1 hlocated.start_isGreatest.1.1,
    isBoundary_toList_iff.1 hlocated.stop_isGreatest.1.1⟩
  · obtain ⟨entry, hentry⟩ := hread other hother
    refine ⟨entry, ?_⟩
    rw [halone other (List.mem_append_left _ hother), hentry]
    rfl
  · rw [halone piece (List.mem_append_right _ List.mem_cons_self), hown]
    rfl

/-- Wherever an error is located in a text, its span is put on boundaries of the text, in order, and
something is shown of it. A text that cannot be read has the error of the first entry that cannot be
read, at a span in the text of the expression of this entry, where the text can be cut. -/
theorem syntaxError_located (text : String) :
    (∀ start stop description,
      (SyntaxError.locate text.toList start stop description).Located text.toList start stop) ∧
    ∀ error, readEntries text = .error error → ∃ earlier piece, error.OfEntry text earlier piece :=
  ⟨SyntaxError.located_locate text.toList, fun _ => exists_ofEntry_of_readEntries⟩

/-- The second plus is refused behind two comments with umlauts. A position within the second umlaut
is lowered to its first byte, also for an error that is asked to stop before. -/
theorem syntaxError_located_umlaut :
    let text := "für: d6, ä: 1 + + 2 # ü, )"
    ∃ error, readEntries text = .error error ∧
      (error.start = 18 ∧ error.stop = 19 ∧ error.excerpt = "+") ∧
      (∃ earlier piece, error.OfEntry text earlier piece) ∧
      (SyntaxError.locate text.toList 11 3 "").Located text.toList 11 3 ∧
      (SyntaxError.locate text.toList 11 3 "").excerpt = "ä" := by
  intro text
  obtain ⟨hlocated, hrefused⟩ := syntaxError_located text
  obtain ⟨error, herror, hplace⟩ : ∃ error, readEntries text = .error error ∧
      error.start = 18 ∧ error.stop = 19 ∧ error.excerpt = "+" :=
    ⟨⟨"found + expected 'd', or 'D'", 18, 19, "+",
      "für: d6, ä: 1 + + 2 # ü, )\n                ^\n"⟩,
      by cbv, rfl, rfl, rfl⟩
  exact ⟨error, herror, hplace, hrefused error herror, hlocated 11 3 "", by cbv⟩

end DiceNotation
