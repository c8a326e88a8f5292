/-!
# Cutting a text at a character

A text is cut at the first place where a character stands, or at every such place. Joining the
pieces with that character gives the text back, and no piece before a cut contains it.
-/

namespace DiceNotation.Text

/-- The parts before and after the first place where a character stands, if it stands anywhere. -/
def cutAt (mark : Char) : List Char → Option (List Char × List Char)
  | [] => none
  | c :: text =>
    if c = mark then some ([], text)
    else (cutAt mark text).map fun (before, after) => (c :: before, after)

/-- The pieces between all the places where a character stands; there is always at least one. -/
def pieces (mark : Char) : List Char → List (List Char)
  | [] => [[]]
  | c :: text =>
    if c = mark then [] :: pieces mark text
    else match pieces mark text with
      | [] => [[c]]
      | piece :: rest => (c :: piece) :: rest

/-- A cut is made unless the mark is missing. -/
theorem cutAt_eq_none_iff {mark : Char} {text : List Char} :
    cutAt mark text = none ↔ mark ∉ text := by
  induction text with
  | nil => simp [cutAt]
  | cons c text ih =>
    by_cases hc : c = mark
    · simp [cutAt, hc]
    · simp [cutAt, hc, ih, Ne.symm hc]

/-- There is always a first piece. -/
theorem pieces_ne_nil (mark : Char) (text : List Char) : pieces mark text ≠ [] := by
  cases text with
  | nil => simp [pieces]
  | cons c text =>
    rw [pieces]
    split
    · simp
    · split <;> simp

/-- The first mark of a text is where it is cut. -/
theorem cutAt_append {mark : Char} {front : List Char} (h : mark ∉ front) (behind : List Char) :
    cutAt mark (front ++ mark :: behind) = some (front, behind) := by
  induction front with
  | nil => rw [List.nil_append, cutAt, if_pos rfl]
  | cons c front ih =>
    simp only [List.mem_cons, not_or] at h
    obtain ⟨hc, hfront⟩ := h
    rw [List.cons_append, cutAt, if_neg (Ne.symm hc), ih hfront, Option.map_some]

/-- A text is cut at its first mark, and loses this mark only. -/
theorem cutAt_eq_some_iff {mark : Char} {text before after : List Char} :
    cutAt mark text = some (before, after) ↔ mark ∉ before ∧ text = before ++ mark :: after := by
  constructor
  · intro h
    induction text generalizing before with
    | nil => cases h
    | cons c text ih =>
      rw [cutAt] at h
      split at h
      · rename_i hc
        cases h
        rw [hc]
        exact ⟨List.not_mem_nil, rfl⟩
      · rename_i hc
        obtain ⟨⟨front, behind⟩, hcut, hpair⟩ := Option.map_eq_some_iff.1 h
        cases hpair
        obtain ⟨hfront, rfl⟩ := ih hcut
        rw [List.mem_cons, not_or]
        exact ⟨⟨Ne.symm hc, hfront⟩, rfl⟩
  · rintro ⟨h, rfl⟩
    exact cutAt_append h after

/-- A text without the mark is a single piece. -/
theorem pieces_of_not_mem {mark : Char} {text : List Char} (h : mark ∉ text) :
    pieces mark text = [text] := by
  induction text with
  | nil => rfl
  | cons c text ih =>
    simp only [List.mem_cons, not_or] at h
    obtain ⟨hc, htext⟩ := h
    rw [pieces, if_neg (Ne.symm hc), ih htext]

/-- No piece contains the mark. -/
theorem not_mem_of_mem_pieces {mark : Char} {text piece : List Char}
    (h : piece ∈ pieces mark text) :
    mark ∉ piece := by
  induction text generalizing piece with
  | nil =>
    rw [pieces, List.mem_singleton] at h
    rw [h]
    exact List.not_mem_nil
  | cons c text ih =>
    rw [pieces] at h
    split at h
    · rcases List.mem_cons.1 h with rfl | h
      · exact List.not_mem_nil
      · exact ih h
    · rename_i hc
      split at h
      · rw [List.mem_singleton.1 h, List.mem_singleton]
        exact Ne.symm hc
      · rename_i first rest hpieces
        rcases List.mem_cons.1 h with rfl | h
        · rw [List.mem_cons, not_or]
          exact ⟨Ne.symm hc, ih (by rw [hpieces]; exact List.mem_cons_self)⟩
        · exact ih (by rw [hpieces]; exact List.mem_cons_of_mem _ h)

/-- The pieces on either side of a mark are those of the two parts. -/
theorem pieces_append_cons (mark : Char) (front behind : List Char) :
    pieces mark (front ++ mark :: behind) = pieces mark front ++ pieces mark behind := by
  induction front with
  | nil => simp [pieces]
  | cons c front ih =>
    rw [List.cons_append, pieces, pieces]
    split
    · rw [ih, List.cons_append]
    · obtain ⟨piece, rest, hpieces⟩ := List.exists_cons_of_ne_nil (pieces_ne_nil mark front)
      rw [ih, hpieces, List.cons_append]
      rfl

/-- The first piece ends at the first mark. -/
theorem pieces_append {mark : Char} {front : List Char} (h : mark ∉ front) (behind : List Char) :
    pieces mark (front ++ mark :: behind) = front :: pieces mark behind := by
  rw [pieces_append_cons, pieces_of_not_mem h, List.singleton_append]

/-- The first piece is all of the text, or it stands before the first mark and the other pieces are
those of what stands behind it. -/
theorem cases_of_pieces {mark : Char} {text front : List Char} {rest : List (List Char)}
    (h : pieces mark text = front :: rest) :
    (text = front ∧ rest = []) ∨
      ∃ behind, text = front ++ mark :: behind ∧ pieces mark behind = rest := by
  cases hcut : cutAt mark text with
  | none =>
    rw [pieces_of_not_mem (cutAt_eq_none_iff.1 hcut)] at h
    obtain ⟨hfront, hrest⟩ := List.cons.inj h
    exact .inl ⟨hfront, hrest.symm⟩
  | some cut =>
    obtain ⟨before, after⟩ := cut
    obtain ⟨hbefore, rfl⟩ := cutAt_eq_some_iff.1 hcut
    rw [pieces_append hbefore] at h
    obtain ⟨rfl, hrest⟩ := List.cons.inj h
    exact .inr ⟨after, rfl, hrest⟩

/-- The pieces with a mark behind each of them are the text with a mark behind it. -/
theorem flatMap_pieces (mark : Char) (text : List Char) :
    ((pieces mark text).flatMap fun piece => piece ++ [mark]) = text ++ [mark] := by
  obtain ⟨front, rest, hpieces⟩ := List.exists_cons_of_ne_nil (pieces_ne_nil mark text)
  rw [hpieces, List.flatMap_cons]
  induction rest generalizing text front with
  | nil =>
    rcases cases_of_pieces hpieces with ⟨rfl, -⟩ | ⟨behind, -, hnil⟩
    · rw [List.flatMap_nil, List.append_nil]
    · exact absurd hnil (pieces_ne_nil mark behind)
  | cons next rest ih =>
    rcases cases_of_pieces hpieces with ⟨-, hnil⟩ | ⟨behind, rfl, hbehind⟩
    · cases hnil
    · rw [List.flatMap_cons, ih behind next hbehind, List.append_assoc, List.append_assoc,
        List.singleton_append, List.cons_append]

/-- A piece stands behind those before it and the marks behind them. -/
theorem exists_behind_of_pieces {mark : Char} {text piece : List Char}
    {earlier later : List (List Char)} (h : pieces mark text = earlier ++ piece :: later) :
    ∃ behind, text = (earlier.flatMap fun other => other ++ [mark]) ++ (piece ++ behind) := by
  induction earlier generalizing text with
  | nil =>
    rcases cases_of_pieces h with ⟨rfl, -⟩ | ⟨behind, rfl, -⟩
    · exact ⟨[], (List.append_nil text).symm⟩
    · exact ⟨mark :: behind, rfl⟩
  | cons first earlier ih =>
    rcases cases_of_pieces h with ⟨-, hrest⟩ | ⟨others, rfl, hrest⟩
    · exact absurd hrest
        (List.append_ne_nil_of_right_ne_nil earlier (List.cons_ne_nil piece later))
    · obtain ⟨behind, rfl⟩ := ih hrest
      refine ⟨behind, ?_⟩
      rw [List.flatMap_cons, List.append_assoc, List.append_assoc, List.singleton_append]

/-- Texts without the mark are the pieces of what they make up with marks between them. -/
theorem pieces_flatMap {mark : Char} {front : List Char} {rest : List (List Char)}
    (hfront : mark ∉ front) (hrest : ∀ piece ∈ rest, mark ∉ piece) :
    pieces mark (front ++ rest.flatMap fun piece => mark :: piece) = front :: rest := by
  induction rest generalizing front with
  | nil => rw [List.flatMap_nil, List.append_nil, pieces_of_not_mem hfront]
  | cons piece rest ih =>
    obtain ⟨hpiece, hothers⟩ := List.forall_mem_cons.1 hrest
    rw [List.flatMap_cons, List.cons_append, pieces_append hfront, ih hpiece hothers]

end DiceNotation.Text
