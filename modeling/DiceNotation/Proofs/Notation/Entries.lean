import DiceNotation.Proofs.Leaves
import DiceNotation.Proofs.Notation.Rebuilding
import DiceNotation.Proofs.Notation.Marks
import DiceNotation.Proofs.Reading.Parts
import DiceNotation.Session

/-!
# The notation of entries

A comment that is trimmed, and that contains no mark which would end it, is read back from between
its marks. So the notation of an entry reads back if that of its expression does, and the notation
of a list of entries reads back entry by entry.
-/

namespace DiceNotation

open Grammar Text

/-- A comment that is not empty, has no blanks around it and contains none of some characters. -/
structure IsComment (marks : List Char) (comment : String) : Prop where
  /-- There is something to read. -/
  ne_nil : comment.toList ≠ []
  /-- There is nothing to trim. -/
  trimmed : trimBlanks comment.toList = comment.toList
  /-- No mark ends the comment early. -/
  clean : ∀ mark ∈ marks, mark ∉ comment.toList

theorem IsComment.trimComment {marks : List Char} {comment : String} {before behind : List Char}
    (h : IsComment marks comment) (hbefore : ∀ c ∈ before, isBlank c = true)
    (hbehind : ∀ c ∈ behind, isBlank c = true) :
    trimComment (some (String.ofList (before ++ (comment.toList ++ behind)))) = some comment := by
  obtain ⟨c, more, hcons⟩ := List.exists_cons_of_ne_nil h.ne_nil
  rw [DiceNotation.trimComment, Option.bind_some, String.toList_ofList,
    trimBlanks_append hbefore hbehind h.trimmed h.ne_nil, hcons]
  dsimp only
  rw [← hcons, String.ofList_toList]

/-- The text in front of an expression with a comment. -/
def opening (before : Option String) : List Char :=
  match before with
  | some comment => comment.toList ++ [' ', ':', ' ']
  | none => []

/-- The text behind an expression with a comment. -/
def closing (after : Option String) : List Char :=
  match after with
  | some comment => [' ', '#', ' '] ++ comment.toList
  | none => []

theorem toList_commentedText (before after : Option String) (text : String) :
    (commentedText before after text).toList =
      opening before ++ (text.toList ++ closing after) := by
  cases before <;> cases after <;>
    simp [commentedText, opening, closing, String.toList_append]

/-- No blank is a mark. -/
theorem not_mem_of_blanks {blanks : List Char} (h : ∀ c ∈ blanks, isBlank c = true) :
    ∀ mark ∈ entryMarks, mark ∉ blanks := by
  intro mark hmark hmem
  have hmarks : ∀ c ∈ entryMarks, isBlank c = false := by decide
  have hblank := h mark hmem
  rw [hmarks mark hmark] at hblank
  exact Bool.false_ne_true hblank

/-- The parts of an entry are a text between blanks and comments, which may have blanks too. -/
structure EntryText.Contains (parts : EntryText) (text : List Char) (before after : Option String) :
    Prop where
  /-- Only blanks stand around the text. -/
  source : ∃ front behind, (∀ c ∈ front, isBlank c = true) ∧ (∀ c ∈ behind, isBlank c = true) ∧
    parts.source = front ++ (text ++ behind)
  /-- The comment before the text. -/
  before : trimComment (parts.before.map String.ofList) = before
  /-- The comment behind the text. -/
  after : trimComment (parts.after.map String.ofList) = after

/-- An expression between blanks, with a comment in front or without one, is cut into its parts. -/
theorem ofPiece_contains_before {lead text behind : List Char} {before : Option String}
    (hlead : ∀ c ∈ lead, isBlank c = true) (hbehind : ∀ c ∈ behind, isBlank c = true)
    (htext : ∀ c ∈ text, c ∉ entryMarks)
    (hbefore : ∀ comment ∈ before, IsComment entryMarks comment) :
    '#' ∉ lead ++ (opening before ++ (text ++ behind)) ∧
      (EntryText.ofPiece (lead ++ (opening before ++ (text ++ behind)))).Contains text before
        none := by
  have hsource : ∀ mark ∈ entryMarks, mark ∉ text ++ behind := by
    intro mark hmark hmem
    rcases List.mem_append.1 hmem with hmem | hmem
    · exact htext mark hmem hmark
    · exact not_mem_of_blanks hbehind mark hmark hmem
  cases before with
  | none =>
    have hbody : ∀ mark ∈ entryMarks, mark ∉ lead ++ (opening none ++ (text ++ behind)) := by
      intro mark hmark hmem
      rcases List.mem_append.1 hmem with hmem | hmem
      · exact not_mem_of_blanks hlead mark hmark hmem
      · exact hsource mark hmark hmem
    rw [EntryText.ofPiece_plain (hbody '#' (by decide)) (hbody ':' (by decide))]
    exact ⟨hbody '#' (by decide), ⟨lead, behind, hlead, hbehind, rfl⟩, rfl, rfl⟩
  | some comment =>
    have hcomment := hbefore comment rfl
    have hfront : ∀ mark ∈ entryMarks, mark ∉ lead ++ (comment.toList ++ " ".toList) := by
      intro mark hmark hmem
      rcases List.mem_append.1 hmem with hmem | hmem
      · exact not_mem_of_blanks hlead mark hmark hmem
      · rcases List.mem_append.1 hmem with hmem | hmem
        · exact hcomment.clean mark hmark hmem
        · exact not_mem_of_blanks isBlank_space mark hmark hmem
    have hsplit : lead ++ (opening (some comment) ++ (text ++ behind)) =
        (lead ++ (comment.toList ++ " ".toList)) ++ ':' :: (" ".toList ++ (text ++ behind)) := by
      simp [opening]
    have hne : lead ++ (comment.toList ++ " ".toList) ≠ [] := by simp
    have hhash : '#' ∉
        (lead ++ (comment.toList ++ " ".toList)) ++ ':' :: (" ".toList ++ (text ++ behind)) := by
      intro hmem
      rcases List.mem_append.1 hmem with hmem | hmem
      · exact hfront '#' (by decide) hmem
      · rcases List.mem_cons.1 hmem with hmem | hmem
        · exact absurd hmem (by decide)
        · rcases List.mem_append.1 hmem with hmem | hmem
          · exact absurd hmem (by decide)
          · exact hsource '#' (by decide) hmem
    rw [hsplit, EntryText.ofPiece_before hne hhash (hfront ':' (by decide))]
    exact ⟨hhash, ⟨" ".toList, behind, isBlank_space, hbehind, rfl⟩,
      hcomment.trimComment hlead isBlank_space, rfl⟩

/-- An expression between blanks is cut from the comments around it. -/
theorem ofPiece_contains {lead : List Char} {text : String} {before after : Option String}
    (hlead : ∀ c ∈ lead, isBlank c = true) (htext : ∀ c ∈ text.toList, c ∉ entryMarks)
    (hbefore : ∀ comment ∈ before, IsComment entryMarks comment)
    (hafter : ∀ comment ∈ after, IsComment [','] comment) :
    (EntryText.ofPiece (lead ++ (commentedText before after text).toList)).Contains text.toList
      before after := by
  rw [toList_commentedText]
  cases after with
  | none => exact (ofPiece_contains_before hlead (List.forall_mem_nil _) htext hbefore).2
  | some comment =>
    obtain ⟨hhash, hcontains⟩ := ofPiece_contains_before hlead isBlank_space htext hbefore
    have hsplit : lead ++ (opening before ++ (text.toList ++ closing (some comment))) =
        (lead ++ (opening before ++ (text.toList ++ " ".toList))) ++
          '#' :: (" ".toList ++ comment.toList) := by
      simp [closing]
    have htrim := (hafter comment rfl).trimComment isBlank_space (List.forall_mem_nil _)
    rw [List.append_nil] at htrim
    rw [hsplit, EntryText.ofPiece_after hhash]
    exact ⟨hcontains.source, hcontains.before, htrim⟩

/-- A derivable text is read as a single entry without comments. -/
theorem readEntries_of_derivableAs {text : String} {node : Node}
    (h : DerivableAs text.toList node) : readEntries text = .ok [⟨none, node, none⟩] := by
  have hclean : ∀ mark ∈ entryMarks, mark ∉ text.toList :=
    fun mark hmark hmem => h.not_mem_entryMarks mark hmem hmark
  rw [readEntries_of_not_mem (hclean ',' (by decide))]
  simp only [Entry.ofPiece, readAll_of_derivableAs h,
    EntryText.ofPiece_plain (hclean '#' (by decide)) (hclean ':' (by decide))]
  rfl

/-- The notation of an entry reads back if that of its expression does. -/
theorem exists_entry {text : String} {outcome : Except BuildError Expression}
    {before after : Option String} {lead : List Char}
    (hbody : ReadsAs .sum text.toList outcome) (hlead : ∀ c ∈ lead, isBlank c = true)
    (hbefore : ∀ comment ∈ before, IsComment entryMarks comment)
    (hafter : ∀ comment ∈ after, IsComment [','] comment) (whole : List Char) (position : Nat) :
    ∃ entry : Entry, Entry.ofPiece whole position
        (lead ++ (commentedText before after text).toList) = .ok entry ∧
      entry.build = outcome >>= fun body => .ok (body.withComments before after) := by
  obtain ⟨tokens, node, hspaced, hnode, hbuild⟩ := hbody
  have hcontains := ofPiece_contains hlead
    (DerivableAs.not_mem_entryMarks ⟨tokens, hspaced, hnode⟩) hbefore hafter
  obtain ⟨⟨front, behind, hfront, hbehind, hsource⟩, hbefore', hafter'⟩ := hcontains
  have hread : Reader.expression.padded.readAll (EntryText.ofPiece
      (lead ++ (commentedText before after text).toList)).source = .ok node := by
    rw [hsource]
    exact readAll_of_derivableAs
      ⟨tokens, (hspaced.append_blanks hbehind).blanks_append hfront, hnode⟩
  simp only [Entry.ofPiece, hread]
  refine ⟨_, rfl, ?_⟩
  rw [Entry.build_eq, hbuild, hbefore', hafter']

/-- The notation of an entry that reads back from between blanks, and contains no comma. -/
def ReadsAsEntry (text : List Char) (outcome : Except BuildError Expression) : Prop :=
  ',' ∉ text ∧ ∀ lead : List Char, (∀ c ∈ lead, isBlank c = true) →
    ∀ (whole : List Char) (position : Nat),
      ∃ entry, Entry.ofPiece whole position (lead ++ text) = .ok entry ∧ entry.build = outcome

theorem not_mem_commentedText {text : String} {before after : Option String}
    (htext : ∀ c ∈ text.toList, c ∉ entryMarks)
    (hbefore : ∀ comment ∈ before, IsComment entryMarks comment)
    (hafter : ∀ comment ∈ after, IsComment [','] comment) :
    ',' ∉ (commentedText before after text).toList := by
  have hopening : ',' ∉ opening before := by
    cases before with
    | none => exact List.not_mem_nil
    | some comment =>
      intro hmem
      rcases List.mem_append.1 hmem with hmem | hmem
      · exact (hbefore comment rfl).clean ',' (by decide) hmem
      · exact absurd hmem (by decide)
  have hclosing : ',' ∉ closing after := by
    cases after with
    | none => exact List.not_mem_nil
    | some comment =>
      intro hmem
      rcases List.mem_append.1 hmem with hmem | hmem
      · exact absurd hmem (by decide)
      · exact (hafter comment rfl).clean ',' (by decide) hmem
  rw [toList_commentedText, List.mem_append, List.mem_append, not_or, not_or]
  exact ⟨hopening, fun hmem => htext ',' hmem (by decide), hclosing⟩

theorem readsAsEntry_withComments {text : String} {outcome : Except BuildError Expression}
    {before after : Option String} (hbody : ReadsAs .sum text.toList outcome)
    (hbefore : ∀ comment ∈ before, IsComment entryMarks comment)
    (hafter : ∀ comment ∈ after, IsComment [','] comment) :
    ReadsAsEntry (commentedText before after text).toList
      (outcome >>= fun body => .ok (body.withComments before after)) := by
  obtain ⟨tokens, node, hspaced, hnode, hbuild⟩ := hbody
  refine ⟨not_mem_commentedText
    (DerivableAs.not_mem_entryMarks ⟨tokens, hspaced, hnode⟩) hbefore hafter, ?_⟩
  intro lead hlead whole position
  exact exists_entry ⟨tokens, node, hspaced, hnode, hbuild⟩ hlead hbefore hafter whole position

/-! ## Whole notations -/

/-- An expression of some kind, possibly with comments around it. -/
inductive Expression.EntryOf (body : Expression → Prop) : Expression → Prop where
  /-- Without comments. -/
  | bare {expression : Expression} (h : body expression) : EntryOf body expression
  /-- With a comment on one side or on both. -/
  | commented {expression : Expression} {before after : Option String} (h : body expression)
    (hb : ∀ comment ∈ before, IsComment [',', ':', '#'] comment)
    (ha : ∀ comment ∈ after, IsComment [','] comment) (hne : before ≠ none ∨ after ≠ none) :
    EntryOf body (.commented expression before after)

/-- An expression of some kind with its comments, or a list of at least two. -/
inductive Expression.NotationOf (body : Expression → Prop) : Expression → Prop where
  /-- A single entry. -/
  | entry {expression : Expression} (h : expression.EntryOf body) : NotationOf body expression
  /-- Several entries. -/
  | list {entries : List Expression} (h : ∀ entry ∈ entries, entry.EntryOf body)
    (htwo : 2 ≤ entries.length) : NotationOf body (.list entries)

/-- An entry is read as its expression rebuilt, if this is true of the expression in it. -/
theorem Expression.EntryOf.readsAsEntry {body : Expression → Prop} {expression : Expression}
    (h : expression.EntryOf body) (hreads : ∀ expression, body expression →
      ReadsAs .sum expression.text.toList expression.rebuild) :
    ReadsAsEntry expression.text.toList expression.rebuild := by
  cases h with
  | bare hbody =>
    have hnone : ∀ comment ∈ (none : Option String), IsComment entryMarks comment := nofun
    have hnone' : ∀ comment ∈ (none : Option String), IsComment [','] comment := nofun
    have hentry := readsAsEntry_withComments (hreads _ hbody) hnone hnone'
    rwa [show (expression.rebuild >>= fun body => .ok (body.withComments none none)) =
      expression.rebuild from bind_pure _] at hentry
  | @commented expression before after hbody hbefore hafter hne =>
    have hentry := readsAsEntry_withComments (hreads _ hbody) hbefore hafter
    have hcomments : ∀ body : Expression,
        body.withComments before after = .commented body before after := by
      intro body
      rw [Expression.withComments]
      rintro rfl rfl
      exact hne.elim (fun hbefore => hbefore rfl) (fun hafter => hafter rfl)
    simp only [hcomments] at hentry
    exact hentry

/-- The entries behind commas are read one after another. -/
theorem exists_entries {entries : List Expression}
    (h : ∀ entry ∈ entries, ReadsAsEntry entry.text.toList entry.rebuild) (whole : List Char)
    (position : Nat) :
    ∃ read, entriesOfPieces whole position
        (entries.map fun entry => "  ".toList ++ entry.text.toList) = .ok read ∧
      buildEntries read = Expression.rebuildAll entries := by
  induction entries generalizing position with
  | nil => exact ⟨[], rfl, rfl⟩
  | cons entry entries ih =>
    obtain ⟨hentry, hentries⟩ := List.forall_mem_cons.1 h
    obtain ⟨first, hfirst, hbuild⟩ := hentry.2 "  ".toList (by decide) whole position
    obtain ⟨rest, hrest, hbuilds⟩ := ih hentries
      (position + byteLength ("  ".toList ++ entry.text.toList) + 1)
    refine ⟨first :: rest, ?_, ?_⟩
    · rw [List.map_cons, entriesOfPieces, hfirst]
      change (entriesOfPieces _ _ _ >>= _) = _
      rw [hrest]
      rfl
    · rw [buildEntries, hbuild, hbuilds, Expression.rebuildAll]

/-- The pieces of the notation of a list are its entries. -/
theorem pieces_list {first : Expression} {rest : List Expression}
    (hfirst : ',' ∉ first.text.toList) (hrest : ∀ entry ∈ rest, ',' ∉ entry.text.toList) :
    pieces ',' (Expression.list (first :: rest)).text.toList =
      first.text.toList :: rest.map fun entry => "  ".toList ++ entry.text.toList := by
  have hpieces : ∀ piece ∈ rest.map fun entry => "  ".toList ++ entry.text.toList, ',' ∉ piece := by
    refine List.forall_mem_map.2 fun entry hentry hmem => ?_
    rcases List.mem_append.1 hmem with hmem | hmem
    · exact absurd hmem (by decide)
    · exact hrest entry hentry hmem
  rw [← pieces_flatMap hfirst hpieces, Expression.text, Expression.texts_eq_map, List.map_cons,
    toList_intercalate_cons, List.flatMap_map, List.flatMap_map]
  rfl

theorem rebuildAll_length {operands rebuilt : List Expression}
    (h : Expression.rebuildAll operands = .ok rebuilt) : rebuilt.length = operands.length := by
  induction operands generalizing rebuilt with
  | nil =>
    cases h
    rfl
  | cons operand operands ih =>
    rw [Expression.rebuildAll] at h
    obtain ⟨first, -, h⟩ := bind_eq_ok_iff.1 h
    obtain ⟨others, hothers, h⟩ := bind_eq_ok_iff.1 h
    rw [← pure_eq_ok_iff.1 h, List.length_cons, List.length_cons, ih hothers]

/-- What the notation of an expression is read as is the expression rebuilt, if this is true of the
expressions between its comments. -/
theorem Expression.NotationOf.ofText_eq {body : Expression → Prop} {expression : Expression}
    (h : expression.NotationOf body) (hreads : ∀ expression, body expression →
      ReadsAs .sum expression.text.toList expression.rebuild) :
    Expression.ofText expression.text = expression.rebuild.mapError .meaningless := by
  cases h with
  | entry hentry =>
    obtain ⟨hcomma, hread⟩ := hentry.readsAsEntry hreads
    obtain ⟨entry, hentry, hbuild⟩ := hread [] (List.forall_mem_nil _) expression.text.toList 0
    rw [List.nil_append] at hentry
    have hentries : readEntries expression.text = .ok [entry] := by
      rw [readEntries_of_not_mem hcomma, hentry]
      rfl
    rw [Expression.ofText, hentries]
    change (Expression.ofEntries [entry]).mapError RollError.meaningless = _
    rw [Expression.ofEntries, buildEntries, hbuild]
    cases expression.rebuild <;> rfl
  | @list entries hentries htwo =>
    have hread := fun entry hentry => (hentries entry hentry).readsAsEntry hreads
    cases entries with
    | nil => exact absurd htwo (by decide)
    | cons first rest =>
      obtain ⟨hfirst, hrest⟩ := List.forall_mem_cons.1 hread
      have hpieces := pieces_list hfirst.1 fun entry hentry => (hrest entry hentry).1
      obtain ⟨head, hhead, hbuild⟩ := hfirst.2 [] (List.forall_mem_nil _)
        (Expression.list (first :: rest)).text.toList 0
      rw [List.nil_append] at hhead
      obtain ⟨others, hothers, hbuilds⟩ := exists_entries hrest
        (Expression.list (first :: rest)).text.toList (0 + byteLength first.text.toList + 1)
      have hentries :
          readEntries (Expression.list (first :: rest)).text = .ok (head :: others) := by
        rw [readEntries, hpieces, entriesOfPieces, hhead]
        change (entriesOfPieces _ _ _ >>= _) = _
        rw [hothers]
        rfl
      have hexpressions :
          buildEntries (head :: others) = Expression.rebuildAll (first :: rest) := by
        rw [buildEntries, hbuild, hbuilds, Expression.rebuildAll]
      rw [Expression.ofText, hentries]
      change (Expression.ofEntries (head :: others)).mapError RollError.meaningless = _
      rw [Expression.ofEntries, hexpressions, Expression.rebuild]
      cases hrebuilt : Expression.rebuildAll (first :: rest) with
      | error cause => rfl
      | ok rebuilt =>
        have hlength := rebuildAll_length hrebuilt
        -- Only a single entry would stand by itself.
        rcases rebuilt with _ | ⟨single, _ | ⟨second, others⟩⟩
        · exact absurd hlength (by simp)
        · exact absurd (hlength.symm ▸ htwo) (by simp)
        · rfl

end DiceNotation
