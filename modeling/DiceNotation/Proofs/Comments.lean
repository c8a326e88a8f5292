import DiceNotation.Dice.Supply
import DiceNotation.Proofs.EntryRolls
import DiceNotation.Proofs.Notation.Marks
import DiceNotation.Proofs.Reading.Joined

/-!
# Comments

Comments are for the reader of an outcome only. Around a text without marks, a comment in front and
one behind change neither what the text is read as nor what is rolled: the commented text has the
same outcome with the trimmed comments added, or fails as the text does. Only the place of an error
of the grammar is further behind, by the comment in front and its colon.
-/

namespace DiceNotation

open Text Rolling Grammar

/-- What is shown of a comment: nothing if it is blank, and the comment without the blanks around it
if it is not. -/
inductive TrimsTo (comment : String) : Option String → Prop where
  /-- The comment is blank. -/
  | blank (h : ∀ c ∈ comment.toList, isBlank c = true) : TrimsTo comment none
  /-- Something is left of the comment. -/
  | text {trimmed : String} (hne : trimmed ≠ "") (h : Trims comment.toList trimmed.toList) :
    TrimsTo comment (some trimmed)

theorem trimsTo_trimComment (comment : String) : TrimsTo comment (trimComment (some comment)) := by
  have htrims := trims_trimBlanks comment.toList
  rw [trimComment, Option.bind_some]
  cases htrimmed : trimBlanks comment.toList with
  | nil =>
    obtain ⟨front, behind, hfront, hbehind, hcomment⟩ := htrims.around
    rw [htrimmed, List.nil_append] at hcomment
    refine .blank fun c hc => ?_
    rw [hcomment] at hc
    exact (List.mem_append.1 hc).elim (hfront c) (hbehind c)
  | cons c rest =>
    rw [htrimmed] at htrims
    refine .text (fun hnil => ?_) (by rwa [String.toList_ofList])
    have hlist := congrArg String.toList hnil
    rw [String.toList_ofList] at hlist
    exact List.cons_ne_nil c rest hlist

/-! ## Rolling -/

/-- Rolling a text with a single entry is rolling this entry. -/
theorem rollText_of_single {text : String} {entry : Entry} (h : readEntries text = .ok [entry]) :
    rollText text = entry.roll >>= fun outcome => pure (.ofEntries [outcome]) := by
  have hof : Expression.ofText text = entry.build.mapError .meaningless := by
    rw [Expression.ofText, h]
    change (Expression.ofEntries [entry]).mapError _ = _
    rw [Expression.ofEntries, buildEntries]
    cases entry.build <;> rfl
  rw [Entry.build_eq] at hof
  cases hbody : entry.node.build with
  | error cause =>
    rw [hbody] at hof
    rw [rollText, hof, Entry.roll, hbody]
    rfl
  | ok body =>
    rw [hbody] at hof
    have hbare := entry.node.bare_of_build hbody
    rw [rollText_of_ofText hof, Expression.evaluate_withComments, mapError_bind, Entry.roll, hbody]
    change _ = (body.evaluate.mapError RollError.evaluation >>= _) >>= _
    rw [LawfulMonad.bind_assoc, LawfulMonad.bind_assoc]
    -- Both sides evaluate the body, and differ only in what they calculate from its tree.
    refine congrArg (body.evaluate.mapError RollError.evaluation >>= ·) (funext fun tree => ?_)
    change Rolling.ofExcept ((Outcome.of _ _).mapError _) = _
    rw [Outcome.of_withComments hbare]
    cases tree.value <;> rfl

/-- The comments of an entry change nothing about rolling it, except that the outcome has them. -/
theorem Entry.roll_withComments (before after : Option String) (node : Node) :
    (⟨before, node, after⟩ : Entry).roll =
      (⟨none, node, none⟩ : Entry).roll >>= fun outcome =>
        pure { outcome with before := trimComment before, after := trimComment after } := by
  simp only [Entry.roll, LawfulMonad.bind_assoc]
  rfl

/-- Rolling an expression without comments gives an outcome without comments. -/
theorem Entry.comments_of_run {σ : Type} {source : Source σ} {state : σ} {node : Node}
    {outcome : EntryOutcome}
    (h : ((⟨none, node, none⟩ : Entry).roll.run source state).result = .ok outcome) :
    outcome.before = none ∧ outcome.after = none := by
  obtain ⟨body, tree, -, -, value, -, rfl⟩ := Entry.ends_roll_iff.1 (ends_of_run h).1
  exact ⟨rfl, rfl⟩

theorem run_rollText_of_malformed {σ : Type} {text : String} {error : SyntaxError}
    (h : readEntries text = .error error) (source : Source σ) (state : σ) :
    (rollText text).run source state = ⟨.error (.failed (.malformed error)), [], state⟩ := by
  apply run_rollText_of_error
  rw [Expression.ofText, h]
  rfl

/-! ## Reading -/

/-- Between comments, a text without marks is read or refused as it is by itself. -/
theorem readEntries_commented {before text after : String} (hne : before ≠ "")
    (hbefore : ∀ c ∈ before.toList, c ∉ entryMarks) (htext : ∀ c ∈ text.toList, c ∉ entryMarks)
    (hafter : ',' ∉ after.toList) :
    (∃ node, readEntries text = .ok [⟨none, node, none⟩] ∧
      readEntries (before ++ ":" ++ text ++ "#" ++ after) =
        .ok [⟨some before, node, some after⟩]) ∨
    ∃ error moved, readEntries text = .error error ∧
      readEntries (before ++ ":" ++ text ++ "#" ++ after) = .error moved ∧
      error.MovedBy (before.utf8ByteSize + 1) moved := by
  have hfree : ∀ mark ∈ entryMarks, mark ∉ before.toList ∧ mark ∉ text.toList :=
    fun mark hmark => ⟨fun hmem => hbefore mark hmem hmark, fun hmem => htext mark hmem hmark⟩
  obtain ⟨hcomma, hcomma'⟩ := hfree ',' (by decide)
  obtain ⟨hcolon, hcolon'⟩ := hfree ':' (by decide)
  obtain ⟨hhash, hhash'⟩ := hfree '#' (by decide)
  have hlist : (before ++ ":" ++ text ++ "#" ++ after).toList =
      (before.toList ++ ':' :: text.toList) ++ '#' :: after.toList := by
    simp [String.toList_append]
  have hnil : before.toList ≠ [] := fun hnil => hne (String.toList_eq_nil_iff.1 hnil)
  have hplain := EntryText.ofPiece_plain hhash' hcolon'
  have hcommented := EntryText.ofPiece_commented hnil hhash hhash' hcolon after.toList
  have hsingle : ',' ∉ (before ++ ":" ++ text ++ "#" ++ after).toList := by
    simp [hlist, hcomma, hcomma', hafter]
  rw [readEntries_of_not_mem hcomma', readEntries_of_not_mem hsingle, hlist]
  rcases Entry.refused_cases text.toList with
    ⟨node, hread⟩ | ⟨start, stop, description, hstart, hstop, hrefused⟩
  · refine .inl ⟨node, ?_, ?_⟩
    · simp only [Entry.ofPiece, hplain, hread]
      rfl
    · simp only [Entry.ofPiece, hcommented, hread, Option.map_some, String.ofList_toList]
      rfl
  · have hmoved := SyntaxError.movedBy_locate (before.toList ++ [':']) ('#' :: after.toList)
      hstart hstop description
    rw [byteLength_append, byteLength_toList] at hmoved
    refine .inr ⟨_, _, ?_, ?_, hmoved⟩
    · rw [hrefused _ _ _ (by rw [hplain]), hplain]
      simp only [Nat.zero_add]
      rfl
    · rw [hrefused _ _ _ (by rw [hcommented]), hcommented]
      simp only [Nat.zero_add, List.append_assoc, List.cons_append, byteLength_toList]
      rfl

/-- Comments change nothing but what is shown of them. A text without marks that can be read is read
as the same expression between a comment in front and a comment behind. Rolled on any source, it
shows the same dice, leaves the same of the source and has the same notation, trace and value, or
stops for the same reason; the comments of the outcome are those of the text without the blanks
around them, unless they are blank. A text that cannot be read is refused for the same reason,
behind the comment in front. -/
theorem run_rollText_commented {before text after : String} (hne : before ≠ "")
    (hbefore : ∀ c ∈ before.toList, c ∉ entryMarks) (htext : ∀ c ∈ text.toList, c ∉ entryMarks)
    (hafter : ',' ∉ after.toList) {σ : Type} (source : Source σ) (state : σ) :
    let commented := before ++ ":" ++ text ++ "#" ++ after
    (∃ node lead tail, readEntries text = .ok [⟨none, node, none⟩] ∧
      readEntries commented = .ok [⟨some before, node, some after⟩] ∧
      TrimsTo before lead ∧ TrimsTo after tail ∧
      ∃ rolled : Run σ RollError EntryOutcome,
        (rollText text).run source state = rolled.map (fun entry => .ofEntries [entry]) ∧
        (rollText commented).run source state =
          rolled.map (fun entry => .ofEntries [{ entry with before := lead, after := tail }]) ∧
        ∀ entry, rolled.result = .ok entry → entry.before = none ∧ entry.after = none) ∨
    ∃ error moved, readEntries text = .error error ∧ readEntries commented = .error moved ∧
      error.MovedBy (before.utf8ByteSize + 1) moved ∧
      (rollText text).run source state = ⟨.error (.failed (.malformed error)), [], state⟩ ∧
      (rollText commented).run source state =
        ⟨.error (.failed (.malformed moved)), [], state⟩ := by
  intro commented
  rcases readEntries_commented hne hbefore htext hafter with
    ⟨node, hplain, hcommented⟩ | ⟨error, moved, hplain, hcommented, hmoved⟩
  · refine .inl ⟨node, _, _, hplain, hcommented, trimsTo_trimComment before,
      trimsTo_trimComment after, (⟨none, node, none⟩ : Entry).roll.run source state, ?_, ?_,
      fun entry hentry => Entry.comments_of_run hentry⟩
    · rw [rollText_of_single hplain, run_bind_pure]
    · rw [rollText_of_single hcommented, Entry.roll_withComments, LawfulMonad.bind_assoc]
      exact run_bind_pure _ _ source state
  · exact .inr ⟨error, moved, hplain, hcommented, hmoved,
      run_rollText_of_malformed hplain source state,
      run_rollText_of_malformed hcommented source state⟩

/-- A die and a one between comments that look like dice, the second with marks in it. -/
theorem run_rollText_commented_decoys :
    let before := "Würfel 2d6 "
    let text := "d6 + 1"
    let after := " x: # 3d4 "
    (before ≠ "" ∧ (∀ c ∈ before.toList, c ∉ entryMarks) ∧ (∀ c ∈ text.toList, c ∉ entryMarks) ∧
      ',' ∉ after.toList) ∧
    (rollText text).run Supply.source (.listed [4, 2]) =
      ⟨.ok (.ofEntries [⟨none, none, "1d6 + 1", "(**4**) + 1", .number (.integer 5)⟩]),
        [⟨6, 4⟩], .listed [2]⟩ ∧
    ∃ lead tail, TrimsTo before lead ∧ TrimsTo after tail ∧
      (rollText (before ++ ":" ++ text ++ "#" ++ after)).run Supply.source (.listed [4, 2]) =
        ⟨.ok (.ofEntries [⟨lead, tail, "1d6 + 1", "(**4**) + 1", .number (.integer 5)⟩]),
          [⟨6, 4⟩], .listed [2]⟩ := by
  intro before text after
  have hne : before ≠ "" := by decide
  have hbefore : ∀ c ∈ before.toList, c ∉ entryMarks := by decide
  have htext : ∀ c ∈ text.toList, c ∉ entryMarks := by decide
  have hafter : ',' ∉ after.toList := by decide
  have hrun : (rollText "d6 + 1").run Supply.source (.listed [4, 2]) =
      ⟨.ok (.ofEntries [⟨none, none, "1d6 + 1", "(**4**) + 1", .number (.integer 5)⟩]),
        [⟨6, 4⟩], .listed [2]⟩ := by
    rfl
  refine ⟨⟨hne, hbefore, htext, hafter⟩, hrun, ?_⟩
  rcases run_rollText_commented hne hbefore htext hafter Supply.source (.listed [4, 2]) with
    ⟨node, lead, tail, -, -, hlead, htail, ⟨_ | entry, shown, state⟩, hplain, hcommented, -⟩ |
    ⟨error, moved, -, -, -, hplain, -⟩
  · cases hplain.symm.trans hrun
  · have hsame := hplain.symm.trans hrun
    obtain ⟨hentry, rfl, rfl⟩ := Run.mk.inj hsame
    obtain ⟨rfl, -⟩ := List.cons.inj (Outcome.mk.inj (Except.ok.inj hentry)).2.2.2
    exact ⟨lead, tail, hlead, htail, hcommented⟩
  · cases hplain.symm.trans hrun

end DiceNotation
