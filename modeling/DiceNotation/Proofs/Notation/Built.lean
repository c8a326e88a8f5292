import DiceNotation.Proofs.Canonical
import DiceNotation.Proofs.ExactValue
import DiceNotation.Proofs.Grammar.Recognition
import DiceNotation.Proofs.Leaves
import DiceNotation.Proofs.Notation.Decimals
import DiceNotation.Proofs.Notation.Entries

/-!
# What building makes

Every expression that is built from a text has a certain shape. Its decimal numbers are finite, its
dice can be expressed by notation, a sum or product has at least two operands and no number among
them that changes nothing, and its comments read back from between their marks.
-/

namespace DiceNotation

open Decimal Grammar Text

/-! ## Dice -/

theorem ofDigitChars_pos {digits : List Char} (h : IsPositive digits) :
    0 < Nat.ofDigitChars 10 digits 0 := by
  cases digits with
  | nil => exact h.elim
  | cons first more =>
    obtain ⟨hdigit, hzero, -⟩ := h
    have hfirst : 0 < first.toNat - '0'.toNat := by
      have hcode : first.toNat ≠ '0'.toNat := fun heq => hzero (Char.toNat_inj.1 heq)
      simp only [Char.isDigit, Bool.and_eq_true, decide_eq_true_eq] at hdigit
      have hlow : '0'.toNat ≤ first.toNat := UInt32.le_iff_toNat_le.1 hdigit.1
      omega
    rw [Nat.ofDigitChars_cons, Nat.ofDigitChars_eq_ofDigitChars_zero]
    have hpower : 0 < 10 ^ more.length := Nat.pow_pos (by decide)
    have hproduct := Nat.mul_pos hpower (Nat.lt_of_lt_of_le hfirst (Nat.le_add_left _ (10 * 0)))
    omega

/-- Digits without a zero in front stand for a positive integer. -/
theorem literal_pos {digits : Token} (h : IsPositive digits) :
    0 < literal (String.ofList digits) := by
  have hread : readSigned digits = some (Nat.ofDigitChars 10 digits 0 : Int) := by
    rw [readSigned]
    · rw [readDigits_of_isDigit h.ne_nil h.all_isDigit, Option.map_some]
      rfl
    · exact ne_cons_of_isDigit h.all_isDigit rfl
    · exact ne_cons_of_isDigit h.all_isDigit rfl
  rw [literal, String.toList_ofList, hread, Option.getD_some]
  exact Int.natCast_pos.2 (ofDigitChars_pos h)

theorem eq_of_bind_ofNat {read : Option Nat} {n : UInt32}
    (h : (read.bind fun n => if n < Nat.pow 2 32 then some (UInt32.ofNat n) else none) = some n) :
    read = some n.toNat := by
  obtain ⟨value, hvalue, hsmall⟩ := Option.bind_eq_some_iff.1 h
  split at hsmall
  · rename_i hlt
    cases hsmall
    rw [hvalue, UInt32.toNat_ofNat_of_lt' hlt]
  · cases hsmall

/-- A count is the integer that its text stands for. -/
theorem literal_of_readUInt32 {text : String} {n : UInt32}
    (h : readUInt32 text.toList = some n) : literal text = n.toNat := by
  have hsigned : readSigned text.toList = some (n.toNat : Int) := by
    unfold readUInt32 at h
    have hdigits := eq_of_bind_ofNat h
    unfold readSigned
    split at hdigits
    · rename_i rest htext
      rw [htext]
      exact congrArg (Option.map Int.ofNat) hdigits
    · rename_i hplus
      split
      · rename_i rest htext
        exact absurd htext (hplus rest)
      · rename_i rest htext
        -- A minus sign is no digit, so no count has one in front.
        rw [htext, readDigits, if_neg (by simp)] at hdigits
        cases hdigits
      · rw [hdigits]
        rfl
  rw [literal, hsigned, Option.getD_some]

/-- A count with a positive text is not zero. -/
theorem count_pos {text : String} {n : UInt32} (h : readUInt32 text.toList = some n)
    (hpos : 0 < literal text) : 0 < n := by
  rw [literal_of_readUInt32 h] at hpos
  exact UInt32.lt_iff_toNat_lt.2 (Int.natCast_pos.1 hpos)

/-- Written dice of which all numbers are positive. -/
structure WrittenDice.Positive (written : WrittenDice) : Prop where
  /-- The number of dice is positive, if it is written. -/
  count : ∀ text, written.count = some text → 0 < literal text
  /-- The number of sides is positive. -/
  sides : 0 < literal written.sides
  /-- The argument of the modifier is positive, if there is one. -/
  argument : ∀ word text, written.modifier = some (word, text) → 0 < literal text

/-- Dice that can be rolled can be expressed if they are denoted by positive numbers. -/
theorem WrittenDice.Positive.expressible {written : WrittenDice} {dice : Dice}
    (h : written.Positive) (hdenotes : written.Denotes dice) (hvalid : dice.validate = .ok ()) :
    dice.Expressible := by
  refine ⟨?_, count_pos hdenotes.sides h.sides, fun modifier hmodifier => ?_, hvalid⟩
  · have hcount := hdenotes.count
    cases hwritten : written.count with
    | none =>
      rw [hwritten] at hcount
      rw [hcount]
      decide
    | some text =>
      rw [hwritten] at hcount
      exact count_pos hcount (h.count text hwritten)
  · have hargument := hdenotes.modifier
    cases hwritten : written.modifier with
    | none =>
      rw [hwritten, Option.mem_def.1 hmodifier] at hargument
      cases hargument
    | some pair =>
      obtain ⟨word, text⟩ := pair
      rw [hwritten] at hargument
      obtain ⟨argument, hread, hsome⟩ := hargument
      cases hsome.symm.trans hmodifier
      have hpos := count_pos hread (h.argument word text hwritten)
      cases word <;> exact ⟨hpos, rfl⟩

/-- A written leaf of which all numbers are positive, but for the threshold of a check. -/
def Node.Positive : Node → Prop
  | dice written => written.Positive
  | check written _ _ => written.Positive
  | nb _ count => 0 < literal count
  | _ => True

/-- A leaf that can be rolled can be expressed if it is denoted by positive numbers. -/
theorem Node.Positive.expressible {written : Node} {leaf : Leaf} (h : written.Positive)
    (hdenotes : written.Denotes leaf) (hvalid : leaf.set.validate = .ok ()) :
    leaf.set.Expressible := by
  cases hdenotes with
  | dice hset => exact WrittenDice.Positive.expressible h hset hvalid
  | check hset => exact WrittenDice.Positive.expressible h hset hvalid
  | nb hcount =>
    have hsides : (0 : UInt32) < 6 := by decide
    exact ⟨count_pos hcount h, hsides, nofun, hvalid⟩

/-- A derivation writes dice with positive numbers only. -/
theorem positive_of_derivesDice {tokens : List Token} {written : WrittenDice}
    (h : DerivesDice tokens written) : written.Positive := by
  cases h with
  | roll hcount _ hsides hmodifier =>
    refine ⟨fun text htext => ?_, literal_pos hsides, fun word text htext => ?_⟩
    · cases hcount with
      | missing => cases htext
      | written hdigits =>
        cases htext
        exact literal_pos hdigits
    · cases hmodifier with
      | missing => cases htext
      | written kind hdigits =>
        cases htext
        exact literal_pos hdigits

/-- The leaves that a derivation writes have positive numbers only. -/
theorem positive_of_derives {lvl : Level} {tokens : List Token} {node : Node}
    (h : Derives lvl tokens node) : ∀ leaf ∈ node.leaves, leaf.Positive := by
  induction h with
  | integer => exact List.forall_mem_nil _
  | decimal => exact List.forall_mem_nil _
  | dice hdice => exact List.forall_mem_singleton.2 (positive_of_derivesDice hdice)
  | check hdice => exact List.forall_mem_singleton.2 (positive_of_derivesDice hdice)
  | nb difficulty hcount => exact List.forall_mem_singleton.2 (literal_pos hcount)
  | power _ _ _ ihfirst ihrest =>
    rw [Node.leaves, Node.leavesOfAll_eq, List.flatMap_cons, List.forall_mem_append,
      List.flatMap_map, List.forall_mem_flatMap]
    exact ⟨ihfirst, ihrest⟩
  | product _ _ _ ihfirst ihrest =>
    rw [Node.leaves, Node.leavesOfFactors_eq, List.forall_mem_append, List.flatMap_map,
      List.forall_mem_flatMap]
    exact ⟨ihfirst, ihrest⟩
  | sum _ _ _ ihfirst ihrest =>
    rw [Node.leaves, Node.leavesOfTerms_eq, List.forall_mem_append, List.flatMap_map,
      List.forall_mem_flatMap]
    exact ⟨ihfirst, ihrest⟩
  | negated _ ih => exact ih
  | parentheses _ ih => exact ih
  | plain _ ih => exact ih
  | base _ ih => exact ih
  | factor _ ih => exact ih
  | term _ ih => exact ih

/-! ## Expressions -/

/-- At least two operands, and no number among them that changes nothing. -/
structure Chain.Effective (chain : Chain) (operands : List Expression) : Prop where
  /-- There are at least two operands. -/
  two : 2 ≤ operands.length
  /-- Every number among the operands changes something. -/
  changes : ∀ x, .number x ∈ operands → (x == chain.identity) = false

/-- Expressions as building makes them. -/
abbrev Expression.Built : Expression → Prop :=
  Expression.Shaped Number.IsFinite Chain.Effective

namespace Expression

/-- In the form that building gives, every number among the operands changes something. -/
theorem Formed.effective {chain : Chain} {operands : List Expression}
    (h : (chain.toExpression operands).Formed) : chain.Effective operands := by
  cases chain with
  | sum => exact ⟨h.1, fun _ hx => h.2.changes hx⟩
  | product =>
    obtain ⟨htwo, hsettled | ⟨body, rfl, hnone⟩⟩ := h
    · exact ⟨htwo, fun _ hx => hsettled.changes hx⟩
    · refine ⟨htwo, fun x hx => ?_⟩
      rcases List.mem_cons.1 hx with hx | hx
      · cases hx
        rfl
      · rw [← List.mem_singleton.1 hx] at hnone
        cases hnone

/-- The form of what is built is the usual shape, if notation can express the leaves. -/
theorem Canonical.built {expression : Expression} (h : expression.Canonical)
    (hleaves : ∀ leaf ∈ expression.leaves, leaf.set.Expressible) : expression.Built := by
  induction expression using Expression.chain_induction with
  | number x => exact .number (h _ (List.mem_singleton_self _))
  | dice set => exact .dice (hleaves (.dice set) (List.mem_singleton_self _))
  | check set => exact .check (hleaves (.check set) (List.mem_singleton_self _))
  | chain chain operands ih =>
    obtain ⟨hform, hoperands⟩ := Canonical.chain_iff.1 h
    rw [leaves_toExpression, List.forall_mem_flatMap] at hleaves
    exact .chain chain hform.effective fun operand hmem =>
      ih operand hmem (hoperands operand hmem) (hleaves operand hmem)
  | power base exponent hbase hexponent =>
    obtain ⟨hnone, hleft, hright⟩ := Canonical.power_iff.1 h
    obtain ⟨hbases, hexponents⟩ := List.forall_mem_append.1 hleaves
    exact .power hnone (hbase hleft hbases) (hexponent hright hexponents)
  | list entries => exact (h _ List.mem_cons_self).elim
  | commented body before after => exact (h _ List.mem_cons_self).elim

end Expression

/-- What a written expression is built into has the usual shape, if the numbers of its leaves are
positive. -/
theorem Node.built_of_build {node : Node} {expression : Expression}
    (h : node.build = .ok expression) (hpos : ∀ leaf ∈ node.leaves, leaf.Positive) :
    expression.Built := by
  refine (node.canonical_of_build h).built fun leaf hleaf => ?_
  obtain ⟨written, hwritten, -, hdenotes⟩ :=
    exists_of_forall₂_of_mem (node.becomes_leaves h).flip hleaf
  exact (hpos written hwritten).expressible hdenotes (node.validate_of_build h leaf hleaf)

/-! ## Entries -/

/-- A comment that was trimmed reads back, if no mark in it ended it. -/
theorem isComment_of_trimComment {marks : List Char} {raw : Option (List Char)} {comment : String}
    (hclean : ∀ text ∈ raw, ∀ mark ∈ marks, mark ∉ text)
    (h : trimComment (raw.map String.ofList) = some comment) : IsComment marks comment := by
  cases raw with
  | none => cases h
  | some text =>
    rw [trimComment, Option.map_some, Option.bind_some, String.toList_ofList] at h
    split at h
    · cases h
    · rename_i htrimmed
      cases h
      refine ⟨?_, ?_, fun mark hmark hmem => ?_⟩
      · rw [String.toList_ofList]
        exact htrimmed
      · rw [String.toList_ofList, trimBlanks_trimBlanks]
      · rw [String.toList_ofList] at hmem
        exact hclean text rfl mark hmark (mem_of_mem_trimBlanks hmem)

/-- Without a hash there is no comment behind, and the one before is free of marks. -/
theorem clean_ofPiece_before {body : List Char} (hhash : '#' ∉ body) (hcomma : ',' ∉ body) :
    (EntryText.ofPiece body).after = none ∧
      ∀ comment ∈ (EntryText.ofPiece body).before, ∀ mark ∈ entryMarks, mark ∉ comment := by
  simp only [EntryText.ofPiece, cutAt_eq_none_iff.2 hhash]
  split
  · rename_i c rest source hcut
    refine ⟨rfl, ?_⟩
    rintro _ ⟨⟩ mark hmark hmem
    obtain ⟨hcolon, hbody⟩ := cutAt_eq_some_iff.1 hcut
    have hinside : mark ∈ body := by
      rw [hbody]
      exact List.mem_append_left _ hmem
    simp only [entryMarks, List.mem_cons, List.not_mem_nil, or_false] at hmark
    rcases hmark with rfl | rfl | rfl
    · exact hcomma hinside
    · exact hcolon hmem
    · exact hhash hinside
  · exact ⟨rfl, by rintro _ ⟨⟩⟩

/-- The comments of an entry contain no mark that would end them. -/
theorem clean_ofPiece {piece : List Char} (h : ',' ∉ piece) :
    (∀ comment ∈ (EntryText.ofPiece piece).before, ∀ mark ∈ entryMarks, mark ∉ comment) ∧
      ∀ comment ∈ (EntryText.ofPiece piece).after, ∀ mark ∈ [','], mark ∉ comment := by
  cases hcut : cutAt '#' piece with
  | none =>
    obtain ⟨hafter, hbefore⟩ := clean_ofPiece_before (cutAt_eq_none_iff.1 hcut) h
    rw [hafter]
    exact ⟨hbefore, by rintro _ ⟨⟩⟩
  | some cut =>
    obtain ⟨body, comment⟩ := cut
    obtain ⟨hhash, rfl⟩ := cutAt_eq_some_iff.1 hcut
    rw [List.mem_append, List.mem_cons, not_or, not_or] at h
    rw [EntryText.ofPiece_after hhash]
    refine ⟨(clean_ofPiece_before hhash h.1).2, ?_⟩
    rintro _ ⟨⟩ mark hmark
    rw [List.mem_singleton.1 hmark]
    exact h.2.2

/-- What an entry of a text is built into. -/
theorem entryOf_of_ofPiece {whole piece : List Char} {position : Nat} {entry : Entry}
    {expression : Expression} (hcomma : ',' ∉ piece)
    (hentry : Entry.ofPiece whole position piece = .ok entry)
    (h : entry.build = .ok expression) : expression.EntryOf Expression.Built := by
  obtain ⟨hbefore, hafter⟩ := clean_ofPiece hcomma
  rw [Entry.ofPiece] at hentry
  split at hentry
  · rename_i node hread
    cases hentry
    obtain ⟨body, hbody, rfl⟩ := Entry.exists_of_build h
    obtain ⟨tokens, -, hnode⟩ := derivableAs_of_readAll hread
    have hbuilt := Node.built_of_build hbody (positive_of_derives hnode)
    rw [Expression.withComments.eq_def]
    split
    · exact .bare hbuilt
    · rename_i before after hcomments
      refine .commented hbuilt (fun comment hcomment => isComment_of_trimComment hbefore hcomment)
        (fun comment hcomment => isComment_of_trimComment hafter hcomment) ?_
      by_contra hnone
      rw [not_or, not_not, not_not] at hnone
      exact hcomments hnone.1 hnone.2
  all_goals cases hentry

/-- The entries of pieces are built from these, one from each. -/
theorem entriesOf_of_pieces {whole : List Char} {pieces : List (List Char)} {position : Nat}
    {entries : List Entry} {expressions : List Expression} (hcomma : ∀ piece ∈ pieces, ',' ∉ piece)
    (hentries : entriesOfPieces whole position pieces = .ok entries)
    (h : buildEntries entries = .ok expressions) :
    (∀ expression ∈ expressions, expression.EntryOf Expression.Built) ∧
      expressions.length = pieces.length := by
  induction pieces generalizing position entries expressions with
  | nil =>
    cases hentries
    cases h
    exact ⟨List.forall_mem_nil _, rfl⟩
  | cons piece pieces ih =>
    obtain ⟨hpiece, hpieces⟩ := List.forall_mem_cons.1 hcomma
    rw [entriesOfPieces] at hentries
    obtain ⟨entry, hentry, hentries⟩ := bind_eq_ok_iff.1 hentries
    obtain ⟨others, hothers, hentries⟩ := bind_eq_ok_iff.1 hentries
    rw [← pure_eq_ok_iff.1 hentries, buildEntries] at h
    obtain ⟨expression, hexpression, h⟩ := bind_eq_ok_iff.1 h
    obtain ⟨rest, hrest, h⟩ := bind_eq_ok_iff.1 h
    obtain ⟨hbuilt, hlength⟩ := ih hpieces hothers hrest
    rw [← pure_eq_ok_iff.1 h, List.length_cons, List.length_cons, hlength]
    exact ⟨List.forall_mem_cons.2 ⟨entryOf_of_ofPiece hpiece hentry hexpression, hbuilt⟩, rfl⟩

/-- Every expression of a text has the usual shape. -/
theorem notationOf_of_ofText {text : String} {expression : Expression}
    (h : Expression.ofText text = .ok expression) : expression.NotationOf Expression.Built := by
  rw [Expression.ofText] at h
  obtain ⟨entries, hentries, h⟩ := bind_eq_ok_iff.1 h
  have hpieces := mapError_eq_ok_iff.1 hentries
  obtain ⟨expressions, hbuild, h⟩ := bind_eq_ok_iff.1 (mapError_eq_ok_iff.1 h)
  obtain ⟨hbuilt, hlength⟩ := entriesOf_of_pieces (fun _ => not_mem_of_mem_pieces) hpieces hbuild
  have hne := List.length_pos_of_ne_nil (pieces_ne_nil ',' text.toList)
  rcases expressions with _ | ⟨first, _ | ⟨second, rest⟩⟩
  · exact absurd hlength (by rw [List.length_nil]; omega)
  · cases h
    exact .entry (hbuilt _ (List.mem_singleton_self _))
  · cases h
    exact .list hbuilt (by simp)

end DiceNotation
