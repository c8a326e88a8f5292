import DiceNotation.Proofs.Notation.Entries
import DiceNotation.Proofs.Notation.Flat

/-!
# Reading undoes writing

The notation of a flat expression, with comments around it or in a list of several, is read and
built into the same expression again.
-/

namespace DiceNotation

open Grammar Text

/-- A flat expression with its comments, or a list of at least two. -/
abbrev Expression.FlatNormal (allowed : Number → Prop) : Expression → Prop :=
  Expression.NotationOf (Expression.Flat allowed)

/-- Expressions between comments that are rebuilt as themselves are so with the comments too. -/
theorem Expression.NotationOf.rebuild {body : Expression → Prop} {expression : Expression}
    (h : expression.NotationOf body)
    (hbody : ∀ expression, body expression → expression.rebuild = .ok expression) :
    expression.rebuild = .ok expression := by
  have hentry : ∀ entry : Expression, entry.EntryOf body → entry.rebuild = .ok entry := by
    intro entry hentry
    cases hentry with
    | bare h => exact hbody _ h
    | commented h =>
      rw [Expression.rebuild, hbody _ h]
      rfl
  cases h with
  | entry h => exact hentry _ h
  | list hentries =>
    rw [Expression.rebuild, rebuildAll_eq_self fun entry h => hentry entry (hentries entry h)]
    rfl

/-- The notation of a flat expression, with comments or in a list, reads back. -/
theorem Expression.FlatNormal.ofText_eq_ok {allowed : Number → Prop} {expression : Expression}
    (h : expression.FlatNormal allowed)
    (hnumber : ∀ x, allowed x → ReadsAs .negation x.text.toList (.ok (.number x)))
    (hcombine : ∀ (chain : Chain) x, allowed x → (x == chain.identity) = false →
      chain.combine chain.identity x = .ok x) :
    Expression.ofText expression.text = .ok expression := by
  have hreads : ∀ body : Expression, body.Flat allowed →
      ReadsAs .sum body.text.toList body.rebuild :=
    fun body hbody => hbody.readsAs_sum (fun _ _ hfits => hfits.1) hnumber
  rw [Expression.NotationOf.ofText_eq h hreads,
    Expression.NotationOf.rebuild h fun _ hbody => hbody.rebuild hcombine]
  rfl

/-- Integers whose absolute value is at most the greatest integer. -/
def Number.IsMagnitude : Number → Prop
  | integer z => z.toInt.natAbs ≤ 2 ^ 63 - 1
  | decimal _ => False

/-- An integer combined with an identity stays as it is. -/
theorem combine_identity_integer (chain : Chain) (z : Int64) :
    chain.combine chain.identity (.integer z) = .ok (.integer z) := by
  have hfits : Number.ofInt z.toInt = .ok (.integer z) := by
    rw [Number.ofInt, if_pos ⟨z.le_toInt, z.toInt_lt⟩, Int64.ofInt_toInt]
  cases chain with
  | sum =>
    have hzero : (0 : Int64).toInt + z.toInt = z.toInt := Int.zero_add _
    exact (congrArg Number.ofInt hzero).trans hfits
  | product =>
    have hone : (1 : Int64).toInt * z.toInt = z.toInt := Int.one_mul _
    exact (congrArg Number.ofInt hone).trans hfits

/-- A flat expression of integers, with comments or in a list, is what its notation stands for. -/
theorem ofText_text {expression : Expression} (h : expression.FlatNormal Number.IsMagnitude) :
    Expression.ofText expression.text = .ok expression := by
  refine h.ofText_eq_ok ?_ ?_
  · intro x hx
    cases x with
    | integer z =>
      refine readsAs_integer ?_
      rintro rfl
      have hmagnitude : Int64.minValue.toInt.natAbs ≤ 2 ^ 63 - 1 := hx
      exact absurd hmagnitude (by decide)
    | decimal x => exact hx.elim
  · intro chain x hx _
    cases x with
    | integer z => exact combine_identity_integer chain z
    | decimal x => exact hx.elim

/-- A sum in a product with comments around it, and a check in a power. -/
theorem ofText_text_attack :
    Expression.FlatNormal Number.IsMagnitude (.list [
      .commented (.product [.sum [.dice ⟨1, 6, none⟩, .dice ⟨2, 8, some (.keepHighest 1)⟩],
        .number (.integer (-3))]) (some "attack") (some "fire #1"),
      .power (.check ⟨⟨3, 10, none⟩, ⟨.atLeast, 8⟩⟩) (.number (.integer (-2)))]) ∧
    Expression.ofText "attack : (1d6 + 2d8 highest 1) * -3 # fire #1,  (3d10 >= 8) ^ -2" =
      .ok (.list [
        .commented (.product [.sum [.dice ⟨1, 6, none⟩, .dice ⟨2, 8, some (.keepHighest 1)⟩],
          .number (.integer (-3))]) (some "attack") (some "fire #1"),
        .power (.check ⟨⟨3, 10, none⟩, ⟨.atLeast, 8⟩⟩) (.number (.integer (-2)))]) := by
  have hdie : Dice.Expressible ⟨1, 6, none⟩ := ⟨by decide, by decide, nofun, rfl⟩
  have hten : Dice.Expressible ⟨3, 10, none⟩ := ⟨by decide, by decide, nofun, rfl⟩
  have height : Dice.Expressible ⟨2, 8, some (.keepHighest 1)⟩ :=
    ⟨by decide, by decide, by rintro _ ⟨⟩; exact ⟨by decide, rfl⟩, rfl⟩
  have hnumber : ∀ z : Int64, z.toInt.natAbs ≤ 2 ^ 63 - 1 →
      Expression.Flat Number.IsMagnitude (.number (.integer z)) := fun z hz => .number hz
  have hsum : Expression.Flat Number.IsMagnitude
      (.sum [.dice ⟨1, 6, none⟩, .dice ⟨2, 8, some (.keepHighest 1)⟩]) :=
    .chain .sum ⟨⟨by decide, by simp [Expression.operation?]⟩,
        ⟨by simp [Expression.number?], by simp⟩⟩
      (List.forall_mem_cons.2 ⟨.dice hdie, List.forall_mem_singleton.2 (.dice height)⟩)
  have hproduct : Expression.Flat Number.IsMagnitude
      (.product [.sum [.dice ⟨1, 6, none⟩, .dice ⟨2, 8, some (.keepHighest 1)⟩],
        .number (.integer (-3))]) := by
    refine .chain .product ⟨⟨by decide, by simp [Expression.operation?, Chain.operation]⟩,
        ⟨by simp [Expression.number?], ?_⟩⟩
      (List.forall_mem_cons.2 ⟨hsum, List.forall_mem_singleton.2 (hnumber (-3) (by decide))⟩)
    rintro _ ⟨⟩
    rfl
  have hpower : Expression.Flat Number.IsMagnitude
      (.power (.check ⟨⟨3, 10, none⟩, ⟨.atLeast, 8⟩⟩) (.number (.integer (-2)))) :=
    .power (.inl rfl) (.check hten) (hnumber (-2) (by decide))
  refine (and_iff_left_of_imp fun hflat => ofText_text hflat).2 (.list ?_ (by decide))
  refine List.forall_mem_cons.2
    ⟨.commented hproduct ?_ ?_ (.inl (by simp)), List.forall_mem_singleton.2 (.bare hpower)⟩
  all_goals
    rintro _ ⟨⟩
    exact ⟨by decide, by decide, by decide⟩

end DiceNotation
