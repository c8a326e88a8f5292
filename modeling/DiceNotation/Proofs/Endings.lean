import DiceNotation.Proofs.Runs

/-!
# Endings of rolling procedures

A procedure ends with a result after some dice if it is done with that result once it was shown
these dice, each of which it asked for in turn. This does not depend on where the dice come from: a
run on a source succeeds exactly if the procedure ends after dice that the source shows. So two
sources that show the same dice give the same result, and what they would show next is not touched.
-/

namespace DiceNotation

variable {ε δ α β σ : Type}

namespace Rolling

/-- A procedure is done with a result after it was shown some dice, and asked for no others. -/
inductive Ends : Rolling ε α → List ShownDie → α → Prop where
  /-- The procedure is done at once. -/
  | done (result : α) : Ends (.done result) [] result
  /-- The procedure asks for the first die and goes on with its value. -/
  | ask {sides value : UInt32} {next : UInt32 → Rolling ε α} {shown : List ShownDie} {result : α}
    (h : Ends (next value) shown result) : Ends (.ask sides next) (⟨sides, value⟩ :: shown) result

/-- What is done at once ends with its result, and nothing is shown. -/
theorem ends_pure_iff {shown : List ShownDie} {a result : α} :
    (pure a : Rolling ε α).Ends shown result ↔ shown = [] ∧ a = result := by
  constructor
  · intro h
    cases h
    exact ⟨rfl, rfl⟩
  · rintro ⟨rfl, rfl⟩
    exact .done a

/-- What fails does not end with a result. -/
theorem not_ends_fail {cause : ε} {shown : List ShownDie} {result : α} :
    ¬ (Rolling.fail cause).Ends shown result := by
  intro h
  cases h

/-- A calculation ends with its result, and nothing is shown. -/
theorem ends_ofExcept_iff {calculation : Except ε α} {shown : List ShownDie} {result : α} :
    (ofExcept calculation).Ends shown result ↔ shown = [] ∧ calculation = .ok result := by
  cases calculation with
  | error cause =>
    constructor
    · intro h
      cases h
    · rintro ⟨-, h⟩
      cases h
  | ok a =>
    rw [Except.ok.injEq]
    exact ends_pure_iff

/-- Changing the causes of failures changes no ending. -/
theorem ends_mapError_iff {f : ε → δ} {procedure : Rolling ε α} {shown : List ShownDie}
    {result : α} : (procedure.mapError f).Ends shown result ↔ procedure.Ends shown result := by
  induction procedure generalizing shown with
  | done a =>
    constructor <;>
    · intro h
      cases h
      exact .done _
  | fail cause =>
    constructor <;>
    · intro h
      cases h
  | ask sides next ih =>
    constructor <;>
    · intro h
      cases h with
      | ask h => exact .ask (by simpa only [ih] using h)

/-- A sequence ends after the dice of its first part and those of its second part. -/
theorem ends_bind_iff {procedure : Rolling ε α} {next : α → Rolling ε β} {shown : List ShownDie}
    {result : β} :
    (procedure >>= next).Ends shown result ↔
      ∃ a first second, procedure.Ends first a ∧ (next a).Ends second result ∧
        shown = first ++ second := by
  change (Rolling.bind procedure next).Ends shown result ↔ _
  induction procedure generalizing shown with
  | done a =>
    constructor
    · intro h
      exact ⟨a, [], shown, .done a, h, rfl⟩
    · rintro ⟨_, _, second, ⟨⟩, h, rfl⟩
      exact h
  | fail cause =>
    constructor
    · intro h
      cases h
    · rintro ⟨a, first, second, ⟨⟩, -⟩
  | ask sides continuation ih =>
    constructor
    · intro h
      cases h with
      | @ask _ value _ shown _ h =>
        obtain ⟨a, first, second, hfirst, hsecond, rfl⟩ := ih value |>.1 h
        exact ⟨a, ⟨sides, value⟩ :: first, second, .ask hfirst, hsecond, rfl⟩
    · rintro ⟨a, first, second, hfirst, hsecond, rfl⟩
      cases hfirst with
      | ask hfirst => exact .ask ((ih _).2 ⟨a, _, second, hfirst, hsecond, rfl⟩)

/-- Changing the result changes nothing of what is shown. -/
theorem ends_bind_pure_iff {procedure : Rolling ε α} {f : α → β} {shown : List ShownDie}
    {result : β} :
    (procedure >>= fun a => pure (f a)).Ends shown result ↔
      ∃ a, procedure.Ends shown a ∧ f a = result := by
  rw [ends_bind_iff]
  constructor
  · rintro ⟨a, first, second, hends, hpure, rfl⟩
    obtain ⟨rfl, rfl⟩ := ends_pure_iff.1 hpure
    exact ⟨a, by rwa [List.append_nil], rfl⟩
  · rintro ⟨a, hends, rfl⟩
    exact ⟨a, shown, [], hends, .done _, (List.append_nil shown).symm⟩

/-- Asking for several dice ends after as many dice with the same sides. -/
theorem ends_askMany_iff {sides : UInt32} {count : Nat} {next : List UInt32 → Rolling ε α}
    {shown : List ShownDie} {result : α} :
    (askMany sides count next).Ends shown result ↔
      ∃ values rest, values.length = count ∧ (next values).Ends rest result ∧
        shown = values.map (ShownDie.mk sides) ++ rest := by
  induction count generalizing shown next with
  | zero =>
    constructor
    · intro h
      exact ⟨[], shown, rfl, h, rfl⟩
    · rintro ⟨values, rest, hlength, h, rfl⟩
      rw [List.length_eq_zero_iff] at hlength
      subst hlength
      exact h
  | succ count ih =>
    constructor
    · intro h
      cases h with
      | @ask _ value _ shown _ h =>
        obtain ⟨values, rest, hlength, hnext, rfl⟩ := ih.1 h
        exact ⟨value :: values, rest, by rw [List.length_cons, hlength], hnext, rfl⟩
    · rintro ⟨values, rest, hlength, h, rfl⟩
      obtain ⟨value, values, rfl⟩ := List.exists_cons_of_length_eq_add_one hlength
      rw [List.length_cons, Nat.add_right_cancel_iff] at hlength
      exact .ask (ih.2 ⟨values, rest, hlength, h, rfl⟩)

/-- Dice that are asked for together have the same number of sides. -/
theorem map_sides_shown (sides : UInt32) (values : List UInt32) :
    (values.map (ShownDie.mk sides)).map ShownDie.sides = List.replicate values.length sides := by
  rw [List.map_map]
  exact List.map_const'

/-- Dice that are shown for some values show these values. -/
theorem map_value_shown (sides : UInt32) (values : List UInt32) :
    (values.map (ShownDie.mk sides)).map ShownDie.value = values := by
  rw [List.map_map]
  exact List.map_id values

/-- What holds of all results of a procedure holds of one that it ends with. -/
theorem Always.of_ends {property : α → Prop} {procedure : Rolling ε α} {shown : List ShownDie}
    {result : α} (h : procedure.Always property) (hends : procedure.Ends shown result) :
    property result := by
  induction hends with
  | done result => exact h
  | ask _ ih => exact ih (h _)

/-- What holds whenever a procedure ends holds of all its results. -/
theorem Always.of_forall_ends {property : α → Prop} {procedure : Rolling ε α}
    (h : ∀ shown result, procedure.Ends shown result → property result) :
    procedure.Always property := by
  induction procedure with
  | done result => exact h [] result (.done result)
  | fail cause => trivial
  | ask sides next ih => exact fun value => ih value fun _ _ hends => h _ _ (.ask hends)

end Rolling

namespace Source

/-- A source shows some dice one after the other, and is left in another state. -/
inductive Shows (source : Source σ) : σ → List ShownDie → σ → Prop where
  /-- No die is asked for. -/
  | nothing (state : σ) : Shows source state [] state
  /-- The source shows the first die, and then the others. -/
  | die {state next rest : σ} {sides value : UInt32} {shown : List ShownDie}
    (h : source.roll sides state = (some value, next)) (hrest : Shows source next shown rest) :
    Shows source state (⟨sides, value⟩ :: shown) rest

/-- A source shows the first of some dice, and then the others. -/
theorem shows_append_iff {source : Source σ} {state rest : σ} {first second : List ShownDie} :
    source.Shows state (first ++ second) rest ↔
      ∃ between, source.Shows state first between ∧ source.Shows between second rest := by
  induction first generalizing state with
  | nil =>
    constructor
    · intro h
      exact ⟨state, .nothing state, h⟩
    · rintro ⟨between, ⟨⟩, h⟩
      exact h
  | cons die first ih =>
    constructor
    · intro h
      cases h with
      | die hroll hrest =>
        obtain ⟨between, hfirst, hsecond⟩ := ih.1 hrest
        exact ⟨between, .die hroll hfirst, hsecond⟩
    · rintro ⟨between, hfirst, hsecond⟩
      cases hfirst with
      | die hroll hrest => exact .die hroll (ih.2 ⟨between, hrest, hsecond⟩)

/-- A source that does not run out, whatever it is asked for from some state on. -/
def EndlessFrom (source : Source σ) (state : σ) : Prop :=
  ∀ shown rest, source.Shows state shown rest → ∀ sides, (source.roll sides rest).1.isSome

/-- Asked for a die, a source that does not run out shows one, and does not run out then either. -/
theorem EndlessFrom.exists_next {source : Source σ} {state : σ} (h : source.EndlessFrom state)
    (sides : UInt32) :
    ∃ value next, source.roll sides state = (some value, next) ∧ source.EndlessFrom next := by
  obtain ⟨value, hvalue⟩ := Option.isSome_iff_exists.1 (h [] state (.nothing state) sides)
  have hroll : source.roll sides state = (some value, (source.roll sides state).2) :=
    Prod.ext hvalue rfl
  exact ⟨value, _, hroll, fun _ rest hshows => h _ rest (.die hroll hshows)⟩

end Source

namespace Rolling

/-- A procedure that ends after dice that a source shows succeeds on this source. -/
theorem Ends.run {source : Source σ} {procedure : Rolling ε α} {state rest : σ}
    {shown : List ShownDie} {result : α} (h : procedure.Ends shown result)
    (hshows : source.Shows state shown rest) :
    procedure.run source state = ⟨.ok result, shown, rest⟩ := by
  induction h generalizing state with
  | done result =>
    cases hshows
    rfl
  | ask _ ih =>
    cases hshows with
    | die hroll hrest => simp only [run_ask, hroll, ih hrest]

/-- A run that succeeds was shown every die that it asked for. -/
theorem asked_of_run {source : Source σ} {procedure : Rolling ε α} {state : σ} {result : α}
    (h : (procedure.run source state).result = .ok result) :
    (procedure.run source state).asked =
      (procedure.run source state).shown.map ShownDie.sides := by
  rw [Run.asked, h]
  exact List.append_nil _

/-- A run that succeeds was shown the dice after which the procedure ends. -/
theorem ends_of_run {source : Source σ} {procedure : Rolling ε α} {state : σ} {result : α}
    (h : (procedure.run source state).result = .ok result) :
    procedure.Ends (procedure.run source state).shown result ∧
      source.Shows state (procedure.run source state).shown (procedure.run source state).state := by
  induction procedure generalizing state with
  | done a =>
    cases h
    exact ⟨.done _, .nothing state⟩
  | fail cause => cases h
  | ask sides next ih =>
    obtain ⟨value, after, hroll, hrest⟩ := exists_of_run_ask h
    obtain ⟨hends, hshows⟩ := ih value hrest
    rw [run_ask, hroll]
    exact ⟨.ask hends, .die hroll hshows⟩

end Rolling

end DiceNotation
