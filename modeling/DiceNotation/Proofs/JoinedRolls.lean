import DiceNotation.Dice.Supply
import DiceNotation.Proofs.EntryRolls
import DiceNotation.Proofs.Reading.Joined

/-!
# Rolls of joined texts

Entries are independent of each other. Rolling two texts that are joined by a comma is rolling the
first and then, with the dice that are left, the second: it succeeds if both rolls do, and its
outcome is made of theirs. This is true of every source of dice, also of one that runs out.
-/

namespace DiceNotation

open Rolling

/-- The outcome of one text followed by the outcome of another. -/
def Outcome.followedBy (first second : Outcome) : Outcome where
  text := first.text ++ listSeparator ++ second.text
  trace := first.trace ++ listSeparator ++ second.trace
  value := .list ((first.entries ++ second.entries).map EntryOutcome.value)
  entries := first.entries ++ second.entries

/-- The outcome of more than one entry can be put together in two parts. -/
theorem Outcome.ofEntries_append {entries others : List EntryOutcome} (hentries : entries ≠ [])
    (hothers : others ≠ []) :
    ofEntries (entries ++ others) = (ofEntries entries).followedBy (ofEntries others) := by
  have hmap : ∀ {f : EntryOutcome → String} {items : List EntryOutcome}, items ≠ [] →
      items.map f ≠ [] := fun hitems hnil => hitems (List.map_eq_nil_iff.1 hnil)
  have hvalue : (ofEntries (entries ++ others)).value =
      .list ((entries ++ others).map EntryOutcome.value) := by
    obtain ⟨entry, more, rfl⟩ := List.exists_cons_of_ne_nil hentries
    obtain ⟨other, rest, rfl⟩ := List.exists_cons_of_ne_nil hothers
    cases more <;> rfl
  have htext := String.intercalate_append_of_ne_nil (s := listSeparator)
    (hmap (f := EntryOutcome.wholeText) hentries) (hmap (f := EntryOutcome.wholeText) hothers)
  have htrace := String.intercalate_append_of_ne_nil (s := listSeparator)
    (hmap (f := EntryOutcome.wholeTrace) hentries) (hmap (f := EntryOutcome.wholeTrace) hothers)
  rw [← List.map_append] at htext htrace
  calc ofEntries (entries ++ others)
      = ⟨(ofEntries (entries ++ others)).text, (ofEntries (entries ++ others)).trace,
          (ofEntries (entries ++ others)).value, entries ++ others⟩ := rfl
    _ = (ofEntries entries).followedBy (ofEntries others) := by
      rw [hvalue, show (ofEntries (entries ++ others)).text = _ from htext,
        show (ofEntries (entries ++ others)).trace = _ from htrace]
      rfl

/-- The lines of both outcomes are shown, first those of the first. -/
theorem Outcome.display_followedBy {first second : Outcome} (hfirst : first.entries ≠ [])
    (hsecond : second.entries ≠ []) :
    (first.followedBy second).display = first.display ++ "\n" ++ second.display := by
  have hlines : ∀ {items : List EntryOutcome}, items ≠ [] → items.map EntryOutcome.line ≠ [] :=
    fun hitems hnil => hitems (List.map_eq_nil_iff.1 hnil)
  rw [Outcome.display, followedBy, List.map_append,
    String.intercalate_append_of_ne_nil (hlines hfirst) (hlines hsecond)]
  rfl

/-! ## Texts -/

/-- A roll that ends has an outcome for at least one entry. -/
theorem entries_ne_nil_of_ends {text : String} {shown : List ShownDie} {outcome : Outcome}
    (h : (rollText text).Ends shown outcome) : outcome.entries ≠ [] := by
  obtain ⟨entries, outcomes, hread, hroll, rfl⟩ := ends_rollText_iff.1 h
  obtain ⟨entry, rest, rfl⟩ := List.exists_cons_of_ne_nil (ne_nil_of_readEntries hread)
  rw [List.mapM_cons] at hroll
  obtain ⟨first, before, behind, -, hrest, rfl⟩ := ends_bind_iff.1 hroll
  obtain ⟨others, -, rfl⟩ := ends_bind_pure_iff.1 hrest
  exact List.cons_ne_nil _ _

/-- A roll of a joined text ends exactly if rolls of both parts do, the second with the dice behind
those of the first. -/
theorem ends_rollText_append_iff {a b : String} {shown : List ShownDie} {outcome : Outcome} :
    (rollText (a ++ "," ++ b)).Ends shown outcome ↔
      ∃ first second before behind, (rollText a).Ends before first ∧
        (rollText b).Ends behind second ∧ shown = before ++ behind ∧
        outcome = first.followedBy second := by
  constructor
  · intro h
    obtain ⟨_, outcomes, hread, hroll, rfl⟩ := ends_rollText_iff.1 h
    obtain ⟨entries, others, hentries, hothers, rfl⟩ := readEntries_append_eq_ok_iff.1 hread
    rw [List.mapM_append] at hroll
    obtain ⟨first, before, behind, hfirst, hrest, rfl⟩ := ends_bind_iff.1 hroll
    obtain ⟨second, hsecond, rfl⟩ := ends_bind_pure_iff.1 hrest
    have ha := ends_rollText_iff.2 ⟨entries, first, hentries, hfirst, rfl⟩
    have hb := ends_rollText_iff.2 ⟨others, second, hothers, hsecond, rfl⟩
    exact ⟨_, _, before, behind, ha, hb, rfl,
      Outcome.ofEntries_append (entries_ne_nil_of_ends ha) (entries_ne_nil_of_ends hb)⟩
  · rintro ⟨_, _, before, behind, ha, hb, rfl, rfl⟩
    have hfirst := entries_ne_nil_of_ends ha
    have hsecond := entries_ne_nil_of_ends hb
    obtain ⟨entries, first, hentries, hroll, rfl⟩ := ends_rollText_iff.1 ha
    obtain ⟨others, second, hothers, hroll', rfl⟩ := ends_rollText_iff.1 hb
    refine ends_rollText_iff.2 ⟨entries ++ others, first ++ second,
      readEntries_append_eq_ok_iff.2 ⟨entries, others, hentries, hothers, rfl⟩, ?_,
      (Outcome.ofEntries_append hfirst hsecond).symm⟩
    rw [List.mapM_append]
    exact ends_bind_iff.2
      ⟨first, before, behind, hroll, ends_bind_pure_iff.2 ⟨second, hroll', rfl⟩, rfl⟩

/-- Rolling a joined text succeeds exactly if rolling its first part does, and rolling the second on
what the first left of the source. Then the outcome is that of the first part followed by that of
the second, line by line, and the dice are those of both. -/
theorem run_rollText_joined {σ : Type} (source : Source σ) (state : σ) (a b : String) :
    let front := (rollText a).run source state
    let behind := (rollText b).run source front.state
    let joined := (rollText (a ++ "," ++ b)).run source state
    (∀ outcome, joined.result = .ok outcome ↔
      ∃ first second, front.result = .ok first ∧ behind.result = .ok second ∧
        outcome = first.followedBy second) ∧
    ∀ first second, front.result = .ok first → behind.result = .ok second →
      (first.followedBy second).display = first.display ++ "\n" ++ second.display ∧
        joined.shown = front.shown ++ behind.shown ∧ joined.state = behind.state := by
  intro front behind joined
  have hboth : ∀ first second, front.result = .ok first → behind.result = .ok second →
      joined = ⟨.ok (first.followedBy second), front.shown ++ behind.shown, behind.state⟩ := by
    intro first second hfirst hsecond
    obtain ⟨ha, hshows⟩ := ends_of_run hfirst
    obtain ⟨hb, hshows'⟩ := ends_of_run hsecond
    have hends := ends_rollText_append_iff.2 ⟨first, second, _, _, ha, hb, rfl, rfl⟩
    exact hends.run (Source.shows_append_iff.2 ⟨front.state, hshows, hshows'⟩)
  refine ⟨fun outcome => ⟨fun h => ?_, ?_⟩, fun first second hfirst hsecond => ?_⟩
  · obtain ⟨hends, hshows⟩ := ends_of_run h
    obtain ⟨first, second, before, rest, ha, hb, hshown, rfl⟩ := ends_rollText_append_iff.1 hends
    rw [hshown] at hshows
    obtain ⟨between, hbefore, hrest⟩ := Source.shows_append_iff.1 hshows
    have hfront : front = ⟨.ok first, before, between⟩ := ha.run hbefore
    have hbehind : behind = ⟨.ok second, rest, _⟩ := hb.run (by rw [hfront]; exact hrest)
    exact ⟨first, second, by rw [hfront], by rw [hbehind], rfl⟩
  · rintro ⟨first, second, hfirst, hsecond, rfl⟩
    rw [hboth first second hfirst hsecond]
  · rw [hboth first second hfirst hsecond]
    exact ⟨Outcome.display_followedBy (entries_ne_nil_of_ends (ends_of_run hfirst).1)
      (entries_ne_nil_of_ends (ends_of_run hsecond).1), rfl, rfl⟩

/-- Two entries with comments take three of the six values, the check behind them takes two, and one
is left. -/
theorem run_rollText_joined_attack :
    let a := "attack: d20 + 5 # longsword, 2d6"
    let b := "nb hard 2"
    let front := (rollText a).run Supply.source (.listed [17, 3, 4, 6, 1, 2])
    let behind := (rollText b).run Supply.source front.state
    let joined := (rollText (a ++ "," ++ b)).run Supply.source (.listed [17, 3, 4, 6, 1, 2])
    ∃ first second, front.result = .ok first ∧ behind.result = .ok second ∧
      joined.result = .ok (first.followedBy second) ∧
      (first.followedBy second).display = first.display ++ "\n" ++ second.display ∧
      first.display = "attack:   1d20 + 5   ::   (**17**) + 5   =>   got **22**   # longsword\n" ++
        "2d6   ::   (3 + 4 => **7**)   =>   got **7**" ∧
      second.display = "(2d6 >= 6)   ::   (**6** ~~1~~ => **1 hit**)   =>   got **1**" ∧
      joined.state = .listed [2] := by
  intro a b front behind joined
  have hfront : (rollText "attack: d20 + 5 # longsword, 2d6").run Supply.source
      (.listed [17, 3, 4, 6, 1, 2]) = ⟨.ok (.ofEntries [
      ⟨some "attack", some "longsword", "1d20 + 5", "(**17**) + 5", .number (.integer 22)⟩,
      ⟨none, none, "2d6", "(3 + 4 => **7**)", .number (.integer 7)⟩]),
      [⟨20, 17⟩, ⟨6, 3⟩, ⟨6, 4⟩], .listed [6, 1, 2]⟩ := by
    rfl
  have hrest : (rollText "nb hard 2").run Supply.source (.listed [6, 1, 2]) = ⟨.ok (.ofEntries [
      ⟨none, none, "(2d6 >= 6)", "(**6** ~~1~~ => **1 hit**)", .number (.integer 1)⟩]),
      [⟨6, 6⟩, ⟨6, 1⟩], .listed [2]⟩ := by
    rfl
  have hbehind : behind = ⟨_, _, _⟩ :=
    (congrArg (fun run => (rollText b).run Supply.source run.state) hfront).trans hrest
  obtain ⟨hiff, hjoined⟩ := run_rollText_joined Supply.source (.listed [17, 3, 4, 6, 1, 2]) a b
  have hfirst : front.result = .ok _ := congrArg Run.result hfront
  have hsecond : behind.result = .ok _ := congrArg Run.result hbehind
  obtain ⟨hdisplay, -, hstate⟩ := hjoined _ _ hfirst hsecond
  refine ⟨_, _, hfirst, hsecond, (hiff _).2 ⟨_, _, hfirst, hsecond, rfl⟩, hdisplay, by cbv, by cbv,
    ?_⟩
  rw [hstate]
  exact congrArg Run.state hbehind

end DiceNotation
