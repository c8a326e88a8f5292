import DiceNotation.Proofs.RollOrder

/-!
# Streams of values

A stream has a value at every place. As a source of dice it shows these values in order, whatever
the numbers of sides, and does not run out. What is taken from it is always a stretch of it, which
begins where the source stands and behind which the source is left.
-/

namespace DiceNotation

open Rolling

/-- The iterator of a stream, which stands at a place of it. -/
def nextOfStream (stream : Nat → UInt32) (place : Nat) : Option UInt32 × Nat :=
  (some (stream place), place + 1)

/-- The values of a stream at some number of places from one on. -/
def stretch (stream : Nat → UInt32) (start size : Nat) : List UInt32 :=
  (List.range' start size).map stream

@[simp] theorem length_stretch (stream : Nat → UInt32) (start size : Nat) :
    (stretch stream start size).length = size := by
  rw [stretch, List.length_map, List.length_range']

/-- An empty stretch has no values. -/
theorem stretch_zero (stream : Nat → UInt32) (start : Nat) : stretch stream start 0 = [] := rfl

/-- A stretch starts with the value at its start. -/
theorem stretch_succ (stream : Nat → UInt32) (start size : Nat) :
    stretch stream start (size + 1) = stream start :: stretch stream (start + 1) size := by
  rw [stretch, List.range'_succ, List.map_cons, stretch]

/-- A stretch goes on with the one behind it. -/
theorem stretch_add (stream : Nat → UInt32) (start size more : Nat) :
    stretch stream start (size + more) =
      stretch stream start size ++ stretch stream (start + size) more := by
  have hplaces : List.range' start (size + more) =
      List.range' start size ++ List.range' (start + size) more :=
    List.range'_append_1.symm
  rw [stretch, hplaces, List.map_append, stretch, stretch]

/-- The iterator of a stream gives its stretches. -/
theorem gives_stretch (stream : Nat → UInt32) (start size : Nat) :
    Source.Gives (nextOfStream stream) start (stretch stream start size) (start + size) := by
  induction size generalizing start with
  | zero => exact .nothing start
  | succ size ih =>
    have hrest := ih (start + 1)
    rw [Nat.add_right_comm] at hrest
    rw [stretch_succ]
    exact .value rfl hrest

/-- A procedure that ends after dice with the values of a stretch takes exactly these. -/
theorem Rolling.Ends.run_stream {ε α : Type} {procedure : Rolling ε α} {shown : List ShownDie}
    {result : α} {stream : Nat → UInt32} {start size : Nat} (h : procedure.Ends shown result)
    (hvalues : shown.map ShownDie.value = stretch stream start size) :
    procedure.run (.iterating (nextOfStream stream)) start = ⟨.ok result, shown, start + size⟩ := by
  refine h.run (Source.shows_iterating_iff.2 ?_)
  rw [hvalues]
  exact gives_stretch stream start size

/-- A source that never runs out does not do so from any state on. -/
theorem Source.Endless.endlessFrom {σ : Type} {source : Source σ} (h : source.Endless)
    (state : σ) : source.EndlessFrom state :=
  fun _ rest _ sides => h sides rest

/-- The source of a stream never runs out. -/
theorem endless_stream (stream : Nat → UInt32) :
    (Source.iterating (nextOfStream stream)).Endless :=
  fun _ _ => rfl

end DiceNotation
