import Mathlib.Data.UInt
import Mathlib.Tactic.Ring
import DiceNotation.Dice.Supply
import DiceNotation.Proofs.Streams

/-!
# Fair sources

A source is fair if it answers every die that has sides with one of them. The highest values are
fair, and so is the pseudo-random generator. It repeats a draw that would favour some values, but
not forever: its states go through all 64-bit numbers, and at one of them the draw is taken whatever
the number of sides. Asked for dice with one number of sides only, a fair source is a stream.
-/

namespace DiceNotation

/-- A source that, from some state on, answers every die that has sides with one of them. -/
def Source.FairFrom {σ : Type} (source : Source σ) (state : σ) : Prop :=
  ∀ shown rest, source.Shows state shown rest → ∀ sides, 1 ≤ sides →
    ∃ value, (source.roll sides rest).1 = some value ∧ 1 ≤ value ∧ value ≤ sides

namespace Source

variable {σ : Type} {source : Source σ} {state : σ}

/-- What holds of a state and is kept by every roll holds of all states that are reached. -/
theorem Shows.invariant {shown : List ShownDie} {rest : σ}
    (h : source.Shows state shown rest) (property : σ → Prop)
    (hroll : ∀ state, property state → ∀ sides, property (source.roll sides state).2)
    (hstate : property state) : property rest := by
  induction h with
  | nothing state => exact hstate
  | @die state next rest sides value shown hnext _ ih =>
    have hkept := hroll state hstate sides
    rw [hnext] at hkept
    exact ih hkept

/-! ## Fair sources as streams -/

/-- The state of a source after some number of dice with the same sides. -/
def after (source : Source σ) (sides : UInt32) (state : σ) : Nat → σ
  | 0 => state
  | count + 1 => (source.roll sides (source.after sides state count)).2

/-- The values that a source shows for dice with the same sides; where it shows none, zero. -/
def stream (source : Source σ) (sides : UInt32) (state : σ) (place : Nat) : UInt32 :=
  (source.roll sides (source.after sides state place)).1.getD 0

variable {sides : UInt32}

/-- A fair source shows any number of dice of its stream. -/
theorem FairFrom.shows_stream (h : source.FairFrom state) (hsides : 1 ≤ sides) (count : Nat) :
    source.Shows state ((stretch (source.stream sides state) 0 count).map (ShownDie.mk sides))
      (source.after sides state count) := by
  induction count with
  | zero => exact .nothing state
  | succ count ih =>
    obtain ⟨value, hvalue, -⟩ := h _ _ ih sides hsides
    have hstream : source.stream sides state count = value := by
      rw [stream, hvalue, Option.getD_some]
    have hroll : source.roll sides (source.after sides state count) =
        (some value, source.after sides state (count + 1)) := Prod.ext hvalue rfl
    have hsplit : stretch (source.stream sides state) 0 (count + 1) =
        stretch (source.stream sides state) 0 count ++ [value] := by
      rw [stretch_add, Nat.zero_add, stretch_succ, stretch_zero, hstream]
    rw [hsplit, List.map_append]
    exact shows_append_iff.2 ⟨_, ih, .die hroll (.nothing _)⟩

/-- The stream of a fair source stays within the sides. -/
theorem FairFrom.stream_bounds (h : source.FairFrom state) (hsides : 1 ≤ sides) (place : Nat) :
    1 ≤ source.stream sides state place ∧ source.stream sides state place ≤ sides := by
  obtain ⟨value, hvalue, hbounds⟩ := h _ _ (h.shows_stream hsides place) sides hsides
  rwa [stream, hvalue, Option.getD_some]

end Source

/-! ## The generator -/

open scoped UInt64.CommRing in
/-- After some number of steps the state has grown by as many times the constant. -/
theorem iterate_advance (count : Nat) (state : UInt64) :
    advance^[count] state = state + count * 0x2d358dccaa6c78a5 := by
  induction count with
  | zero => simp
  | succ count ih =>
    rw [Function.iterate_succ_apply', ih, advance]
    push_cast
    ring

open scoped UInt64.CommRing in
/-- The constant is odd, so the generator comes to every state within 2 ^ 64 steps. -/
theorem exists_iterate_advance (state target : UInt64) :
    ∃ count < 2 ^ 64, advance^[count + 1] state = target := by
  have hinverse : (0x32e25c49d2beaf2d : UInt64) * 0x2d358dccaa6c78a5 = 1 := by decide
  let steps : UInt64 := (target - state) * 0x32e25c49d2beaf2d - 1
  have hcast : ((steps.toNat : Nat) : UInt64) = steps := UInt64.ofNat_toNat
  refine ⟨steps.toNat, steps.toNat_lt, ?_⟩
  rw [iterate_advance, Nat.cast_add, hcast, Nat.cast_one]
  calc state + (steps + 1) * 0x2d358dccaa6c78a5
      = state + (target - state) * (0x32e25c49d2beaf2d * 0x2d358dccaa6c78a5) := by
        simp only [steps]
        ring
    _ = target := by
        rw [hinverse]
        ring

/-- A draw is taken in a state unless it would favour some of the numbers below a bound. -/
def Takes (bound : Nat) (state : UInt64) : Prop :=
  ¬ (mix state).toNat % Nat.pow 2 32 * bound % Nat.pow 2 32 < (Nat.pow 2 32 - bound) % bound

/-- A draw that is taken ends the drawing, and one that is not is repeated. -/
theorem drawBelow_succ (bound fuel : Nat) (state : UInt64) :
    drawBelow bound (fuel + 1) state =
      if (mix (advance state)).toNat % Nat.pow 2 32 * bound % Nat.pow 2 32 <
          (Nat.pow 2 32 - bound) % bound then
        drawBelow bound fuel (advance state)
      else
        (some ((mix (advance state)).toNat % Nat.pow 2 32 * bound / Nat.pow 2 32),
          advance state) := rfl

/-- If one of the next draws is taken, a number below the bound is drawn. -/
theorem exists_drawBelow {bound count fuel : Nat} {state : UInt64} (hbound : 0 < bound)
    (hcount : count < fuel) (h : Takes bound (advance^[count + 1] state)) :
    ∃ n rest, drawBelow bound fuel state = (some n, rest) ∧ n < bound := by
  induction fuel generalizing count state with
  | zero => exact absurd hcount (Nat.not_lt_zero count)
  | succ fuel ih =>
    by_cases htakes : Takes bound (advance state)
    · rw [drawBelow_succ, if_neg htakes]
      refine ⟨_, _, rfl, Nat.div_lt_of_lt_mul ?_⟩
      exact Nat.mul_lt_mul_of_pos_right (Nat.mod_lt _ (Nat.pow_pos Nat.zero_lt_two)) hbound
    · rw [drawBelow_succ, if_pos (not_not.1 htakes)]
      cases count with
      | zero => exact absurd (by rwa [Nat.zero_add, Function.iterate_one] at h) htakes
      | succ count =>
        rw [Function.iterate_succ_apply] at h
        exact ih (Nat.lt_of_succ_lt_succ hcount) h

/-- In one state the lower half of the draw is 1, and this is taken for every bound. -/
theorem takes_state {bound : Nat} (hbound : 0 < bound) (hfits : bound < 2 ^ 32) :
    Takes bound 2713328213 := by
  have hone : (mix 2713328213).toNat % Nat.pow 2 32 = 1 := by decide +kernel
  have hsame : bound % Nat.pow 2 32 = bound := Nat.mod_eq_of_lt hfits
  rw [Takes, hone, Nat.one_mul, hsame]
  exact Nat.not_lt.2 (Nat.mod_lt _ hbound).le

/-- With 2 ^ 64 draws to try, the drawing comes to an end with a number below the bound. -/
theorem exists_drawBelow_of_fits {bound fuel : Nat} (hbound : 0 < bound) (hfits : bound < 2 ^ 32)
    (hfuel : 2 ^ 64 ≤ fuel) (state : UInt64) :
    ∃ n rest, drawBelow bound fuel state = (some n, rest) ∧ n < bound := by
  obtain ⟨count, hcount, hstate⟩ := exists_iterate_advance state 2713328213
  have htakes := takes_state hbound hfits
  rw [← hstate] at htakes
  exact exists_drawBelow hbound (Nat.lt_of_lt_of_le hcount hfuel) htakes

/-! ## Supplies -/

/-- A die that has sides shows one of them on the generator. -/
theorem Supply.exists_roll_seeded {sides : UInt32} (hsides : 1 ≤ sides) (state : UInt64) :
    ∃ value rest, Supply.roll sides (.seeded state) = (some value, .seeded rest) ∧ 1 ≤ value ∧
      value ≤ sides := by
  have hpositive : 0 < sides.toNat := UInt32.le_iff_toNat_le.1 hsides
  have hne : ¬ sides = 0 := by
    rintro rfl
    exact absurd hpositive (by decide)
  obtain ⟨n, rest, hdraw, hn⟩ :=
    exists_drawBelow_of_fits hpositive sides.toNat_lt (Nat.le_refl (Nat.pow 2 64)) state
  have hvalue : (UInt32.ofNat (n + 1)).toNat = n + 1 :=
    UInt32.toNat_ofNat_of_lt' (Nat.lt_of_le_of_lt hn sides.toNat_lt)
  refine ⟨UInt32.ofNat (n + 1), rest, ?_, ?_, ?_⟩
  · rw [Supply.roll, if_neg hne, hdraw]
    rfl
  · rw [UInt32.le_iff_toNat_le, hvalue]
    exact Nat.le_add_left 1 n
  · rw [UInt32.le_iff_toNat_le, hvalue]
    exact hn

/-- A generator stays a generator. -/
theorem Supply.exists_seeded (sides : UInt32) (state : UInt64) :
    ∃ rest, (Supply.roll sides (.seeded state)).2 = .seeded rest := by
  rcases Nat.eq_zero_or_pos sides.toNat with hzero | hpositive
  · obtain rfl : sides = 0 := UInt32.toNat_inj.1 hzero
    rw [Supply.roll, if_pos rfl]
    exact ⟨state, rfl⟩
  · obtain ⟨value, rest, hroll, -⟩ :=
      Supply.exists_roll_seeded (UInt32.le_iff_toNat_le.2 hpositive) state
    rw [hroll]
    exact ⟨rest, rfl⟩

/-- A generator is fair whatever its seed. -/
theorem Supply.fairFrom_seeded (seed : UInt64) : Supply.source.FairFrom (.seeded seed) := by
  intro shown rest hshows sides hsides
  have hseeded : ∃ state, rest = .seeded state := by
    refine hshows.invariant (fun rest => ∃ state, rest = .seeded state) ?_ ⟨seed, rfl⟩
    rintro _ ⟨state, rfl⟩ sides
    exact Supply.exists_seeded sides state
  obtain ⟨state, rfl⟩ := hseeded
  obtain ⟨value, next, hroll, hbounds⟩ := Supply.exists_roll_seeded hsides state
  exact ⟨value, congrArg Prod.fst hroll, hbounds⟩

/-- The supply of highest values is fair. -/
theorem Supply.fairFrom_highest : Supply.source.FairFrom .highest := by
  intro shown rest hshows sides hsides
  obtain rfl : rest = .highest := by
    refine hshows.invariant (fun rest => rest = .highest) ?_ rfl
    rintro _ rfl sides
    rfl
  exact ⟨sides, rfl, hsides, UInt32.le_refl sides⟩

end DiceNotation
