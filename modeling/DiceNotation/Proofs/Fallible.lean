import Mathlib.Data.List.Forall2

/-!
# Calculations that may fail

A calculation made of two steps succeeds exactly when both steps do, and one that is made for every
item of a list succeeds exactly when it does for each of them. These facts open such calculations
one step at a time.
-/

namespace DiceNotation

variable {ε δ α β γ : Type}

/-- A sequence succeeds if both steps do. -/
theorem bind_eq_ok_iff {first : Except ε α} {next : α → Except ε β} {b : β} :
    (first >>= next) = .ok b ↔ ∃ a, first = .ok a ∧ next a = .ok b := by
  cases first with
  | error cause =>
    constructor
    · intro h
      cases h
    · rintro ⟨a, h, -⟩
      cases h
  | ok a =>
    constructor
    · intro h
      exact ⟨a, rfl, h⟩
    · rintro ⟨a', h, hb⟩
      cases h
      exact hb

/-- What is given at once is the result. -/
theorem pure_eq_ok_iff {a b : α} : (pure a : Except ε α) = .ok b ↔ a = b := by
  constructor
  · intro h
    cases h
    rfl
  · intro h
    rw [h]
    rfl

/-- Changing the causes of failures changes no result. -/
theorem mapError_eq_ok_iff {f : ε → δ} {calculation : Except ε α} {a : α} :
    calculation.mapError f = .ok a ↔ calculation = .ok a := by
  cases calculation with
  | error cause =>
    constructor
    · intro h
      cases h
    · intro h
      cases h
  | ok b =>
    constructor
    · intro h
      cases h
      rfl
    · intro h
      cases h
      rfl

/-- Two steps fail if the first does, or if the second does behind the first. -/
theorem bind_eq_error_iff {first : Except ε α} {next : α → Except ε β} {cause : ε} :
    (first >>= next) = .error cause ↔
      first = .error cause ∨ ∃ a, first = .ok a ∧ next a = .error cause := by
  cases first with
  | error other =>
    constructor
    · intro h
      cases h
      exact .inl rfl
    · rintro (h | ⟨a, h, -⟩)
      · cases h
        rfl
      · cases h
  | ok a =>
    constructor
    · intro h
      exact .inr ⟨a, rfl, h⟩
    · rintro (h | ⟨a', h, hnext⟩)
      · cases h
      · cases h
        exact hnext

/-- Changing the causes of failures changes the cause. -/
theorem mapError_eq_error_iff {f : ε → δ} {calculation : Except ε α} {cause : δ} :
    calculation.mapError f = .error cause ↔
      ∃ inner, calculation = .error inner ∧ f inner = cause := by
  cases calculation with
  | error inner =>
    constructor
    · intro h
      cases h
      exact ⟨inner, rfl, rfl⟩
    · rintro ⟨_, h, rfl⟩
      cases h
      rfl
  | ok a =>
    constructor
    · intro h
      cases h
    · rintro ⟨_, h, -⟩
      cases h

/-- A calculation for every item of a list succeeds with one result for each of them. -/
theorem mapM_eq_ok_iff {f : α → Except ε β} {items : List α} {results : List β} :
    items.mapM f = .ok results ↔ List.Forall₂ (fun a b => f a = .ok b) items results := by
  induction items generalizing results with
  | nil =>
    rw [List.mapM_nil, pure_eq_ok_iff, List.forall₂_nil_left_iff, eq_comm]
  | cons a items ih =>
    rw [List.mapM_cons, bind_eq_ok_iff, List.forall₂_cons_left_iff]
    constructor
    · rintro ⟨b, hb, h⟩
      obtain ⟨others, hothers, h⟩ := bind_eq_ok_iff.mp h
      exact ⟨b, others, hb, ih.mp hothers, (pure_eq_ok_iff.mp h).symm⟩
    · rintro ⟨b, others, hb, hothers, rfl⟩
      exact ⟨b, hb, bind_eq_ok_iff.mpr ⟨others, ih.mpr hothers, rfl⟩⟩

/-- What relates every item with its result relates the items with the results. -/
theorem forall₂_of_mapM {f : α → Except ε β} {related : α → β → Prop} {items : List α}
    {results : List β} (h : items.mapM f = .ok results)
    (hrelated : ∀ a ∈ items, ∀ b, f a = .ok b → related a b) :
    List.Forall₂ related items results :=
  ((List.forall₂_and_left _ _).mpr ⟨hrelated, mapM_eq_ok_iff.mp h⟩).imp fun _ _ h => h.1 _ h.2

/-- A calculation for every item of a list fails as it does for one of them. -/
theorem exists_of_mapM_eq_error {f : α → Except ε β} {items : List α} {cause : ε}
    (h : items.mapM f = .error cause) : ∃ a ∈ items, f a = .error cause := by
  induction items with
  | nil => cases h
  | cons a items ih =>
    rw [List.mapM_cons] at h
    rcases bind_eq_error_iff.mp h with h | ⟨b, -, h⟩
    · exact ⟨a, List.mem_cons_self, h⟩
    · rcases bind_eq_error_iff.mp h with h | ⟨others, -, h⟩
      · obtain ⟨item, hitem, hcause⟩ := ih h
        exact ⟨item, List.mem_cons_of_mem a hitem, hcause⟩
      · cases h

/-- A test of every item of a list is passed exactly if it is passed by each of them. -/
theorem forM_eq_ok_iff {test : α → Except ε Unit} {items : List α} :
    forM items test = .ok () ↔ ∀ a ∈ items, test a = .ok () := by
  induction items with
  | nil => exact ⟨fun _ => List.forall_mem_nil _, fun _ => rfl⟩
  | cons a items ih =>
    rw [List.forM_cons, bind_eq_ok_iff, List.forall_mem_cons, ih]
    exact ⟨fun ⟨_, ha, hitems⟩ => ⟨ha, hitems⟩, fun ⟨ha, hitems⟩ => ⟨(), ha, hitems⟩⟩

/-- A test of every item of a list fails exactly as it does for the first one that does not pass. -/
theorem forM_eq_error_iff {test : α → Except ε Unit} {items : List α} {cause : ε} :
    forM items test = .error cause ↔
      ∃ before a behind, items = before ++ a :: behind ∧ (∀ b ∈ before, test b = .ok ()) ∧
        test a = .error cause := by
  induction items with
  | nil =>
    constructor
    · intro h
      cases h
    · rintro ⟨before, a, behind, hitems, -⟩
      have hne := List.append_ne_nil_of_right_ne_nil before (List.cons_ne_nil a behind)
      exact absurd hitems.symm hne
  | cons a items ih =>
    rw [List.forM_cons, bind_eq_error_iff]
    constructor
    · rintro (hfails | ⟨_, hpasses, hrest⟩)
      · exact ⟨[], a, items, rfl, List.forall_mem_nil _, hfails⟩
      · obtain ⟨before, b, behind, rfl, hbefore, hfails⟩ := ih.mp hrest
        exact ⟨a :: before, b, behind, rfl, List.forall_mem_cons.mpr ⟨hpasses, hbefore⟩, hfails⟩
    · rintro ⟨before, b, behind, hitems, hbefore, hfails⟩
      cases before with
      | nil =>
        cases hitems
        exact .inl hfails
      | cons c before =>
        cases hitems
        obtain ⟨hpasses, hbefore⟩ := List.forall_mem_cons.mp hbefore
        exact .inr ⟨(), hpasses, ih.mpr ⟨before, b, behind, rfl, hbefore, hfails⟩⟩

/-- What related items tell about an item holds of every item. -/
theorem forall_mem_of_forall₂ {R : α → β → Prop} {p : α → Prop} {as : List α} {bs : List β}
    (h : List.Forall₂ R as bs) (hp : ∀ a, ∀ b ∈ bs, R a b → p a) : ∀ a ∈ as, p a := by
  induction h with
  | nil => exact List.forall_mem_nil _
  | cons hfirst _ ih =>
    exact List.forall_mem_cons.2 ⟨hp _ _ List.mem_cons_self hfirst,
      ih fun a b hb => hp a b (List.mem_cons_of_mem _ hb)⟩

/-- Every item of related lists has one that it is related to. -/
theorem exists_of_forall₂_of_mem {R : α → β → Prop} {as : List α} {bs : List β} {a : α}
    (h : List.Forall₂ R as bs) (hmem : a ∈ as) : ∃ b ∈ bs, R a b := by
  induction h with
  | nil => cases hmem
  | @cons first result _ _ hfirst _ ih =>
    rcases List.mem_cons.mp hmem with rfl | hmem
    · exact ⟨result, List.mem_cons_self, hfirst⟩
    · obtain ⟨b, hb, hrelated⟩ := ih hmem
      exact ⟨b, List.mem_cons_of_mem result hb, hrelated⟩

/-- Items that are related through others are related by both steps. -/
theorem forall₂_trans {R : α → β → Prop} {S : β → γ → Prop} {as : List α} {bs : List β}
    {cs : List γ} (h : List.Forall₂ R as bs) (h' : List.Forall₂ S bs cs) :
    List.Forall₂ (fun a c => ∃ b, R a b ∧ S b c) as cs := by
  induction h generalizing cs with
  | nil =>
    cases h'
    exact .nil
  | @cons a b _ _ hfirst _ ih =>
    cases h' with
    | cons hsecond hrest => exact .cons ⟨b, hfirst, hsecond⟩ (ih hrest)

/-- Lists of items that agree one by one have the same images. -/
theorem map_eq_of_forall₂ {f : α → γ} {g : β → γ} {as : List α} {bs : List β}
    (h : List.Forall₂ (fun a b => f a = g b) as bs) : as.map f = bs.map g := by
  induction h with
  | nil => rfl
  | cons hfirst _ ih => rw [List.map_cons, List.map_cons, hfirst, ih]

end DiceNotation
