import Mathlib.Data.List.Forall2

/-!
# Steps That May Fail

When a computation in `Except` succeeds, and what it then yields: two steps in a row, a step with
its faults renamed, and a step for each member of a list.
-/

namespace SignedRefs

variable {α β ε : Type} {f : α → Except ε β} {l : List α} {out : List β}

/-- Two steps in a row succeed if each does. -/
theorem bind_eq_ok_iff {x : Except ε α} {b : β} :
    x >>= f = .ok b ↔ ∃ a, x = .ok a ∧ f a = .ok b := by
  cases x with
  | error fault =>
      constructor
      · intro h
        cases h
      · rintro ⟨a, h, -⟩
        cases h
  | ok a =>
      constructor
      · intro h
        exact ⟨a, rfl, h⟩
      · rintro ⟨_, ⟨⟩, h⟩
        exact h

/-- Renaming errors leaves successes alone. -/
theorem mapError_eq_ok_iff {ε' : Type} {x : Except ε α} {g : ε → ε'} {a : α} :
    x.mapError g = .ok a ↔ x = .ok a := by
  cases x with
  | error fault =>
      constructor
      · intro h
        cases h
      · intro h
        cases h
  | ok a' =>
      constructor
      · intro h
        cases h
        rfl
      · intro h
        cases h
        rfl

/-- A mapped result is a success with the image of one. -/
theorem map_eq_ok_iff {x : Except ε α} {g : α → β} {b : β} :
    x.map g = .ok b ↔ ∃ a, x = .ok a ∧ g a = b := by
  cases x with
  | error fault =>
      constructor
      · intro h
        cases h
      · rintro ⟨a, h, -⟩
        cases h
  | ok a =>
      constructor
      · intro h
        cases h
        exact ⟨a, rfl, rfl⟩
      · rintro ⟨_, ⟨⟩, rfl⟩
        rfl

/-- A list is mapped if each member is. -/
theorem mapM_eq_ok_iff : l.mapM f = .ok out ↔ List.Forall₂ (fun a b => f a = .ok b) l out := by
  induction l generalizing out with
  | nil =>
      rw [List.mapM_nil, List.forall₂_nil_left_iff]
      constructor
      · intro h
        cases h
        rfl
      · rintro rfl
        rfl
  | cons a l ih =>
      rw [List.mapM_cons, List.forall₂_cons_left_iff]
      cases hf : f a with
      | error fault =>
          constructor
          · intro h
            cases h
          · rintro ⟨b, -, hb, -⟩
            cases hb
      | ok b =>
          cases hrest : l.mapM f with
          | error fault =>
              constructor
              · intro h
                cases h
              · rintro ⟨b', out', -, hout, -⟩
                rw [ih.mpr hout] at hrest
                cases hrest
          | ok out' =>
              constructor
              · intro h
                cases h
                exact ⟨b, out', rfl, ih.mp hrest, rfl⟩
              · rintro ⟨b', out'', hb, hout, rfl⟩
                cases hb
                rw [ih.mpr hout] at hrest
                cases hrest
                rfl

/-- The same where it is known what a member is mapped to. -/
theorem mapM_eq_ok_iff_map {g : α → β} (hg : ∀ a b, f a = .ok b → b = g a) :
    l.mapM f = .ok out ↔ (∀ a ∈ l, ∃ b, f a = .ok b) ∧ out = l.map g := by
  rw [mapM_eq_ok_iff]
  constructor
  · intro h
    induction h with
    | nil => exact ⟨by simp, rfl⟩
    | @cons a b l out hab _ ih =>
        obtain ⟨hall, rfl⟩ := ih
        rw [List.map_cons, hg a b hab]
        exact ⟨List.forall_mem_cons.mpr ⟨⟨b, hab⟩, hall⟩, rfl⟩
  · rintro ⟨hall, rfl⟩
    rw [List.forall₂_map_right_iff, List.forall₂_same]
    intro a ha
    obtain ⟨b, hb⟩ := hall a ha
    rw [hb, hg a b hb]

/-- What is made of a list of members each of which can be mapped. -/
theorem mapM_eq_ok_iff_filterMap :
    l.mapM f = .ok out ↔
      (∀ a ∈ l, ∃ b, f a = .ok b) ∧ out = l.filterMap fun a => (f a).toOption := by
  rw [mapM_eq_ok_iff]
  constructor
  · intro h
    induction h with
    | nil => exact ⟨by simp, rfl⟩
    | @cons a b l out hab _ ih =>
        obtain ⟨hall, rfl⟩ := ih
        rw [List.filterMap_cons, hab]
        exact ⟨List.forall_mem_cons.mpr ⟨⟨b, hab⟩, hall⟩, rfl⟩
  · rintro ⟨hall, rfl⟩
    induction l with
    | nil => exact .nil
    | cons a l ih =>
        obtain ⟨⟨b, hb⟩, hall⟩ := List.forall_mem_cons.mp hall
        rw [List.filterMap_cons, hb]
        exact .cons hb (ih hall)

/-- As an option, a result is there if it is a success. -/
theorem toOption_eq_some_iff {x : Except ε α} {a : α} : x.toOption = some a ↔ x = .ok a := by
  cases x with
  | error fault =>
      constructor
      · intro h
        cases h
      · intro h
        cases h
  | ok a' =>
      constructor
      · intro h
        cases h
        rfl
      · intro h
        cases h
        rfl

end SignedRefs
