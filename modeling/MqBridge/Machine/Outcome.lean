import Mathlib.Logic.Basic

/-! Inversion of fallible computations: one that succeeds has succeeded in every
step. -/
namespace Outcome

universe u v
variable {E : Type u} {α β : Type v}

theorem bind_eq_ok {x : Except E α} {f : α → Except E β} {b : β} :
    x >>= f = .ok b ↔ ∃ a, x = .ok a ∧ f a = .ok b := by
  cases x with
  | error e => exact ⟨fun h => absurd h (by simp [bind, Except.bind]), fun ⟨_, h, _⟩ => by cases h⟩
  | ok a => exact ⟨fun h => ⟨a, rfl, h⟩, fun ⟨_, h, hf⟩ => by cases h; exact hf⟩

theorem map_eq_ok {x : Except E α} {f : α → β} {b : β} :
    x.map f = .ok b ↔ ∃ a, x = .ok a ∧ f a = b := by
  cases x with
  | error e =>
    constructor
    · intro h
      cases h
    · rintro ⟨_, h, _⟩
      cases h
  | ok a =>
    constructor
    · intro h
      exact ⟨a, rfl, Except.ok.inj h⟩
    · rintro ⟨_, h, rfl⟩
      cases h
      rfl

theorem mapError_eq_ok {E' : Type u} {x : Except E α} {f : E → E'} {a : α} :
    x.mapError f = .ok a ↔ x = .ok a := by
  constructor <;> intro h <;> cases x <;> cases h <;> rfl

/-- A list is mapped by mapping each of its elements. -/
theorem of_mem_zip {f : α → Except E β} {list : List α} {results : List β}
    (hList : list.mapM f = .ok results) {pair : α × β} (hMem : pair ∈ list.zip results) :
    f pair.1 = .ok pair.2 := by
  induction list generalizing results with
  | nil => cases hMem
  | cons a rest ih =>
    rw [List.mapM_cons] at hList
    obtain ⟨b, hHead, hRest⟩ := bind_eq_ok.mp hList
    obtain ⟨others, hOthers, hResults⟩ := bind_eq_ok.mp hRest
    cases hResults
    rcases List.mem_cons.mp hMem with rfl | hLater
    · exact hHead
    · exact ih hOthers hLater

end Outcome
