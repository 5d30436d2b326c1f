import Mathlib.Logic.Basic

/-! # Computations that may fail

How a sequence of two computations that throw ends well, and a computation for every item of a list. -/

namespace KushDB.Fallible

variable {ε α β : Type} {result : Except ε α} {next : α → Except ε β}
variable {value : β}

theorem bind_ok (h : (result >>= next) = .ok value) : ∃ found, result = .ok found ∧ next found = .ok value := by
  cases result with
  | error fault => cases h
  | ok found => exact ⟨found, rfl, h⟩

theorem bind_of_ok {value : α} (h : result = .ok value) : (result >>= next) = next value := by
  rw [h]
  rfl

theorem bind_eq_ok : (result >>= next) = .ok value ↔ ∃ found, result = .ok found ∧ next found = .ok value := by
  constructor
  · exact bind_ok
  · rintro ⟨found, hFound, h⟩
    rwa [bind_of_ok hFound]

/-- Computations that all return, one after the other. -/
theorem mapM_eq_pure {m : Type → Type} [Monad m] [LawfulMonad m] {g : α → m β} {h : α → β} {items : List α}
    (hItems : ∀ item ∈ items, g item = pure (h item)) : items.mapM g = pure (items.map h) := by
  induction items with
  | nil => exact List.mapM_nil
  | cons item rest ih =>
    rw [List.mapM_cons, hItems item List.mem_cons_self, pure_bind,
      ih fun other hOther => hItems other (List.mem_cons_of_mem _ hOther), pure_bind, List.map_cons]

end KushDB.Fallible
