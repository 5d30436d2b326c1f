import Mathlib.Logic.Function.Basic

/-! # Folds that work on one key at a time

Each step of the fold reads and writes the entry of one key. The fold is then a fold at every key on its own, over the
elements with that key, and it fails exactly when one of those fails.
-/

namespace KushDB.KeyedFold

open List

section

variable {α κ σ : Type} [DecidableEq κ] (step : σ → α → Option σ) (key : α → κ)

def updateAt (entries : κ → σ) (element : α) : Option (κ → σ) :=
  (step (entries (key element)) element).map (Function.update entries (key element))

theorem foldlM_updateAt (elements : List α) (entries result : κ → σ) :
    elements.foldlM (updateAt step key) entries = some result ↔
      ∀ k, (elements.filter fun element => key element = k).foldlM step (entries k) = some (result k) := by
  induction elements generalizing entries with
  | nil =>
    simp only [foldlM_nil, filter_nil]
    constructor
    · intro h k
      cases h
      rfl
    · intro h
      exact congrArg some (funext fun k => Option.some.inj (h k))
  | cons element elements ih =>
    rw [foldlM_cons, updateAt]
    cases hStep : step (entries (key element)) element with
    | none =>
      refine iff_of_false (by simp) fun h => ?_
      have hKey := h (key element)
      rw [filter_cons_of_pos (by simp), foldlM_cons, hStep] at hKey
      cases hKey
    | some entry =>
      refine (ih _).trans (forall_congr' fun k => ?_)
      by_cases hKey : key element = k
      · subst hKey
        rw [filter_cons_of_pos (by simp), foldlM_cons, hStep, Function.update_self]
        rfl
      · rw [filter_cons_of_neg (by simpa using hKey), Function.update_of_ne (Ne.symm hKey)]

theorem exists_foldlM_updateAt (elements : List α) (entries : κ → σ) :
    (∃ result, elements.foldlM (updateAt step key) entries = some result) ↔
      ∀ k, ∃ entry, (elements.filter fun element => key element = k).foldlM step (entries k) = some entry := by
  simp only [foldlM_updateAt]
  constructor
  · rintro ⟨result, h⟩ k
    exact ⟨result k, h k⟩
  · intro h
    exact ⟨fun k => Classical.choose (h k), fun k => Classical.choose_spec (h k)⟩

end

end KushDB.KeyedFold
