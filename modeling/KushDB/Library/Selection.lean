import Mathlib.Data.List.GetD

/-! # Some positions of a list

Keeping some positions of a list moves each kept element to the position that counts the kept ones before it.
-/

namespace KushDB.Selection

open List

variable {α β : Type}

def keep (kept : Nat → Bool) : List α → List α
  | [] => []
  | value :: values =>
    if kept 0 then value :: keep (fun i => kept (i + 1)) values else keep (fun i => kept (i + 1)) values

/-- The number of kept positions below a position. -/
def offset (kept : Nat → Bool) (i : Nat) : Nat :=
  (List.range i).countP kept

theorem offset_zero (kept : Nat → Bool) : offset kept 0 = 0 := rfl

theorem offset_succ (kept : Nat → Bool) (i : Nat) :
    offset kept (i + 1) = (if kept 0 then 1 else 0) + offset (fun i => kept (i + 1)) i := by
  rw [offset, range_succ_eq_map, countP_cons, countP_map, Nat.add_comm]
  rfl

theorem length_keep_le (kept : Nat → Bool) (values : List α) : (keep kept values).length ≤ values.length := by
  induction values generalizing kept with
  | nil => exact Nat.le_refl _
  | cons value values ih =>
    have hRest := ih fun i => kept (i + 1)
    rw [keep]
    split
    · exact Nat.succ_le_succ hRest
    · exact Nat.le_succ_of_le hRest

theorem keep_map (kept : Nat → Bool) (f : α → β) (values : List α) :
    keep kept (values.map f) = (keep kept values).map f := by
  induction values generalizing kept with
  | nil => rfl
  | cons value values ih =>
    rw [map_cons, keep, keep, ih]
    split
    · rfl
    · rfl

theorem keep_all (values : List α) : keep (fun _ => true) values = values := by
  induction values with
  | nil => rfl
  | cons value values ih => rw [keep, if_pos rfl, ih]

variable {kept : Nat → Bool} {values : List α}
variable {value : α}

theorem mem_of_mem_keep (h : value ∈ keep kept values) : value ∈ values := by
  induction values generalizing kept with
  | nil => exact h
  | cons first values ih =>
    rw [keep] at h
    split at h
    · rcases mem_cons.mp h with rfl | h
      · exact mem_cons_self
      · exact mem_cons_of_mem _ (ih h)
    · exact mem_cons_of_mem _ (ih h)

theorem getElem?_keep {i : Nat} (hKept : kept i = true) : (keep kept values)[offset kept i]? = values[i]? := by
  induction values generalizing kept i with
  | nil => rw [keep, getElem?_nil, getElem?_nil]
  | cons value values ih =>
    cases i with
    | zero => rw [keep, if_pos hKept, offset_zero, getElem?_cons_zero, getElem?_cons_zero]
    | succ i =>
      have hRest := @ih (fun i => kept (i + 1)) i hKept
      rw [keep, offset_succ, getElem?_cons_succ]
      split
      · rw [Nat.add_comm, getElem?_cons_succ, hRest]
      · rw [Nat.zero_add, hRest]

theorem mem_keep_iff : value ∈ keep kept values ↔ ∃ i, kept i = true ∧ values[i]? = some value := by
  constructor
  · intro h
    induction values generalizing kept with
    | nil => cases h
    | cons first values ih =>
      rw [keep] at h
      split at h
      · rename_i hFirst
        rcases mem_cons.mp h with rfl | h
        · exact ⟨0, hFirst, rfl⟩
        · obtain ⟨i, hKept, hValue⟩ := ih h
          exact ⟨i + 1, hKept, hValue⟩
      · obtain ⟨i, hKept, hValue⟩ := ih h
        exact ⟨i + 1, hKept, hValue⟩
  · rintro ⟨i, hKept, hValue⟩
    rw [← getElem?_keep hKept] at hValue
    exact mem_of_getElem? hValue

theorem keep_eq_nil_iff : keep kept values = [] ↔ ∀ i < values.length, kept i = false := by
  rw [eq_nil_iff_forall_not_mem]
  constructor
  · intro h i hi
    cases hKept : kept i with
    | false => rfl
    | true => exact absurd (mem_keep_iff.mpr ⟨i, hKept, getElem?_eq_getElem hi⟩) (h values[i])
  · intro h value hValue
    obtain ⟨i, hKept, hElement⟩ := mem_keep_iff.mp hValue
    rw [h i (List.getElem?_eq_some_iff.mp hElement).1] at hKept
    cases hKept

end KushDB.Selection
