import Mathlib.Data.List.GetD
import Mathlib.Data.List.Nodup
import Mathlib.Data.List.Sections

/-! # One element of each list

`List.sections` enumerates the ways to choose one element of each of several lists, as often as the elements occur.
Choosing from filtered lists filters the choices, and every choice is a choice of positions.
-/

namespace KushDB.Choices

open List

variable {α : Type}

/-- To choose from mapped lists is to map the choices. -/
theorem sections_mapIdx {β : Type} (f : Nat → α → β) (lists : List (List α)) :
    (lists.mapIdx fun i list => list.map (f i)).sections = lists.sections.map fun choice => choice.mapIdx f := by
  induction lists generalizing f with
  | nil => rfl
  | cons list lists ih =>
    rw [mapIdx_cons, List.sections, List.sections, ih fun i => f (i + 1), flatMap_map, map_flatMap]
    refine flatMap_congr fun choice _ => ?_
    rw [map_map, map_map]
    exact map_congr_left fun value _ => mapIdx_cons.symm

variable {lists : List (List α)}

theorem sections_of_nil_mem (h : [] ∈ lists) : lists.sections = [] := by
  induction lists with
  | nil => exact absurd h not_mem_nil
  | cons list lists ih =>
    rw [List.sections]
    rcases mem_cons.mp h with rfl | hIn
    · exact flatMap_eq_nil_iff.mpr fun _ _ => rfl
    · rw [ih hIn, flatMap_nil]

theorem nodup_sections (h : ∀ list ∈ lists, list.Nodup) : lists.sections.Nodup := by
  induction lists with
  | nil => exact nodup_singleton _
  | cons list lists ih =>
    obtain ⟨hList, hLists⟩ := forall_mem_cons.mp h
    rw [List.sections, nodup_flatMap]
    refine ⟨fun choice _ => hList.map fun x y hEq => (List.cons.inj hEq).1, (ih hLists).imp ?_⟩
    intro choice other hNe found hFound hOther
    obtain ⟨x, -, rfl⟩ := mem_map.mp hFound
    obtain ⟨y, -, hEq⟩ := mem_map.mp hOther
    exact hNe (List.cons.inj hEq).2.symm

/-- The choices of a position in each list. -/
def positions (lists : List (List α)) : List (List Nat) := (lists.map fun list => List.range list.length).sections

/-- What the positions hold. -/
def pick (default : α) (lists : List (List α)) (choice : List Nat) : List α :=
  List.zipWith (fun list position => list.getD position default) lists choice

theorem nodup_positions (lists : List (List α)) : (positions lists).Nodup := by
  refine nodup_sections fun list hList => ?_
  obtain ⟨other, -, rfl⟩ := mem_map.mp hList
  exact nodup_range

theorem mem_positions {choice : List Nat} :
    choice ∈ positions lists ↔ List.Forall₂ (fun position list => position < list.length) choice lists := by
  rw [positions, mem_sections, List.forall₂_map_right_iff]
  simp only [mem_range]

theorem sections_eq_pick (default : α) (lists : List (List α)) :
    lists.sections = (positions lists).map (pick default lists) := by
  induction lists with
  | nil => rfl
  | cons list lists ih =>
    have hList : list = (List.range list.length).map fun position => list.getD position default := by
      refine ext_getElem (by simp) fun i hLeft hRight => ?_
      rw [getElem_map, getElem_range, getD_eq_getElem _ _ hLeft]
    have hPositions : positions (list :: lists) =
        (positions lists).flatMap fun choice => (List.range list.length).map (· :: choice) := rfl
    rw [hPositions, map_flatMap, List.sections, ih, flatMap_map]
    refine congrArg (fun next => (positions lists).flatMap next) (funext fun choice => ?_)
    rw [map_map]
    nth_rewrite 1 [hList]
    rw [map_map]
    rfl

end KushDB.Choices
