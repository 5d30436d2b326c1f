import Mathlib.Order.Lattice
import Mathlib.Data.List.Basic
import Mathlib.Data.List.Perm.Subperm
import Mathlib.Order.Nat

/-! # Positions in ascending lists

In a strictly ascending list the entries from a value on are a tail. `rank` is where that tail begins; a cursor that
runs through the list stands at a rank, and what lies before it can be told from the values alone.
-/

namespace KushDB.Ascending

open List

variable {A : Type} [LinearOrder A] {entries : List A} {value : A}

/-- The position of the first entry that is not below the value, or the length. -/
def rank (entries : List A) (value : A) : Nat := entries.findIdx fun entry => value ≤ entry

theorem rank_le_length : rank entries value ≤ entries.length := findIdx_le_length

variable {index : Nat}

theorem getElem_lt_of_lt_rank (h : index < rank entries value) (hIndex : index < entries.length) :
    entries[index] < value := by
  have hNot := not_of_lt_findIdx h
  simpa using hNot

theorem le_getElem_rank (h : rank entries value < entries.length) : value ≤ entries[rank entries value] := by
  have hFound := @List.findIdx_getElem A (fun entry => decide (value ≤ entry)) entries h
  exact of_decide_eq_true hFound

/-- A position with smaller entries before it and no smaller ones from it on is the rank. -/
theorem rank_eq (hIndex : index ≤ entries.length)
    (hBelow : ∀ position, (h : position < entries.length) → position < index → entries[position] < value)
    (hAbove : ∀ position, (h : position < entries.length) → index ≤ position → value ≤ entries[position]) :
    rank entries value = index := by
  apply le_antisymm
  · by_contra hGt
    have hLength : index < entries.length := (not_le.mp hGt).trans_le rank_le_length
    exact absurd (getElem_lt_of_lt_rank (not_le.mp hGt) hLength) (not_lt.mpr (hAbove index hLength le_rfl))
  · by_contra hLt
    have hLength : rank entries value < entries.length := (not_le.mp hLt).trans_le hIndex
    exact absurd (hBelow _ hLength (not_le.mp hLt)) (not_lt.mpr (le_getElem_rank hLength))

variable {start : Nat} {entry : A}

omit [LinearOrder A] in
/-- Entries that are not kept may be skipped. -/
theorem filter_drop_eq {keep : A → Bool} {stop : Nat} (h : start ≤ stop)
    (hSkipped : ∀ index, (hIndex : index < entries.length) → start ≤ index → index < stop → keep entries[index] = false) :
    (entries.drop start).filter keep = (entries.drop stop).filter keep := by
  induction h with
  | refl => rfl
  | @step stop h ih =>
    rw [ih fun index hIndex hStart hStop => hSkipped index hIndex hStart (by omega)]
    by_cases hLength : stop < entries.length
    · rw [drop_eq_getElem_cons hLength, filter_cons_of_neg]
      rw [hSkipped stop hLength h (by omega)]
      exact Bool.false_ne_true
    · rw [drop_eq_nil_of_le (by omega), drop_eq_nil_of_le (by omega)]

variable (hAscending : entries.Pairwise (· < ·))

include hAscending

theorem getElem_lt_getElem {left right : Nat} (h : left < right) (hRight : right < entries.length) :
    entries[left] < entries[right] := pairwise_iff_getElem.mp hAscending left right (h.trans hRight) hRight h

theorem le_getElem_of_rank_le (h : rank entries value ≤ index) (hIndex : index < entries.length) :
    value ≤ entries[index] := by
  have hFirst := le_getElem_rank (h.trans_lt hIndex)
  rcases h.lt_or_eq with hLt | rfl
  · exact hFirst.trans (getElem_lt_getElem hAscending hLt hIndex).le
  · exact hFirst

theorem rank_getElem (hIndex : index < entries.length) : rank entries entries[index] = index := by
  apply rank_eq hIndex.le
  · exact fun position hPosition hLt => getElem_lt_getElem hAscending hLt hIndex
  · intro position hPosition hLe
    rcases hLe.lt_or_eq with hLt | rfl
    · exact (getElem_lt_getElem hAscending hLt hPosition).le
    · exact le_rfl

theorem rank_lt_length_of_mem (h : value ∈ entries) : rank entries value < entries.length := by
  obtain ⟨index, hIndex, rfl⟩ := mem_iff_getElem.mp h
  rwa [rank_getElem hAscending hIndex]

theorem getElem?_rank_of_mem (h : value ∈ entries) : entries[rank entries value]? = some value := by
  obtain ⟨index, hIndex, rfl⟩ := mem_iff_getElem.mp h
  rw [rank_getElem hAscending hIndex, getElem?_eq_getElem hIndex]

/-- The entries from a value on. -/
theorem mem_drop_rank {entry : A} : entry ∈ entries.drop (rank entries value) ↔ entry ∈ entries ∧ value ≤ entry := by
  constructor
  · intro h
    obtain ⟨index, hIndex, rfl⟩ := mem_iff_getElem.mp h
    rw [getElem_drop]
    rw [length_drop] at hIndex
    exact ⟨getElem_mem _, le_getElem_of_rank_le hAscending (Nat.le_add_right _ _) (by omega)⟩
  · rintro ⟨hEntry, hLe⟩
    obtain ⟨index, hIndex, rfl⟩ := mem_iff_getElem.mp hEntry
    have hRank : rank entries value ≤ index := by
      by_contra hBefore
      exact absurd (getElem_lt_of_lt_rank (not_le.mp hBefore) hIndex) (not_lt.mpr hLe)
    refine mem_iff_getElem.mpr ⟨index - rank entries value, by rw [length_drop]; omega, ?_⟩
    simp only [getElem_drop, Nat.add_sub_cancel' hRank]

theorem mem_drop_of_le (hValue : value ∈ entries.drop start) (hEntry : entry ∈ entries) (hLe : value ≤ entry) :
    entry ∈ entries.drop start := by
  obtain ⟨index, hIndex, rfl⟩ := mem_iff_getElem.mp hValue
  rw [getElem_drop] at hLe
  rw [length_drop] at hIndex
  have hTail := (mem_drop_rank hAscending).mpr ⟨hEntry, hLe⟩
  rw [rank_getElem hAscending (by omega)] at hTail
  exact drop_subset_drop_left _ (Nat.le_add_right start index) hTail

theorem mem_drop_succ (h : entries[index]? = some value) :
    entry ∈ entries.drop (index + 1) ↔ entry ∈ entries ∧ value < entry := by
  obtain ⟨hIndex, rfl⟩ := List.getElem?_eq_some_iff.mp h
  have hTail := @mem_drop_rank A _ entries entries[index] hAscending entry
  have hPairwise := hAscending.sublist (drop_sublist index entries)
  rw [rank_getElem hAscending hIndex, drop_eq_getElem_cons hIndex] at hTail
  rw [drop_eq_getElem_cons hIndex] at hPairwise
  constructor
  · intro hEntry
    exact ⟨mem_of_mem_drop hEntry, (pairwise_cons.mp hPairwise).1 entry hEntry⟩
  · rintro ⟨hEntry, hLt⟩
    exact (mem_cons.mp (hTail.mpr ⟨hEntry, hLt.le⟩)).resolve_left hLt.ne'

/-- An ascending list is determined by its entries. -/
theorem eq_of_mem_iff {others : List A} (hOthers : others.Pairwise (· < ·))
    (h : ∀ entry, entry ∈ entries ↔ entry ∈ others) : entries = others :=
  ((perm_ext_iff_of_nodup (hAscending.imp ne_of_lt) (hOthers.imp ne_of_lt)).mpr h).eq_of_pairwise
    (fun _ _ _ _ hLt hGt => absurd hLt hGt.asymm) hAscending hOthers

theorem drop_rank : entries.drop (rank entries value) = entries.filter fun entry => value ≤ entry := by
  refine eq_of_mem_iff (hAscending.sublist (drop_sublist _ _)) (hAscending.filter _) fun entry => ?_
  rw [mem_drop_rank hAscending, mem_filter, decide_eq_true_iff]

theorem drop_rank_succ (h : value ∈ entries) :
    entries.drop (rank entries value + 1) = entries.filter fun entry => value < entry := by
  refine eq_of_mem_iff (hAscending.sublist (drop_sublist _ _)) (hAscending.filter _) fun entry => ?_
  rw [mem_drop_succ hAscending (getElem?_rank_of_mem hAscending h), mem_filter, decide_eq_true_iff]

end KushDB.Ascending
