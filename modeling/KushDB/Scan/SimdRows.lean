import KushDB.Scan.SimdScan

/-! # What one step of the SIMD scan selects

The scalar step tests a row against all filters. The vector step combines the filters as the operator asks for and
stores, of eight rows, those whose lane is set.
-/

namespace KushDB.Scan

open Execution Lanes
open List hiding Vector

def Column.at (column : Column) (row : Int) : Int := (load column.data row).getD 0

/-- The outcomes of the filters of all columns on a row. -/
def tests (columns : List Column) (row : Int) : List Bool :=
  columns.flatMap fun column => column.filters.map fun filter => filter.holds (column.at row)

/-- Row by row evaluation of the filters. -/
def selects (conjunction : Bool) (columns : List Column) (row : Int) : Bool :=
  if conjunction then (tests columns row).all id else (tests columns row).any id

def HasRow (columns : List Column) (row : Int) : Prop :=
  ∀ column ∈ columns, (load column.data row).isSome = true

def rowsFrom (first : Int) (count : Nat) : List Int := (List.range count).map fun step : Nat => first + step

theorem rowsFrom_add (first : Int) (count more : Nat) :
    rowsFrom first (count + more) = rowsFrom first count ++ rowsFrom (first + count) more := by
  simp only [rowsFrom, range_add, map_append, map_map]
  congr 2
  funext step
  simp only [Function.comp_apply]
  omega

variable {count : Nat} {first row : Int} {columns : List Column} {conjunction : Bool} {fill : Fill}

theorem mem_rowsFrom : row ∈ rowsFrom first count ↔ first ≤ row ∧ row < first + count := by
  simp only [rowsFrom, mem_map, mem_range]
  constructor
  · rintro ⟨step, hStep, rfl⟩
    omega
  · rintro ⟨hFirst, hLast⟩
    exact ⟨(row - first).toNat, by omega, by omega⟩

theorem length_rowsFrom (first : Int) (count : Nat) : (rowsFrom first count).length = count := by
  rw [rowsFrom, length_map, length_range]

theorem load_eq {column : Column} (h : (load column.data row).isSome = true) :
    load column.data row = some (column.at row) := by
  obtain ⟨data, hData⟩ := Option.isSome_iff_exists.mp h
  rw [Column.at, hData, Option.getD_some]

theorem passes_eq (h : HasRow columns row) : passes columns row = some (selects true columns row) := by
  rw [selects, if_pos rfl]
  induction columns with
  | nil => rfl
  | cons column columns ih =>
    have hRest : HasRow columns row := fun other hOther => h other (mem_cons_of_mem _ hOther)
    have hTests : (tests (column :: columns) row).all id =
        (column.filters.all (fun filter => filter.holds (column.at row)) && (tests columns row).all id) := by
      rw [tests, flatMap_cons, all_append, all_map]
      rfl
    rw [passes, ih hRest, load_eq (h column mem_cons_self), Option.bind_some, hTests]
    split
    · rename_i hEmpty
      rw [List.isEmpty_iff.mp hEmpty, all_nil, Bool.true_and]
    · split
      · rename_i hAll
        rw [hAll, Bool.true_and]
      · rename_i hAll
        rw [Bool.eq_false_iff.mpr hAll, Bool.false_and]

/-- The masks that the filters of all columns give eight rows. -/
def masks (columns : List Column) (row : Int) : List (Fin 8 → Bool) :=
  columns.flatMap fun column => column.filters.map fun filter lane => filter.holds (column.at (row + lane))

theorem simdMask_eq (h : ∀ lane : Fin 8, HasRow columns (row + lane)) (mask : Option (Fin 8 → Bool)) :
    simdMask conjunction row columns mask = some ((masks columns row).foldl (combine conjunction) mask) := by
  induction columns generalizing mask with
  | nil => rfl
  | cons column columns ih =>
    have hRest := ih fun lane other hOther => h lane other (mem_cons_of_mem _ hOther)
    have hLanes : ∀ lane : Fin 8, (load column.data (row + lane)).isSome = true :=
      fun lane => h lane column mem_cons_self
    have hLoad : simdLoad column.data row = some fun lane : Fin 8 => column.at (row + lane) := by
      rw [simdLoad, if_pos hLanes]
      rfl
    rw [simdMask, masks, flatMap_cons, foldl_append, foldl_map, hLoad, Option.bind_some]
    split
    · rename_i hEmpty
      rw [List.isEmpty_iff.mp hEmpty, hRest]
      rfl
    · exact hRest _

theorem foldl_combine (conjunction : Bool) (mask : Fin 8 → Bool) (rest : List (Fin 8 → Bool)) :
    rest.foldl (combine conjunction) (some mask) = some fun lane =>
      if conjunction then (mask :: rest).all (· lane) else (mask :: rest).any (· lane) := by
  induction rest generalizing mask with
  | nil =>
    cases conjunction <;> simp
  | cons other rest ih =>
    rw [foldl_cons, combine, ih]
    cases conjunction <;> simp [Bool.and_assoc, Bool.or_assoc]

theorem simdMask_none (h : ∀ lane : Fin 8, HasRow columns (row + lane))
    (hFilters : ∃ column ∈ columns, column.filters ≠ []) :
    simdMask conjunction row columns none =
      some (some fun lane : Fin 8 => selects conjunction columns (row + lane)) := by
  have hTests : ∀ lane : Fin 8, tests columns (row + lane) = (masks columns row).map (· lane) := by
    intro lane
    simp only [tests, masks, map_flatMap, map_map]
    rfl
  have hSome : masks columns row ≠ [] := by
    obtain ⟨column, hColumn, hNe⟩ := hFilters
    obtain ⟨filter, hFilter⟩ := exists_mem_of_ne_nil _ hNe
    exact ne_nil_of_mem (List.mem_flatMap.mpr ⟨column, hColumn, mem_map_of_mem hFilter⟩)
  obtain ⟨mask, rest, hMasks⟩ := exists_cons_of_ne_nil hSome
  rw [simdMask_eq h, hMasks, foldl_cons, combine, foldl_combine]
  congr 2
  funext lane
  rw [selects, hTests, hMasks]
  simp only [all_map, any_map, Function.comp_def, id]

/-! ## Filling the buffer -/

/-- The buffer holds what is selected of the rows from `first` up to the next one to look at. -/
structure Filled (select : Int → Bool) (first : Int) (count : Nat) (fill : Fill) : Prop where
  tupleIdx : fill.tupleIdx = first + count
  size : fill.size = ((rowsFrom first count).filter select).length
  buffer : fill.buffer.toList.take fill.size = (rowsFrom first count).filter select

theorem filled_zero (select : Int → Bool) (first : Int) (buffer : Vector Int bufferSize) :
    Filled select first 0 ⟨first, 0, buffer⟩ :=
  ⟨by simp, rfl, rfl⟩

theorem Filled.size_le {select : Int → Bool} (h : Filled select first count fill) : fill.size ≤ count := by
  rw [h.size]
  exact (length_filter_le _ _).trans_eq (length_rowsFrom first count)

/-- Storing what is selected of the next rows. -/
theorem Filled.extend {select : Int → Bool} {first : Int} {count : Nat} {fill : Fill}
    (h : Filled select first count fill) (more : Nat) {buffer : Vector Int bufferSize}
    (hBuffer : buffer.toList.take (fill.size + ((rowsFrom fill.tupleIdx more).filter select).length) =
      fill.buffer.toList.take fill.size ++ (rowsFrom fill.tupleIdx more).filter select) :
    Filled select first (count + more)
      ⟨fill.tupleIdx + more, fill.size + ((rowsFrom fill.tupleIdx more).filter select).length, buffer⟩ := by
  have hRows : (rowsFrom first (count + more)).filter select =
      (rowsFrom first count).filter select ++ (rowsFrom fill.tupleIdx more).filter select := by
    rw [rowsFrom_add, filter_append, h.tupleIdx]
  refine ⟨by simp only [h.tupleIdx]; omega, ?_, ?_⟩
  · rw [hRows, length_append, h.size]
  · rw [hRows, hBuffer, h.buffer]

theorem manualStep_spec (h : Filled (selects true columns) first count fill) (hRow : HasRow columns fill.tupleIdx)
    (hFits : fill.size < bufferSize) (hLow : 0 ≤ fill.tupleIdx) (hHigh : fill.tupleIdx + 1 < 2 ^ 31) :
    ∃ next, manualStep columns fill = some next ∧ Filled (selects true columns) first (count + 1) next := by
  have hNext : int32 (fill.tupleIdx + 1) = fill.tupleIdx + 1 := int32_eq (by omega) hHigh
  have hOne : rowsFrom fill.tupleIdx 1 = [fill.tupleIdx] := by simp [rowsFrom]
  rw [manualStep, passes_eq hRow, Option.bind_some, hNext]
  cases hPass : selects true columns fill.tupleIdx with
  | true =>
    have hRows : (rowsFrom fill.tupleIdx 1).filter (selects true columns) = [fill.tupleIdx] := by
      rw [hOne, filter_cons_of_pos hPass, filter_nil]
    obtain ⟨buffer, hStore, hTake⟩ := storeAll_spec fill.buffer fill.size [fill.tupleIdx] hFits
    have hExtend := @Filled.extend _ _ _ _ h 1 buffer (by rw [hRows]; exact hTake)
    rw [hRows] at hExtend
    exact ⟨_, by rw [if_pos rfl, hStore, Option.map_some]; rfl, hExtend⟩
  | false =>
    have hRows : (rowsFrom fill.tupleIdx 1).filter (selects true columns) = [] := by
      rw [hOne, filter_cons_of_neg (by rw [hPass]; exact Bool.false_ne_true), filter_nil]
    have hExtend := @Filled.extend _ _ _ _ h 1 fill.buffer (by rw [hRows]; simp)
    rw [hRows] at hExtend
    exact ⟨_, if_neg Bool.false_ne_true, hExtend⟩

theorem simdStep_spec (h : Filled (selects conjunction columns) first count fill)
    (hRows : ∀ lane : Fin 8, HasRow columns (fill.tupleIdx + lane)) (hFilters : ∃ column ∈ columns, column.filters ≠ [])
    (hFits : fill.size ≤ bufferSize - 8) (hLow : 0 ≤ fill.tupleIdx) (hHigh : fill.tupleIdx + 8 < 2 ^ 31) :
    ∃ next, simdStep conjunction columns fill = some next ∧
      Filled (selects conjunction columns) first (count + 8) next ∧
      next.size = fill.size + ((rowsFrom fill.tupleIdx 8).filter (selects conjunction columns)).length := by
  have hNext : int32 (fill.tupleIdx + 8) = fill.tupleIdx + 8 := int32_eq (by omega) hHigh
  have hLane : (fun lane : Fin 8 => int32 (fill.tupleIdx + lane)) =
      fun lane : Fin 8 => fill.tupleIdx + lane := by
    funext lane
    exact int32_eq (by omega) (by omega)
  have hSelected : ((List.finRange 8).filter fun lane : Fin 8 => selects conjunction columns (fill.tupleIdx + lane)).map
      (fun lane : Fin 8 => fill.tupleIdx + lane) = (rowsFrom fill.tupleIdx 8).filter (selects conjunction columns) := by
    rw [rowsFrom, ← map_coe_finRange_eq_range, map_map, filter_map]
    rfl
  have hLength := congrArg List.length hSelected
  rw [length_map] at hLength
  have hCount := (length_filter_le (selects conjunction columns) (rowsFrom fill.tupleIdx 8)).trans_eq
    (length_rowsFrom fill.tupleIdx 8)
  obtain ⟨buffer, hStore, hTake⟩ := @maskStore_compress Int 8 bufferSize 64 _ (by decide)
    (fun lane : Fin 8 => selects conjunction columns (fill.tupleIdx + lane)) (fun lane : Fin 8 => fill.tupleIdx + lane)
    fill.buffer fill.size (by rw [hLength]; unfold bufferSize at *; omega)
  rw [hSelected, hLength] at hTake
  rw [popcount_ofBits (by decide), hLength] at hStore
  have hExtend := h.extend 8 hTake
  refine ⟨_, ?_, hExtend, rfl⟩
  rw [simdStep, simdMask_none hRows hFilters, Option.bind_some, Option.bind_some]
  simp only [hLane, hNext, popcount_ofBits (show 8 ≤ 64 by decide), hLength, hStore, Option.map_some]
  rfl

end KushDB.Scan
