import KushDB.Execution.ChunkRanges
import KushDB.Scan.SimdLoops

/-! # A SIMD scan under chunked execution

A plan that the translator accepts has a filter. If its filters are to hold together, the chunks of the pipeline
hand out, one after the other, the rows of the table that pass all filters.
-/

namespace KushDB.Scan

open Execution Fallible
open List hiding Vector

variable {F : Type}

theorem translateColumn_data {plan : PlanColumn F} {column : Column} (h : translateColumn plan = .ok column) :
    column.data = plan.data := by
  obtain ⟨filters, -, h⟩ := bind_ok h
  cases h
  rfl

variable {columns : List Column} {plan : List (PlanColumn F)} {rows : Nat}

theorem mapM_translateColumn_data (h : plan.mapM translateColumn = .ok columns) :
    columns.map Column.data = plan.map PlanColumn.data := by
  induction plan generalizing columns with
  | nil =>
    cases h
    rfl
  | cons first plan ih =>
    rw [mapM_cons] at h
    obtain ⟨column, hFirst, h⟩ := bind_ok h
    obtain ⟨rest, hRest, h⟩ := bind_ok h
    cases h
    rw [map_cons, map_cons, translateColumn_data hFirst, ih hRest]

theorem translate_spec (h : translate plan = .ok columns) :
    columns.map Column.data = plan.map PlanColumn.data ∧ ∃ column ∈ columns, column.filters ≠ [] := by
  obtain ⟨_, -, h⟩ := bind_ok h
  obtain ⟨translated, hColumns, h⟩ := bind_ok h
  split at h
  · cases h
  · rename_i hSome
    cases h
    refine ⟨mapM_translateColumn_data hColumns, ?_⟩
    simpa [all_eq_true] using hSome

theorem rowsOf_chunkCall {number : Nat} (hLess : 8192 * number < rows) :
    rowsOf (chunkCall rows number) = rowsFrom ((8192 * number : Nat) : Int) (min 8192 (rows - 8192 * number)) := by
  have hLength : ((chunkCall rows number).2 + 1 - (chunkCall rows number).1).toNat =
      min 8192 (rows - 8192 * number) := by
    simp only [chunkCall]
    omega
  rw [rowsOf, hLength]
  rfl

/-- The scans of the chunks all return, whatever the earlier ones left in the buffer, and what they hand out are the rows
that pass every filter. -/
theorem scan_pipeline {rounds : Nat} (h : translate plan = .ok columns)
    (hRows : ∀ column ∈ plan, column.data.length = rows) (hRoom : rows ≤ 2 ^ 31 - 2 ^ 13) (mode : PipelineMode)
    (buffer : Int → Vector Int bufferSize) (hRounds : max 8192 (numChunks rows) < rounds) :
    ∃ calls, checkedSplitPipeline mode rows rounds = .ok calls ∧
      (calls.mapM fun call => produce true columns call.1 call.2 (buffer call.1) rounds).map List.flatten =
        some ((rowsFrom 0 rows).filter (selects true columns)) := by
  obtain ⟨hData, hFilters⟩ := translate_spec h
  have hLengths : ∀ column ∈ columns, column.data.length = rows := by
    intro column hColumn
    have hMem : column.data ∈ plan.map PlanColumn.data := hData ▸ mem_map_of_mem hColumn
    obtain ⟨planned, hPlanned, hEq⟩ := List.mem_map.mp hMem
    rw [← hEq, hRows planned hPlanned]
  refine ⟨_, checkedSplitPipeline_chunks mode hRoom (by omega), ?_⟩
  have hReturns : ∀ call ∈ (List.range (numChunks rows)).map (chunkCall rows),
      produce true columns call.1 call.2 (buffer call.1) rounds = pure ((rowsOf call).filter (selects true columns)) := by
    intro call hCall
    obtain ⟨number, hNumber, rfl⟩ := List.mem_map.mp hCall
    have hLess : 8192 * number < rows := by
      have hLt := List.mem_range.mp hNumber
      unfold numChunks at hLt
      omega
    have hExact : SelectsExactly true columns (8192 * number : Nat) (min (8192 * number + 8191) (rows - 1) : Nat) :=
      (selectsExactly_iff_agree hLengths hFilters (by omega) (by omega) (by omega)).mpr fun _ _ => rfl
    have hLength : (((min (8192 * number + 8191) (rows - 1) : Nat) : Int) + 1 - ((8192 * number : Nat) : Int)).toNat =
        min 8192 (rows - 8192 * number) := by omega
    refine (hExact (buffer (8192 * number : Nat)) rounds (by omega)).trans ?_
    rw [hLength, rowsOf_chunkCall hLess]
    rfl
  rw [mapM_eq_pure hReturns]
  change some ((((List.range (numChunks rows)).map (chunkCall rows)).map _).flatten) = _
  rw [← flatMap_def, ← filter_flatMap, (partitions_chunks rows).rows]
  simp [rowsFrom]

/-- Twenty thousand rows, every other one of them a one: three chunks. -/
def alternating : List Int :=
  (List.range 20000).map fun row : Nat => (row : Int) % 2

theorem scan_pipeline_alternating :
    translate [(⟨.int, false, [⟨.eq, .int 1, false⟩], alternating⟩ : PlanColumn Rat)] =
      .ok [⟨alternating, [⟨.eq, 1⟩]⟩] ∧
    numChunks 20000 = 3 ∧ ∃ calls, checkedSplitPipeline (.adaptive true) (20000 : Nat) 8193 = .ok calls ∧
      (calls.mapM fun call => produce true [⟨alternating, [⟨.eq, 1⟩]⟩] call.1 call.2 (Vector.replicate bufferSize 0)
        8193).map List.flatten = some ((rowsFrom 0 20000).filter (selects true [⟨alternating, [⟨.eq, 1⟩]⟩])) := by
  have hTranslate : ∀ data : List Int, translate [(⟨.int, false, [⟨.eq, .int 1, false⟩], data⟩ : PlanColumn Rat)] =
      .ok [⟨data, [⟨.eq, 1⟩]⟩] := fun _ => rfl
  exact ⟨hTranslate alternating, by decide, scan_pipeline (hTranslate alternating) (by simp [alternating]) (by decide)
    (.adaptive true) (fun _ => Vector.replicate bufferSize 0) (by decide)⟩

end KushDB.Scan
