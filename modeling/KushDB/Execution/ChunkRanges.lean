import KushDB.Execution.SplitPipeline

/-! # Chunks of a split pipeline

As long as no check of the loops fails, the calls of the body are for consecutive ranges that cover the input. The
end of the last chunk below the largest integer is where a check fails.
-/

namespace KushDB.Execution

open List

def rowsOf (call : Int × Int) : List Int :=
  (List.range (call.2 + 1 - call.1).toNat).map (fun (offset : Nat) => call.1 + offset)

/-- Non-empty ranges of at most one chunk, whose rows are those of the input, each once and in order. -/
structure Partitions (inputSize : Nat) (calls : List (Int × Int)) : Prop where
  order : ∀ call ∈ calls, call.1 ≤ call.2
  size : ∀ call ∈ calls, call.2 + 1 - call.1 ≤ chunkSize
  rows : calls.flatMap rowsOf = (List.range inputSize).map (fun (row : Nat) => (row : Int))

/-- The rows of the first chunks. -/
theorem flatMap_rowsOf {inputSize count : Nat} (hCount : count ≤ numChunks inputSize) :
    (List.range count).flatMap (fun number => rowsOf (chunkCall inputSize number)) =
      (List.range (min (8192 * count) inputSize)).map (fun (row : Nat) => (row : Int)) := by
  induction count with
  | zero => simp
  | succ count ih =>
    have hLess : 8192 * count < inputSize := by
      unfold numChunks at hCount
      omega
    have hRows : ((chunkCall inputSize count).2 + 1 - (chunkCall inputSize count).1).toNat =
        min 8192 (inputSize - 8192 * count) := by
      simp only [chunkCall]
      omega
    have hSplit : min (8192 * (count + 1)) inputSize = 8192 * count + min 8192 (inputSize - 8192 * count) := by omega
    rw [range_succ, flatMap_append, ih (by omega), hSplit, range_add, map_append, flatMap_singleton, rowsOf, hRows,
      Nat.min_eq_left hLess.le, map_map]
    congr 1

theorem partitions_chunks (inputSize : Nat) :
    Partitions inputSize ((List.range (numChunks inputSize)).map (chunkCall inputSize)) := by
  have hEach : ∀ call ∈ (List.range (numChunks inputSize)).map (chunkCall inputSize),
      call.1 ≤ call.2 ∧ call.2 + 1 - call.1 ≤ chunkSize := by
    intro call hMem
    obtain ⟨number, hNumber, rfl⟩ := mem_map.mp hMem
    have hLt := mem_range.mp hNumber
    simp only [chunkCall, numChunks, chunkSize] at hLt ⊢
    omega
  refine ⟨fun call hMem => (hEach call hMem).1, fun call hMem => (hEach call hMem).2, ?_⟩
  have hAll : min (8192 * numChunks inputSize) inputSize = inputSize := by
    unfold numChunks
    omega
  rw [flatMap_map, flatMap_rowsOf le_rfl, hAll]

/-- With enough rounds the loops end, nothing overflows and the calls partition the input. -/
def RunsInChunks (mode : PipelineMode) (inputSize : Nat) : Prop :=
  ∃ enough, ∀ rounds, enough < rounds →
    ∃ calls, checkedSplitPipeline mode inputSize rounds = .ok calls ∧ Partitions inputSize calls

theorem runsInChunks_iff (mode : PipelineMode) {inputSize : Nat} (hFits : inputSize < 2 ^ 31) :
    RunsInChunks mode inputSize ↔ inputSize ≤ 2 ^ 31 - 2 ^ 13 := by
  constructor
  · rintro ⟨enough, hRuns⟩
    by_contra hFull
    obtain ⟨calls, hCalls, -⟩ := hRuns (max enough (2 ^ 18) + 1) (by omega)
    rw [checkedSplitPipeline_overflow mode hFits (by omega) (by omega)] at hCalls
    exact absurd hCalls (by simp)
  · intro hRoom
    exact ⟨numChunks inputSize, fun rounds hRounds =>
      ⟨_, checkedSplitPipeline_chunks mode hRoom hRounds, partitions_chunks inputSize⟩⟩

theorem runsInChunks_million : RunsInChunks (.adaptive true) 1000000 :=
  (runsInChunks_iff (.adaptive true) (by decide)).mpr (by decide)

theorem not_runsInChunks_max : ¬ RunsInChunks .static 2147483647 := by
  rintro ⟨enough, hRuns⟩
  obtain ⟨calls, hCalls, -⟩ := hRuns (max enough (2 ^ 18) + 1) (by omega)
  rw [checkedSplitPipeline_overflow .static (by omega) (by omega) (by omega)] at hCalls
  exact absurd hCalls (by simp)

end KushDB.Execution
