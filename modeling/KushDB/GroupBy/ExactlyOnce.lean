import KushDB.GroupBy.HashDirectory
import Mathlib.Algebra.BigOperators.Group.List.Basic
import Mathlib.Algebra.Order.BigOperators.Group.List

/-! # Which groups the output pipeline hands out

`ForEach` starts at the beginning of the block that its first payload lies in. A chunk that begins within a block
hands out the payloads before it once more, so the output is right exactly if every chunk begins with a block.
-/

namespace KushDB.GroupBy

open KushDB.Execution List

namespace AggregateHashTable

section

variable {P : Type} (ht : AggregateHashTable P)

/-- A block hands out what stands at its places. -/
theorem blockLoop_eq (blockIdx loopEnd blockOffset : Nat) :
    ht.blockLoop blockIdx loopEnd blockOffset =
      (ht.blockPlaces blockIdx loopEnd blockOffset).map fun place => ht.getPayload place.1 place.2 := by
  fun_induction blockPlaces with
  | case1 blockOffset hFits ih => rw [blockLoop, if_pos hFits, ih, map_cons]
  | case2 blockOffset hEnd => rw [blockLoop, if_neg hEnd, map_nil]

theorem blockLoop_payloads (full : Nat) {loopEnd : Nat} (h : loopEnd / ht.payloadSize ≤ ht.tuplesPerBlock) :
    ht.blockLoop (full + 1) loopEnd 0 =
      (List.range' (ht.tuplesPerBlock * full) (loopEnd / ht.payloadSize)).map ht.payloadAt := by
  rw [blockLoop_eq, ht.blockPlaces_placeOf full h, map_map, Nat.mul_comm]
  rfl

theorem blocksLoop_eq {full last count : Nat} (hCount : full + count = last / ht.tuplesPerBlock) :
    ht.blocksLoop (ht.computeBlockIdx last) (ht.computeBlockOffset last + ht.payloadSize) (full + 1) =
      (List.range' (ht.tuplesPerBlock * full) (last + 1 - ht.tuplesPerBlock * full)).map ht.payloadAt := by
  have hPos := ht.tuplesPerBlock_pos
  have hMod := Nat.mod_lt last hPos
  have hLast := Nat.div_add_mod last ht.tuplesPerBlock
  rw [computeBlockIdx]
  induction count generalizing full with
  | zero =>
    obtain rfl : full = last / ht.tuplesPerBlock := by omega
    have hUsed : (ht.computeBlockOffset last + ht.payloadSize) / ht.payloadSize = last % ht.tuplesPerBlock + 1 := by
      rw [computeBlockOffset, ← Nat.mul_succ, Nat.mul_div_cancel_left _ ht.payloadSize_pos]
    rw [blocksLoop, if_pos le_rfl]
    simp only [if_true]
    rw [blocksLoop, if_neg (by omega), append_nil, blockLoop_payloads ht _ (by omega), hUsed,
      show last + 1 - ht.tuplesPerBlock * (last / ht.tuplesPerBlock) = last % ht.tuplesPerBlock + 1 by omega]
  | succ count ih =>
    have hNext := Nat.mul_le_mul_left ht.tuplesPerBlock (show full + 1 ≤ last / ht.tuplesPerBlock by omega)
    rw [Nat.mul_succ] at hNext
    have hFull : ∀ loopEnd, loopEnd = blockSize → loopEnd / ht.payloadSize = ht.tuplesPerBlock := by
      rintro _ rfl
      rfl
    rw [blocksLoop, if_pos (by omega)]
    simp only
    rw [if_neg (by omega), ih (by omega), blockLoop_payloads ht full (hFull _ rfl).le, hFull _ rfl,
      ← map_append, Nat.mul_succ, List.range'_append_1,
      show ht.tuplesPerBlock + (last + 1 - (ht.tuplesPerBlock * full + ht.tuplesPerBlock)) =
        last + 1 - ht.tuplesPerBlock * full by omega]

/-- A range of payload numbers is handed out from the beginning of its first block. -/
theorem forEach_eq {first last : Nat} (h : first ≤ last) :
    ht.forEach first last = (List.range' (first - first % ht.tuplesPerBlock)
      (last + 1 - (first - first % ht.tuplesPerBlock))).map ht.payloadAt := by
  have hDiv := Nat.div_add_mod first ht.tuplesPerBlock
  have hLe := Nat.div_le_div_right (c := ht.tuplesPerBlock) h
  have hLoop := @blocksLoop_eq P ht (first / ht.tuplesPerBlock) last
    (last / ht.tuplesPerBlock - first / ht.tuplesPerBlock) (by omega)
  rw [show first - first % ht.tuplesPerBlock = ht.tuplesPerBlock * (first / ht.tuplesPerBlock) by omega, ← hLoop]
  rfl

end

section

variable {P : Type} {ht : AggregateHashTable P}
variable {inputSize : Nat} {groups : List P}
variable {number count : Nat}

/-- A chunk that begins with a block hands out its own payloads. -/
theorem chunk_of_dvd (hLt : 8192 * number < inputSize) (h : ht.tuplesPerBlock ∣ 8192 * number) :
    chunk inputSize ht.forEach number =
      (List.range' (8192 * number) (min 8192 (inputSize - 8192 * number))).map ht.payloadAt := by
  simp only [chunk, chunkCall]
  rw [forEach_eq ht (by omega), Nat.mod_eq_zero_of_dvd h, Nat.sub_zero,
    show min (8192 * number + 8191) (inputSize - 1) + 1 - 8192 * number = min 8192 (inputSize - 8192 * number) by omega]

theorem length_chunk (hLt : 8192 * number < inputSize) :
    (chunk inputSize ht.forEach number).length =
      min 8192 (inputSize - 8192 * number) + 8192 * number % ht.tuplesPerBlock := by
  have hLe := Nat.mod_le (8192 * number) ht.tuplesPerBlock
  simp only [chunk, chunkCall]
  rw [forEach_eq ht (by omega), length_map, length_range']
  omega

theorem chunks_of_dvd (hCount : count ≤ numChunks inputSize) (h : ∀ number < count, ht.tuplesPerBlock ∣ 8192 * number) :
    (List.range count).flatMap (chunk inputSize ht.forEach) =
      (List.range (min inputSize (8192 * count))).map ht.payloadAt := by
  induction count with
  | zero => simp
  | succ count ih =>
    have hLt : 8192 * count < inputSize := by
      unfold numChunks at hCount
      omega
    rw [range_succ, flatMap_append, ih (by omega) fun number hNumber => h number (by omega),
      flatMap_singleton, chunk_of_dvd hLt (h count (by omega)), ← map_append, min_eq_right hLt.le,
      range_eq_range', range_eq_range',
      show List.range' (8192 * count) (min 8192 (inputSize - 8192 * count)) =
        List.range' (0 + 8192 * count) (min 8192 (inputSize - 8192 * count)) by rw [Nat.zero_add], List.range'_append_1,
      show 8192 * count + min 8192 (inputSize - 8192 * count) = min inputSize (8192 * (count + 1)) by omega]

/-- Every chunk adds the payloads between the beginning of its first block and its own first payload. -/
theorem length_chunks (hCount : count ≤ numChunks inputSize) :
    ((List.range count).flatMap (chunk inputSize ht.forEach)).length =
      min inputSize (8192 * count) + ((List.range count).map fun number => 8192 * number % ht.tuplesPerBlock).sum := by
  induction count with
  | zero => simp
  | succ count ih =>
    have hLt : 8192 * count < inputSize := by
      unfold numChunks at hCount
      omega
    rw [range_succ, flatMap_append, length_append, ih (by omega), flatMap_singleton,
      length_chunk hLt, map_append, sum_append, map_singleton, sum_singleton]
    omega

/-- The output pipeline, run over as many tuples as the table says it has, hands out every group once. -/
def HandsOutOnce (ht : AggregateHashTable P) (groups : List P) (mode : PipelineMode) : Prop :=
  ∃ calls, (∀ rounds, groups.length < rounds → executeSplitPipeline mode ht.forEach ht.size rounds = .ok calls) ∧
    calls.Perm (groups.map some)

theorem map_payloadAt (h : Stores ht groups) : (List.range groups.length).map ht.payloadAt = groups.map some := by
  refine ext_getElem? fun idx => ?_
  rw [getElem?_map, getElem?_map]
  by_cases hIdx : idx < groups.length
  · rw [getElem?_range hIdx, getElem?_eq_getElem hIdx, Option.map_some, h.payload idx hIdx,
      getElem?_eq_getElem hIdx, Option.map_some]
  · rw [getElem?_eq_none (by simpa using hIdx), getElem?_eq_none (by simpa using hIdx)]
    rfl

theorem handsOutOnce_iff_dvd (h : Stores ht groups) (hRoom : groups.length ≤ 2 ^ 31 - 2 ^ 13) (mode : PipelineMode) :
    HandsOutOnce ht groups mode ↔ ∀ number < numChunks groups.length, ht.tuplesPerBlock ∣ 8192 * number := by
  have hSize := size_eq h (by omega)
  have hChunks : numChunks groups.length ≤ groups.length := by
    unfold numChunks
    omega
  have hAll : min groups.length (8192 * numChunks groups.length) = groups.length := by
    unfold numChunks
    omega
  have hRun : ∀ rounds, groups.length < rounds → executeSplitPipeline mode ht.forEach ht.size rounds =
      .ok ((List.range (numChunks groups.length)).flatMap (chunk groups.length ht.forEach)) := by
    intro rounds hRounds
    rw [hSize]
    exact executeSplitPipeline_eq mode ht.forEach hRoom (by omega)
  constructor
  · rintro ⟨calls, hCalls, hPerm⟩ number hNumber
    have hEq := (hCalls _ (Nat.lt_succ_self _)).symm.trans (hRun _ (Nat.lt_succ_self _))
    have hLength := hPerm.length_eq
    rw [Except.ok.inj hEq, length_chunks le_rfl, hAll, length_map] at hLength
    have hZero : ((List.range (numChunks groups.length)).map fun number => 8192 * number % ht.tuplesPerBlock).sum = 0 := by
      omega
    exact Nat.dvd_of_mod_eq_zero (sum_eq_zero_iff.mp hZero _ (mem_map_of_mem (mem_range.mpr hNumber)))
  · intro hAligned
    refine ⟨_, hRun, ?_⟩
    rw [chunks_of_dvd le_rfl hAligned, hAll, map_payloadAt h]

/-- Above that number of groups the end of the last chunk overflows. -/
theorem HandsOutOnce.le {mode : PipelineMode} (hOnce : HandsOutOnce ht groups mode) (h : Stores ht groups)
    (hFits : groups.length < 2 ^ 31) : groups.length ≤ 2 ^ 31 - 2 ^ 13 := by
  obtain ⟨calls, hCalls, -⟩ := hOnce
  by_contra hFull
  have hRun := hCalls _ (Nat.lt_succ_self _)
  rw [size_eq h hFits, executeSplitPipeline_overflow mode ht.forEach hFits (by omega) (by omega)] at hRun
  exact absurd hRun (by simp)

end

/-- The output is right exactly if the chunks of the groups have ends that are 32-bit integers, and there is one chunk or
the blocks divide the chunks. The number of groups is one whose payload and block numbers are 32-bit integers. -/
theorem handsOutOnce_iff {P : Type} {payloadSize : Nat} (hPos : 0 < payloadSize) (hLe : payloadSize ≤ blockSize)
    (groups : List P) (hFits : groups.length + 1 < 2 ^ 31) (mode : PipelineMode) :
    HandsOutOnce (stored payloadSize hPos hLe groups) groups mode ↔
      groups.length ≤ 2 ^ 31 - 2 ^ 13 ∧ (groups.length ≤ 8192 ∨ blockSize / payloadSize ∣ 8192) := by
  have hStores := stores_stored hPos hLe groups
  constructor
  · intro hOnce
    have hRoom := hOnce.le hStores (by omega)
    rw [handsOutOnce_iff_dvd hStores hRoom, tuplesPerBlock, payloadSize_stored] at hOnce
    refine ⟨hRoom, ?_⟩
    by_cases hOne : groups.length ≤ 8192
    · exact Or.inl hOne
    · exact Or.inr (hOnce 1 (by unfold numChunks; omega))
  · rintro ⟨hRoom, hAligned⟩
    rw [handsOutOnce_iff_dvd hStores hRoom, tuplesPerBlock, payloadSize_stored]
    intro number hNumber
    rcases hAligned with hOne | hDvd
    · obtain rfl : number = 0 := by
        unfold numChunks at hNumber
        omega
      exact Dvd.intro 0 rfl
    · exact Dvd.dvd.mul_right hDvd number

/-- Sixteen bytes to a payload make 256 to a block, which divides the chunks. -/
theorem handsOutOnce_sixteen : HandsOutOnce (stored 16 (by decide) (by decide) (List.range 9000)) (List.range 9000) .static :=
  (handsOutOnce_iff (by decide) (by decide) (List.range 9000) (by rw [length_range]; decide) .static).mpr
    ⟨by rw [length_range]; decide, Or.inr (by decide)⟩

/-- A hash, a key and a sum of eight bytes each: 170 payloads to a block, and one group more than a chunk has. -/
theorem not_handsOutOnce_twentyFour :
    ¬ HandsOutOnce (stored 24 (by decide) (by decide) (List.range 8193)) (List.range 8193) .static := by
  rw [handsOutOnce_iff_dvd (stores_stored _ _ _) (by rw [length_range]; decide), tuplesPerBlock,
    payloadSize_stored]
  intro hAligned
  exact absurd (hAligned 1 (by rw [length_range]; decide)) (by decide)

end AggregateHashTable

end KushDB.GroupBy
