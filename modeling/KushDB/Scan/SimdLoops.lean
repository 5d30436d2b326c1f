import KushDB.Scan.SimdRows

/-! # The rows a SIMD scan hands out

From the start of a chunk on, rows are looked at in groups of eight. The vector loop takes the groups that lie before
the last eight rows. It takes the last group too where that is complete, unless the buffer has just been emptied or
nothing else is in the chunk; what it leaves to the scalar loop is selected by all filters, whether their conjunction
or their disjunction was asked for.
-/

namespace KushDB.Scan

open Execution While
open List hiding Vector

section

variable (select : Int → Bool) (start : Int)

/-- How full the buffer is when a group is reached: it is emptied when it has no room for eight more. -/
def pending : Nat → Nat
  | 0 => 0
  | group + 1 => (if bufferSize - 8 < pending group then 0 else pending group) +
    ((rowsFrom (start + 8 * group) 8).filter select).length

/-- The number of groups that the vector loop takes, for a number of rows. -/
def vectorGroups (length : Nat) : Nat :=
  if length % 8 = 0 ∧ (length = 8 ∨ bufferSize - 8 < pending select start (length / 8 - 1)) then length / 8 - 1
  else length / 8

end

theorem outputLoop_spec {fill : Fill} {rounds : Nat} (hSize : fill.size ≤ bufferSize) (hRounds : fill.size < rounds) :
    ∃ final, outputLoop fill rounds = some final ∧ final.2 = fill.buffer.toList.take fill.size := by
  refine whileLoop_rule (fun state => state.1 ≤ fill.size ∧ state.2 = fill.buffer.toList.take state.1)
    (fun state => fill.size - state.1) ?_ ?_ ⟨Nat.zero_le _, rfl⟩ hRounds
  · rintro ⟨bufferIdx, emitted⟩ ⟨hLe, hEmitted⟩ hTest
    simp only [decide_eq_true_eq] at hLe hEmitted hTest
    have hBound : bufferIdx < fill.buffer.toList.length := by simp only [Vector.length_toList]; omega
    have hGet : fill.buffer[bufferIdx]? = some fill.buffer.toList[bufferIdx] := by simp
    refine ⟨(bufferIdx + 1, fill.buffer.toList.take (bufferIdx + 1)), ?_, ⟨hTest, rfl⟩, by simp only; omega⟩
    simp only [hGet, Option.map_some, hEmitted, take_add_one, List.getElem?_eq_getElem hBound, Option.toList_some]
  · rintro ⟨bufferIdx, emitted⟩ ⟨hLe, hEmitted⟩ hStop
    simp only [decide_eq_false_iff_not] at hLe hEmitted hStop
    rw [hEmitted, show bufferIdx = fill.size by omega]

section

variable {conjunction : Bool} {columns : List Column}

/-- Rows near the end of a chunk, one at a time. -/
theorem manualLoop_spec {first : Int} {count rounds : Nat} (hRows : ∀ row ∈ rowsFrom first count, HasRow columns row)
    (hCount : count ≤ 8) (hLow : 0 ≤ first) (hHigh : first + count < 2 ^ 31) (hRounds : count < rounds)
    (buffer : Vector Int bufferSize) :
    ∃ fill, manualLoop columns (first + count - 1) rounds ⟨first, 0, buffer⟩ = some fill ∧
      Filled (selects true columns) first count fill := by
  refine whileLoop_rule (fun fill => ∃ done ≤ count, Filled (selects true columns) first done fill)
    (fun fill => (first + count - fill.tupleIdx).toNat) ?_ ?_ ⟨0, Nat.zero_le _, filled_zero _ _ _⟩ (by simp only; omega)
  · rintro fill ⟨done, hDone, hFilled⟩ hTest
    have hIdx := hFilled.tupleIdx
    have hSize := hFilled.size_le
    simp only [decide_eq_true_eq] at hTest
    obtain ⟨next, hNext, hMore⟩ := manualStep_spec hFilled (hRows _ (mem_rowsFrom.mpr (by omega)))
      (by unfold bufferSize; omega) (by omega) (by omega)
    have hIdx' := hMore.tupleIdx
    exact ⟨next, hNext, ⟨done + 1, by omega, hMore⟩, by omega⟩
  · rintro fill ⟨done, hDone, hFilled⟩ hStop
    have hIdx := hFilled.tupleIdx
    simp only [decide_eq_false_iff_not] at hStop
    rwa [show done = count by omega] at hFilled

/-- What a run of the vector loop from a group on has come to after some more groups. -/
structure Vectorised (conjunction : Bool) (columns : List Column) (start : Int) (length group count : Nat)
    (fill : Fill) : Prop where
  within : 8 * (group + count) ≤ length
  filled : Filled (selects conjunction columns) (start + 8 * group) (8 * count) fill
  fits : fill.size ≤ bufferSize
  size : 0 < count → fill.size = pending (selects conjunction columns) start (group + count)
  room : 1 < count → pending (selects conjunction columns) start (group + count - 1) ≤ bufferSize - 8

/-- A chunk that lies inside its columns. -/
structure Chunk (columns : List Column) (start : Int) (length : Nat) : Prop where
  filters : ∃ column ∈ columns, column.filters ≠ []
  rows : ∀ row ∈ rowsFrom start length, HasRow columns row
  low : 0 ≤ start
  high : start + length < 2 ^ 31

variable {start : Int} {length group : Nat}

theorem Vectorised.step {count : Nat} {fill : Fill} (h : Vectorised conjunction columns start length group count fill)
    (hChunk : Chunk columns start length)
    (hEmptied : group = 0 ∨ bufferSize - 8 < pending (selects conjunction columns) start group)
    (hSize : fill.size ≤ bufferSize - 8) (hLeft : 8 * (group + count) + 8 ≤ length) :
    ∃ next, simdStep conjunction columns fill = some next ∧
      Vectorised conjunction columns start length group (count + 1) next := by
  have hIdx := h.filled.tupleIdx
  have hLow := hChunk.low
  have hHigh := hChunk.high
  obtain ⟨next, hNext, hFilled, hMore⟩ := simdStep_spec h.filled
    (fun lane => hChunk.rows _ (mem_rowsFrom.mpr (by omega))) hChunk.filters hSize (by omega) (by omega)
  -- where the run began the buffer was empty, and so does `pending` count from there
  have hPending : (if bufferSize - 8 < pending (selects conjunction columns) start (group + count) then 0
      else pending (selects conjunction columns) start (group + count)) = fill.size := by
    obtain rfl | hPos := Nat.eq_zero_or_pos count
    · have hZero : fill.size = 0 := Nat.le_zero.mp h.filled.size_le
      rw [hZero, Nat.add_zero]
      rcases hEmptied with rfl | hFull
      · rfl
      · exact if_pos hFull
    · rw [← h.size hPos, if_neg (by omega)]
  have hEight := (length_filter_le (selects conjunction columns) (rowsFrom fill.tupleIdx 8)).trans_eq
    (length_rowsFrom fill.tupleIdx 8)
  have hRoom : bufferSize - 8 + 8 = bufferSize := rfl
  refine ⟨next, hNext, by omega, hFilled, by omega, fun _ => ?_, fun hCount => ?_⟩
  · have hNow : fill.tupleIdx = start + 8 * ((group + count : Nat) : Int) := by omega
    rw [hMore, ← Nat.add_assoc, pending, hPending, hNow]
  · rw [← Nat.add_assoc, Nat.add_sub_cancel, ← h.size (by omega)]
    exact hSize

theorem simdLoop_spec {rounds : Nat} (hChunk : Chunk columns start length)
    (hEmptied : group = 0 ∨ bufferSize - 8 < pending (selects conjunction columns) start group)
    (hLeft : 8 * group + 8 < length) (hRounds : length < rounds) (buffer : Vector Int bufferSize) :
    ∃ fill, simdLoop conjunction columns (start + length - 1) rounds ⟨start + 8 * group, 0, buffer⟩ = some fill ∧
      ∃ count, 0 < count ∧ Vectorised conjunction columns start length group count fill ∧
        (bufferSize - 8 < fill.size ∨ length < 8 * (group + count) + 8) := by
  have hLow := hChunk.low
  have hHigh := hChunk.high
  have hLast : int32 (start + length - 1 - 7) = start + length - 1 - 7 := int32_eq (by omega) (by omega)
  refine whileLoop_rule (fun fill => ∃ count, Vectorised conjunction columns start length group count fill)
    (fun fill => (start + length - fill.tupleIdx).toNat) ?_ ?_
    ⟨0, by omega, filled_zero _ _ _, Nat.zero_le _, by simp, by simp⟩ (by simp only; omega)
  · rintro fill ⟨count, h⟩ hTest
    have hIdx := h.filled.tupleIdx
    simp only [hLast, decide_eq_true_eq] at hTest
    obtain ⟨next, hNext, hMore⟩ := h.step hChunk hEmptied hTest.1 (by omega)
    have hIdx' := hMore.filled.tupleIdx
    exact ⟨next, hNext, ⟨count + 1, hMore⟩, by omega⟩
  · rintro fill ⟨count, h⟩ hStop
    have hIdx := h.filled.tupleIdx
    have hFew := h.filled.size_le
    simp only [hLast, decide_eq_false_iff_not] at hStop
    have hRoom : 8 ≤ bufferSize - 8 := by decide
    refine ⟨count, ?_, h, ?_⟩ <;> omega

/-! ## The refill loop -/

/-- The rows of a chunk that are handed out. -/
def handedOut (conjunction : Bool) (columns : List Column) (start : Int) (length : Nat) : List Int :=
  let groups := vectorGroups (selects conjunction columns) start length
  (rowsFrom start (8 * groups)).filter (selects conjunction columns) ++
    (rowsFrom (start + 8 * groups) (length - 8 * groups)).filter (selects true columns)

/-- All groups before one have been looked at by the vector loop, and the buffer is empty. -/
structure Scanned (conjunction : Bool) (columns : List Column) (start : Int) (length group : Nat)
    (state : ScanState) : Prop where
  within : 8 * group ≤ length
  tupleIdx : state.tupleIdx = start + 8 * group
  emitted : state.emitted = (rowsFrom start (8 * group)).filter (selects conjunction columns)
  emptied : 8 * group + 8 ≤ length →
    group = 0 ∨ bufferSize - 8 < pending (selects conjunction columns) start group
  complete : 8 * group = length →
    length = 0 ∨ 1 < group ∧ pending (selects conjunction columns) start (group - 1) ≤ bufferSize - 8

variable {state : ScanState}

theorem Scanned.vectorGroups_eq (h : Scanned conjunction columns start length group state)
    (hEnd : length ≤ 8 * group + 8) : vectorGroups (selects conjunction columns) start length = group := by
  have hWithin := h.within
  have hEmptied := h.emptied
  have hComplete := h.complete
  unfold vectorGroups
  split
  · rename_i hFull
    have hDiv : length / 8 - 1 = group ∨ length / 8 = group := by omega
    rcases hDiv with hDiv | hDiv
    · exact hDiv
    · have hEq : 8 * group = length := by omega
      have hLast : length / 8 - 1 = group - 1 := by omega
      rw [hLast] at hFull
      rcases hComplete hEq with hZero | ⟨hMore, hRoom⟩ <;> omega
  · rename_i hNot
    by_cases hEq : length = 8 * group + 8
    · have hLast : length / 8 - 1 = group := by omega
      rw [hLast] at hNot
      have hGroup := hEmptied (by omega)
      omega
    · omega

variable {rounds : Nat}

theorem scanStep_scalar (h : Scanned conjunction columns start length group state) (hChunk : Chunk columns start length)
    (hSome : 8 * group < length) (hEnd : length ≤ 8 * group + 8) (hRounds : length < rounds) :
    ∃ next, scanStep conjunction columns (start + length - 1) rounds state = some next ∧
      next.tupleIdx = start + length ∧ next.emitted = handedOut conjunction columns start length := by
  have hLow := hChunk.low
  have hHigh := hChunk.high
  have hLast : int32 (start + length - 1 - 7) = start + length - 1 - 7 := int32_eq (by omega) (by omega)
  have hIdx := h.tupleIdx
  have hStop : start + length - 1 = state.tupleIdx + (length - 8 * group : Nat) - 1 := by omega
  obtain ⟨fill, hFill, hFilled⟩ := @manualLoop_spec columns state.tupleIdx (length - 8 * group) rounds
    (fun row hRow => hChunk.rows row (mem_rowsFrom.mpr (by have := mem_rowsFrom.mp hRow; omega))) (by omega) (by omega)
    (by omega) (by omega) state.buffer
  have hSize := hFilled.size_le
  obtain ⟨final, hFinal, hOutput⟩ := @outputLoop_spec fill rounds (by unfold bufferSize; omega) (by omega)
  refine ⟨⟨fill.tupleIdx, fill.buffer, state.emitted ++ final.2⟩, ?_, ?_, ?_⟩
  · rw [scanStep, if_pos (by omega), hStop, hFill]
    simp only [Option.bind_eq_bind, Option.bind_some, hFinal]
    rfl
  · have hEndIdx := hFilled.tupleIdx
    simp only
    omega
  · rw [handedOut, h.vectorGroups_eq hEnd, h.emitted, hOutput, hFilled.buffer, hIdx]

theorem scanStep_vector (h : Scanned conjunction columns start length group state) (hChunk : Chunk columns start length)
    (hLeft : 8 * group + 8 < length) (hRounds : length < rounds) :
    ∃ next, scanStep conjunction columns (start + length - 1) rounds state = some next ∧
      ∃ count, 0 < count ∧ Scanned conjunction columns start length (group + count) next := by
  have hLow := hChunk.low
  have hHigh := hChunk.high
  have hLast : int32 (start + length - 1 - 7) = start + length - 1 - 7 := int32_eq (by omega) (by omega)
  have hIdx := h.tupleIdx
  obtain ⟨fill, hFill, count, hCount, hVector, hStop⟩ :=
    @simdLoop_spec conjunction columns start length group rounds hChunk (h.emptied (by omega)) hLeft hRounds state.buffer
  have hSize := hVector.size hCount
  have hWithin := hVector.within
  have hFew := hVector.filled.size_le
  obtain ⟨final, hFinal, hOutput⟩ := @outputLoop_spec fill rounds hVector.fits (by omega)
  refine ⟨⟨fill.tupleIdx, fill.buffer, state.emitted ++ final.2⟩, ?_, count, hCount, hWithin, ?_, ?_, ?_, ?_⟩
  · rw [scanStep, if_neg (by omega), hIdx, hFill]
    simp only [Option.bind_eq_bind, Option.bind_some, hFinal]
    rfl
  · have hEndIdx := hVector.filled.tupleIdx
    simp only
    omega
  · have hEight : 8 * (group + count) = 8 * group + 8 * count := by omega
    rw [hOutput, hVector.filled.buffer, h.emitted, hEight, rowsFrom_add, filter_append]
    rfl
  · intro hMore
    rw [← hSize]
    omega
  · intro hEq
    have hRoom := hVector.room
    omega

theorem produce_of_chunk (hChunk : Chunk columns start length) (hRounds : length < rounds)
    (buffer : Vector Int bufferSize) : produce conjunction columns start (start + length - 1) buffer rounds =
      some (handedOut conjunction columns start length) := by
  have hInitial : Scanned conjunction columns start length 0 ⟨start, buffer, []⟩ :=
    ⟨Nat.zero_le _, by simp, rfl, fun _ => Or.inl rfl, fun hZero => Or.inl hZero.symm⟩
  obtain ⟨final, hLoop, hEmitted⟩ : ∃ final, whileLoop (fun state : ScanState => state.tupleIdx ≤ start + length - 1)
      (scanStep conjunction columns (start + length - 1) rounds) rounds ⟨start, buffer, []⟩ = some final ∧
        final.emitted = handedOut conjunction columns start length := by
    refine whileLoop_rule (fun state => (∃ group, Scanned conjunction columns start length group state) ∨
        state.tupleIdx = start + length ∧ state.emitted = handedOut conjunction columns start length)
      (fun state => (start + length - state.tupleIdx).toNat) ?_ ?_ (Or.inl ⟨0, hInitial⟩) (by simp only; omega)
    · rintro state (⟨group, h⟩ | ⟨hEnd, -⟩) hTest <;> simp only [decide_eq_true_eq] at hTest
      · have hIdx := h.tupleIdx
        by_cases hLeft : 8 * group + 8 < length
        · obtain ⟨next, hNext, count, hCount, hMore⟩ := scanStep_vector h hChunk hLeft hRounds
          have hIdx' := hMore.tupleIdx
          exact ⟨next, hNext, Or.inl ⟨_, hMore⟩, by omega⟩
        · obtain ⟨next, hNext, hEnd, hEmitted⟩ := scanStep_scalar h hChunk (by omega) (by omega) hRounds
          exact ⟨next, hNext, Or.inr ⟨hEnd, hEmitted⟩, by omega⟩
      · omega
    · rintro state (⟨group, h⟩ | ⟨-, hEmitted⟩) hStop
      · have hIdx := h.tupleIdx
        have hWithin := h.within
        simp only [decide_eq_false_iff_not] at hStop
        have hAll : 8 * group = length := by omega
        rw [h.emitted, handedOut, h.vectorGroups_eq (by omega), hAll, Nat.sub_self]
        exact (append_nil _).symm
      · exact hEmitted
  rw [produce, hLoop, Option.map_some, hEmitted]

end

/-! ## Agreement with the plain filter -/

/-- The scan of a chunk hands out its rows that the filters select, in ascending order and each once, whatever is left
in the buffer and for every number of rounds that is large enough. -/
def SelectsExactly (conjunction : Bool) (columns : List Column) (start last : Int) : Prop :=
  ∀ buffer rounds, (last + 1 - start).toNat < rounds → produce conjunction columns start last buffer rounds =
    some ((rowsFrom start (last + 1 - start).toNat).filter (selects conjunction columns))

/-- The rows that are left to the scalar loop. -/
def scalarRows (conjunction : Bool) (columns : List Column) (start last : Int) : List Int :=
  let groups := vectorGroups (selects conjunction columns) start (last + 1 - start).toNat
  rowsFrom (start + 8 * groups) ((last + 1 - start).toNat - 8 * groups)

theorem vectorGroups_le (select : Int → Bool) (start : Int) (length : Nat) :
    8 * vectorGroups select start length ≤ length := by
  unfold vectorGroups
  split <;> omega

variable {columns : List Column} {conjunction : Bool} {last start : Int}

theorem produce_of_lt (h : last < start) (buffer : Vector Int bufferSize) {rounds : Nat} (hRounds : 0 < rounds) :
    produce conjunction columns start last buffer rounds = some [] := by
  obtain ⟨rest, rfl⟩ := Nat.exists_eq_succ_of_ne_zero (Nat.pos_iff_ne_zero.mp hRounds)
  rw [produce, whileLoop, if_neg (by simpa using h)]
  rfl

theorem filter_eq_filter_iff {α : Type} {p q : α → Bool} {xs : List α} :
    xs.filter p = xs.filter q ↔ ∀ x ∈ xs, p x = q x := by
  constructor
  · intro hEq x hX
    have hMem : x ∈ xs.filter p ↔ x ∈ xs.filter q := by rw [hEq]
    rw [mem_filter, mem_filter] at hMem
    exact Bool.eq_iff_iff.mpr (by simpa [hX] using hMem)
  · exact filter_congr

theorem selectsExactly_iff_agree {rows : Nat} (hRows : ∀ column ∈ columns, column.data.length = rows)
    (hFilters : ∃ column ∈ columns, column.filters ≠ []) (hStart : 0 ≤ start) (hLast : last < rows)
    (hSize : rows < 2 ^ 31) :
    SelectsExactly conjunction columns start last ↔ ∀ row ∈ scalarRows conjunction columns start last,
      selects true columns row = selects conjunction columns row := by
  by_cases hEmpty : last < start
  · have hZero : (last + 1 - start).toNat = 0 := by omega
    have hNone : scalarRows conjunction columns start last = [] := by simp [scalarRows, hZero, rowsFrom]
    refine iff_of_true (fun buffer rounds hRounds => ?_) ?_
    · rw [produce_of_lt hEmpty buffer (by omega), hZero]
      rfl
    · rw [hNone]
      exact fun row hRow => absurd hRow not_mem_nil
  · obtain ⟨length, rfl⟩ : ∃ length : Nat, last = start + length - 1 := ⟨(last + 1 - start).toNat, by omega⟩
    have hLength : (start + length - 1 + 1 - start).toNat = length := by omega
    have hChunk : Chunk columns start length := by
      refine ⟨hFilters, fun row hRow column hColumn => ?_, hStart, by omega⟩
      have hBounds := mem_rowsFrom.mp hRow
      have hIdx : row.toNat < column.data.length := by
        rw [hRows column hColumn]
        omega
      rw [load, if_neg (by omega), List.getElem?_eq_getElem hIdx]
      rfl
    have hSplit := vectorGroups_le (selects conjunction columns) start length
    -- what the vector loop takes is selected as asked, so all depends on the rows after it
    have hAgree : handedOut conjunction columns start length =
        (rowsFrom start length).filter (selects conjunction columns) ↔
          ∀ row ∈ scalarRows conjunction columns start (start + length - 1),
            selects true columns row = selects conjunction columns row := by
      rw [← filter_eq_filter_iff, scalarRows, hLength, handedOut]
      generalize vectorGroups (selects conjunction columns) start length = groups at hSplit
      rw [show length = 8 * groups + (length - 8 * groups) by omega, rowsFrom_add, filter_append,
        append_right_inj, Nat.add_sub_cancel_left]
      rfl
    have hExact : SelectsExactly conjunction columns start (start + length - 1) ↔
        handedOut conjunction columns start length = (rowsFrom start length).filter (selects conjunction columns) := by
      unfold SelectsExactly
      rw [hLength]
      constructor
      · intro h
        have hProduce := h (Vector.replicate bufferSize 0) (length + 1) (Nat.lt_succ_self _)
        rwa [produce_of_chunk hChunk (Nat.lt_succ_self _), Option.some.injEq] at hProduce
      · intro hEq buffer rounds hRounds
        rw [produce_of_chunk hChunk hRounds, hEq]
    rw [hExact, hAgree]

theorem selectsExactly_iff {rows : Nat} {conjunction : Bool} {columns : List Column} {start last : Int}
    (hRows : ∀ column ∈ columns, column.data.length = rows) (hFilters : ∃ column ∈ columns, column.filters ≠ [])
    (hStart : 0 ≤ start) (hLast : last < rows) (hSize : rows < 2 ^ 31) :
    SelectsExactly conjunction columns start last ↔ conjunction = true ∨
      ∀ row ∈ scalarRows conjunction columns start last, selects false columns row = selects true columns row := by
  rw [selectsExactly_iff_agree hRows hFilters hStart hLast hSize]
  cases conjunction with
  | true => simp
  | false => simp [eq_comm]

theorem selectsExactly_nine : SelectsExactly false [⟨[1, 2, 3, 1, 2, 3, 1, 2, 3], [⟨.eq, 1⟩, ⟨.eq, 2⟩]⟩] 0 8 := by
  refine (@selectsExactly_iff 9 _ _ _ _ ?_ ?_ ?_ ?_ ?_).mpr (Or.inr ?_) <;> decide

/-- One row that is 1, to be selected where it is 1 or 2. -/
theorem not_selectsExactly_single :
    produce false [⟨[1], [⟨.eq, 1⟩, ⟨.eq, 2⟩]⟩] 0 0 (Vector.replicate bufferSize 0) 2 = some [] ∧
      (rowsFrom 0 1).filter (selects false [⟨[1], [⟨.eq, 1⟩, ⟨.eq, 2⟩]⟩]) = [0] ∧
        ¬ SelectsExactly false [⟨[1], [⟨.eq, 1⟩, ⟨.eq, 2⟩]⟩] 0 0 := by
  refine ⟨by decide, by decide, fun h => ?_⟩
  exact absurd (h (Vector.replicate bufferSize 0) 2 (by decide)) (by decide)

end KushDB.Scan
