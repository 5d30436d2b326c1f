import KushDB.ColumnIndex.Batches
import Mathlib.Data.List.MinMax

/-! # When batched intersection is exact

The batches put together are the common entries as long as every batch goes on behind the one before it. From three
buckets on that is so if the bucket that drove a full batch drives the next one as well. Another bucket
still has the last result ahead of its cursor, and the result comes out twice. A bucket drives a batch if it has the
fewest entries ahead of its cursor, so it can be told from the entries which bucket will.

In a bucket with more than `2 ^ 30` entries there are rows whose search overflows.
-/

namespace KushDB.ColumnIndex

open Ascending List

/-- The batches end, and are the common entries from a row on, each once and in ascending order. -/
def IntersectionExact {k : Nat} (buckets : Fin k → ColumnIndexBucket) (nextTuple : Int) (resultMaxSize : Nat) : Prop :=
  ∃ cursors batches result, bucketListSortedIntersectionInit buckets nextTuple = some cursors ∧
    populateAll buckets resultMaxSize batches cursors = some result ∧
      result.Pairwise (· < ·) ∧ ∀ tuple, tuple ∈ result ↔ nextTuple ≤ tuple ∧ ∀ i, tuple ∈ (buckets i).data

/-! ## Numbers of entries -/

def entriesFrom (bucket : ColumnIndexBucket) (tuple : Int) : Nat := bucket.data.countP fun entry => tuple ≤ entry

def entriesAbove (bucket : ColumnIndexBucket) (tuple : Int) : Nat := bucket.data.countP fun entry => tuple < entry

section

variable {k : Nat} (buckets : Fin k → ColumnIndexBucket) (nextTuple : Int)

/-- The first of the buckets with the fewest entries from a row on. -/
structure Shortest (i : Fin k) : Prop where
  least : ∀ j, entriesFrom (buckets i) nextTuple ≤ entriesFrom (buckets j) nextTuple
  first : ∀ j, entriesFrom (buckets j) nextTuple ≤ entriesFrom (buckets i) nextTuple → i ≤ j

def commonEntries (i : Fin k) : List Int :=
  (buckets i).data.filter fun tuple => nextTuple ≤ tuple ∧ ∀ j, tuple ∈ (buckets j).data

/-- Where a batch is full, the shortest bucket has no entry above the last result, or at most as many as the buckets
before it and at most one more than those behind it. -/
def StaysShortest (resultMaxSize : Nat) : Prop :=
  k ≤ 2 ∨ ∀ i, Shortest buckets nextTuple i → ∀ batch tuple,
    (commonEntries buckets nextTuple i)[(batch + 1) * resultMaxSize - 1]? = some tuple →
      entriesAbove (buckets i) tuple = 0 ∨
        ∀ j, entriesAbove (buckets i) tuple ≤ entriesAbove (buckets j) tuple + if i < j then 1 else 0

end

variable {bucket : ColumnIndexBucket} {resultMaxSize : Nat}

theorem size_sub_forwarded (hAscending : bucket.data.Pairwise (· < ·)) (tuple : Int) :
    bucket.size - forwarded bucket tuple = entriesFrom bucket tuple := by
  have hDrop := congrArg length (@drop_forwarded bucket tuple)
  rwa [length_drop, drop_rank hAscending, ← countP_eq_length_filter] at hDrop

theorem size_sub_rank (hAscending : bucket.data.Pairwise (· < ·)) {tuple : Int} (h : tuple ∈ bucket.data) :
    bucket.size - (rank bucket.data tuple + 1) = entriesAbove bucket tuple := by
  have hDrop := congrArg length (drop_rank_succ hAscending h)
  rwa [length_drop, ← countP_eq_length_filter] at hDrop

theorem findMinList_eq_iff {k : Nat} {buckets : Fin (k + 1) → ColumnIndexBucket} {cursors : Fin (k + 1) → Nat}
    {i : Fin (k + 1)} : findMinList buckets cursors = i ↔
      (∀ j, (buckets i).size - cursors i ≤ (buckets j).size - cursors j) ∧
        ∀ j, (buckets j).size - cursors j ≤ (buckets i).size - cursors i → i ≤ j := by
  have hLoop : ∀ (list : List (Fin (k + 1))) (first : Fin (k + 1)),
      list.foldl (argAux fun i j => (buckets i).size - cursors i < (buckets j).size - cursors j) (some first) =
        some (list.foldl (fun minList i =>
          if (buckets i).size - cursors i < (buckets minList).size - cursors minList then i else minList) first) := by
    intro list
    induction list with
    | nil => exact fun _ => rfl
    | cons next list ih =>
      intro first
      rw [foldl_cons, foldl_cons, ← ih]
      congr 1
      exact (apply_ite some _ _ _).symm
  have hMin : argmin (fun i => (buckets i).size - cursors i) (List.finRange (k + 1)) =
      some (findMinList buckets cursors) := by
    rw [argmin, findMinList, finRange_succ, tail_cons, foldl_cons]
    exact hLoop _ 0
  rw [← Option.some.injEq, ← hMin, argmin_eq_some_iff]
  simp [idxOf_finRange]

/-! ## Batches of one driver -/

/-- Whenever a batch is full, the bucket that drives it is at its end or has still the fewest entries left.
`common` is what the bucket has in common with the others, and `tuple` the last result of a batch. -/
def KeepsAlong {k : Nat} (buckets : Fin (k + 3) → ColumnIndexBucket) (minList : Fin (k + 3)) (resultMaxSize : Nat)
    (common : List Int) : Prop :=
  ∀ batch tuple, common[(batch + 1) * resultMaxSize - 1]? = some tuple →
    rank (buckets minList).data tuple + 1 = (buckets minList).size ∨
      findMinList buckets (afterBatch buckets minList tuple) = minList

section

variable {k : Nat} {buckets : Fin k → ColumnIndexBucket} {resultMaxSize : Nat}

/-- Batches that each take their results off what remains come to all of it. -/
theorem populateAll_of_remaining (invariant : (Fin k → Nat) → Prop) (remaining : (Fin k → Nat) → List Int)
    (hMax : 1 ≤ resultMaxSize)
    (hBatch : ∀ cursors, invariant cursors → ∃ next,
      bucketListSortedIntersectionPopulateResult buckets resultMaxSize cursors =
        some ((remaining cursors).take resultMaxSize, next) ∧
      invariant next ∧ remaining next = (remaining cursors).drop resultMaxSize)
    {batches : Nat} {cursors : Fin k → Nat} (hCursors : invariant cursors)
    (hBatches : (remaining cursors).length < batches) :
    populateAll buckets resultMaxSize batches cursors = some (remaining cursors) := by
  induction batches generalizing cursors with
  | zero => exact absurd hBatches (Nat.not_lt_zero _)
  | succ batches ih =>
    obtain ⟨next, hResult, hNext, hRest⟩ := hBatch cursors hCursors
    rw [populateAll, hResult]
    simp only [Option.bind_eq_bind, Option.bind_some]
    split
    · rename_i hEmpty
      rcases take_eq_nil_iff.mp hEmpty with hZero | hNil
      · omega
      · rw [hNil]
    · rename_i hMore
      have hPos : 0 < (remaining cursors).length := by
        by_contra hNone
        have hNil : remaining cursors = [] := length_eq_zero_iff.mp (by omega)
        exact hMore (by rw [hNil, take_nil])
      have hShorter : (remaining next).length < batches := by
        rw [hRest, length_drop]
        omega
      rw [ih hNext hShorter, Option.bind_some, hRest, take_append_drop]

/-- The cursors of the first batch. -/
def firstCursors (buckets : Fin k → ColumnIndexBucket) (nextTuple : Int) : Fin k → Nat := fun i =>
  forwarded (buckets i) nextTuple

theorem exact_of_firstCursors (hAscending : ∀ i, (buckets i).data.Pairwise (· < ·))
    (hSize : ∀ i, (buckets i).size ≤ maxSearched) {nextTuple : Int} {batches : Nat} {result : List Int}
    (hResult : populateAll buckets resultMaxSize batches (firstCursors buckets nextTuple) = some result)
    (hPairwise : result.Pairwise (· < ·))
    (hEntries : ∀ tuple, tuple ∈ result ↔ nextTuple ≤ tuple ∧ ∀ i, tuple ∈ (buckets i).data) :
    IntersectionExact buckets nextTuple resultMaxSize :=
  ⟨_, batches, result, init_eq fun i => fastForwardBucket_eq (hAscending i) (hSize i) nextTuple, hResult, hPairwise,
    hEntries⟩

end

/-! ## One and two buckets -/

theorem exact_one {buckets : Fin 1 → ColumnIndexBucket} (hAscending : ∀ i, (buckets i).data.Pairwise (· < ·))
    (hSize : ∀ i, (buckets i).size ≤ maxSearched) (nextTuple : Int) (hMax : 1 ≤ resultMaxSize) :
    IntersectionExact buckets nextTuple resultMaxSize := by
  have hAll := @populateAll_of_remaining 1 buckets resultMaxSize (fun _ => True)
    (fun cursors => (buckets 0).data.drop (cursors 0)) hMax
    (fun cursors _ => by
      obtain ⟨last, hResult, hRest⟩ := populateOne_spec (buckets 0) resultMaxSize (cursors 0)
      exact ⟨fun _ => last, by rw [bucketListSortedIntersectionPopulateResult, hResult], trivial, hRest⟩)
    _ (firstCursors buckets nextTuple) trivial (Nat.lt_succ_self _)
  refine exact_of_firstCursors hAscending hSize hAll ((hAscending 0).sublist (drop_sublist _ _)) fun tuple => ?_
  rw [firstCursors, drop_forwarded, mem_drop_rank (hAscending 0), Fin.forall_fin_one]
  exact and_comm

theorem exact_two {buckets : Fin 2 → ColumnIndexBucket} (hAscending : ∀ i, (buckets i).data.Pairwise (· < ·))
    (hSize : ∀ i, (buckets i).size ≤ maxSearched) (nextTuple : Int) (hMax : 1 ≤ resultMaxSize) :
    IntersectionExact buckets nextTuple resultMaxSize := by
  have hAll := @populateAll_of_remaining 2 buckets resultMaxSize (fun _ => True)
    (fun cursors => commonOfTwo (buckets 0) (buckets 1) (cursors 0) (cursors 1)) hMax
    (fun cursors _ => by
      obtain ⟨p, q, hResult, hRest⟩ := @populateTwo_spec (buckets 0) (buckets 1) (hAscending 0) (hAscending 1)
        (cursors 0) (cursors 1) (hSize 0) (hSize 1) ((buckets 0).size + (buckets 1).size + 1) resultMaxSize (by omega)
      exact ⟨![p, q], by rw [bucketListSortedIntersectionPopulateResult, hResult]; rfl, trivial, hRest⟩)
    _ (firstCursors buckets nextTuple) trivial (Nat.lt_succ_self _)
  refine exact_of_firstCursors hAscending hSize hAll (((hAscending 0).sublist (drop_sublist _ _)).filter _) fun tuple => ?_
  rw [commonOfTwo, mem_filter, decide_eq_true_iff, firstCursors, firstCursors, drop_forwarded, drop_forwarded,
    mem_drop_rank (hAscending 0), mem_drop_rank (hAscending 1), Fin.forall_fin_two]
  exact ⟨fun h => ⟨h.1.2, h.1.1, h.2.1⟩, fun h => ⟨⟨h.2.1, h.1⟩, h.2.2, h.1⟩⟩

/-! ## Three buckets and more -/

section

variable {k : Nat} {buckets : Fin (k + 3) → ColumnIndexBucket} {minList : Fin (k + 3)} {resultMaxSize : Nat}
  {cursors : Fin (k + 3) → Nat}

theorem populate_of_end (h : ∃ i, (buckets i).size ≤ cursors i) :
    bucketListSortedIntersectionPopulateResult buckets resultMaxSize cursors = some ([], cursors) := by
  rw [bucketListSortedIntersectionPopulateResult, if_pos h]

theorem afterBatch_self (tuple : Int) :
    afterBatch buckets minList tuple minList = rank (buckets minList).data tuple + 1 := if_pos rfl

theorem KeepsAlong.drop {common : List Int} (h : KeepsAlong buckets minList resultMaxSize common)
    (hMax : 1 ≤ resultMaxSize) : KeepsAlong buckets minList resultMaxSize (common.drop resultMaxSize) := by
  intro batch tuple hTuple
  refine h (batch + 1) tuple ?_
  rw [getElem?_drop] at hTuple
  rw [← hTuple]
  congr 1
  rw [Nat.succ_mul (batch + 1)]
  have hPos := Nat.mul_le_mul (Nat.le_add_left 1 batch) hMax
  omega

abbrev AtEnd (buckets : Fin (k + 3) → ColumnIndexBucket) (cursors : Fin (k + 3) → Nat) : Prop :=
  ∃ i, (buckets i).size ≤ cursors i

/-- The intersection is at its end, or one bucket drives it and will do so. -/
def Driving (buckets : Fin (k + 3) → ColumnIndexBucket) (minList : Fin (k + 3)) (resultMaxSize : Nat)
    (cursors : Fin (k + 3) → Nat) : Prop :=
  AtEnd buckets cursors ∨ findMinList buckets cursors = minList ∧
    KeepsAlong buckets minList resultMaxSize (commonFrom buckets minList (cursors minList))

/-- What remains of the intersection while one bucket drives it. -/
def remainingOf (buckets : Fin (k + 3) → ColumnIndexBucket) (minList : Fin (k + 3)) (cursors : Fin (k + 3) → Nat) :
    List Int :=
  if AtEnd buckets cursors then [] else commonFrom buckets minList (cursors minList)

variable (hAscending : ∀ i, (buckets i).data.Pairwise (· < ·))

include hAscending

variable {tuple : Int} {batches : Nat} {result : List Int}

/-- Behind a result in the bucket that found it lie the common entries that are left. -/
theorem commonFrom_afterBatch {position : Nat} {cursor : Nat}
    (hTuple : (commonFrom buckets minList cursor)[position]? = some tuple) :
    commonFrom buckets minList (rank (buckets minList).data tuple + 1) =
      (commonFrom buckets minList cursor).drop (position + 1) := by
  obtain ⟨hTail, hAll⟩ := mem_commonFrom.mp (mem_of_getElem? hTuple)
  have hFound := getElem?_rank_of_mem (hAscending minList) (hAll minList)
  have hCommon := commonFrom_ascending hAscending minList cursor
  refine eq_of_mem_iff (commonFrom_ascending hAscending _ _) (hCommon.sublist (drop_sublist _ _)) fun other => ?_
  rw [mem_drop_succ hCommon hTuple, mem_commonFrom, mem_commonFrom, mem_drop_succ (hAscending minList) hFound]
  constructor
  · rintro ⟨⟨hOther, hLt⟩, hIn⟩
    exact ⟨⟨mem_drop_of_le (hAscending minList) hTail hOther hLt.le, hIn⟩, hLt⟩
  · rintro ⟨⟨hOther, hIn⟩, hLt⟩
    exact ⟨⟨mem_of_mem_drop hOther, hLt⟩, hIn⟩

/-- After a full batch only the driving bucket can be at its end. -/
theorem afterBatch_inside (hAll : ∀ i, tuple ∈ (buckets i).data)
    (hMore : rank (buckets minList).data tuple + 1 ≠ (buckets minList).size) :
    ¬ AtEnd buckets (afterBatch buckets minList tuple) := by
  rintro ⟨i, hEnd⟩
  have hRank := rank_lt_length_of_mem (hAscending i) (hAll i)
  rw [afterBatch] at hEnd
  split at hEnd
  · rename_i hSame
    subst hSame
    exact hMore (le_antisymm hRank hEnd)
  · exact absurd hRank (not_lt.mpr hEnd)

/-- To be still the shortest is to have the fewest entries ahead of the cursor. -/
theorem findMinList_afterBatch (hAll : ∀ i, tuple ∈ (buckets i).data) :
    findMinList buckets (afterBatch buckets minList tuple) = minList ↔ ∀ j,
      entriesAbove (buckets minList) tuple ≤ entriesAbove (buckets j) tuple + if minList < j then 1 else 0 := by
  have hLeft : ∀ j, j ≠ minList → (buckets j).size - afterBatch buckets minList tuple j =
      entriesAbove (buckets j) tuple + 1 := by
    intro j hNe
    have hRank := rank_lt_length_of_mem (hAscending j) (hAll j)
    have hAbove := size_sub_rank (hAscending j) (hAll j)
    rw [afterBatch, if_neg hNe]
    rw [ColumnIndexBucket.size] at hAbove ⊢
    omega
  rw [findMinList_eq_iff, afterBatch_self, size_sub_rank (hAscending minList) (hAll minList)]
  constructor
  · rintro ⟨hLeast, hFirst⟩ j
    rcases lt_trichotomy minList j with hLt | rfl | hGt
    · rw [if_pos hLt, ← hLeft j hLt.ne']
      exact hLeast j
    · exact Nat.le_add_right _ _
    · have hNot := mt (hFirst j) (not_le.mpr hGt)
      rw [hLeft j hGt.ne] at hNot
      rw [if_neg hGt.asymm]
      omega
  · intro h
    refine ⟨fun j => ?_, fun j hLe => ?_⟩
    · by_cases hSame : j = minList
      · rw [hSame, afterBatch_self, size_sub_rank (hAscending minList) (hAll minList)]
      · rw [hLeft j hSame]
        have hBound := h j
        split at hBound
        · exact hBound
        · exact Nat.le_succ_of_le hBound
    · by_contra hBefore
      rw [hLeft j (not_le.mp hBefore).ne] at hLe
      have hBound := h j
      rw [if_neg (not_le.mp hBefore).asymm] at hBound
      omega

/-- The bucket that drives the first batch is the shortest one. -/
theorem findMinList_firstCursors {nextTuple : Int} :
    findMinList buckets (firstCursors buckets nextTuple) = minList ↔ Shortest buckets nextTuple minList := by
  have hLeft : ∀ j, (buckets j).size - firstCursors buckets nextTuple j = entriesFrom (buckets j) nextTuple :=
    fun j => size_sub_forwarded (hAscending j) nextTuple
  simp only [findMinList_eq_iff, hLeft]
  exact ⟨fun h => ⟨h.1, h.2⟩, fun h => ⟨h.least, h.first⟩⟩

theorem commonFrom_firstCursors (nextTuple : Int) :
    commonFrom buckets minList (firstCursors buckets nextTuple minList) = commonEntries buckets nextTuple minList := by
  rw [commonFrom, firstCursors, drop_forwarded, drop_rank (hAscending minList), filter_filter, commonEntries]
  refine filter_congr fun tuple _ => ?_
  rw [Bool.decide_and, Bool.and_comm]

theorem keepsAlong_iff {nextTuple : Int} :
    KeepsAlong buckets minList resultMaxSize
        (commonFrom buckets minList (firstCursors buckets nextTuple minList)) ↔
      ∀ batch tuple, (commonEntries buckets nextTuple minList)[(batch + 1) * resultMaxSize - 1]? = some tuple →
        entriesAbove (buckets minList) tuple = 0 ∨
          ∀ j, entriesAbove (buckets minList) tuple ≤ entriesAbove (buckets j) tuple + if minList < j then 1 else 0 := by
  rw [KeepsAlong, commonFrom_firstCursors hAscending]
  refine forall_congr' fun batch => forall_congr' fun tuple => imp_congr_right fun hTuple => ?_
  have hAll : ∀ i, tuple ∈ (buckets i).data := (of_decide_eq_true (mem_filter.mp (mem_of_getElem? hTuple)).2).2
  have hRank := rank_lt_length_of_mem (hAscending minList) (hAll minList)
  rw [findMinList_afterBatch hAscending hAll, ← size_sub_rank (hAscending minList) (hAll minList), ColumnIndexBucket.size]
  refine or_congr_left' fun _ => ?_
  omega

variable (hSize : ∀ i, (buckets i).size ≤ maxSearched)

include hSize

theorem populate_driven (h : ¬ AtEnd buckets cursors) (hDriver : findMinList buckets cursors = minList) :
    ∃ result next, bucketListSortedIntersectionPopulateResult buckets resultMaxSize cursors = some (result, next) ∧
      DrivenBatch buckets minList resultMaxSize cursors result next := by
  subst hDriver
  rw [bucketListSortedIntersectionPopulateResult, if_neg h]
  exact scanMinList_spec hAscending hSize _ _ _ (by omega)

/-- A batch keeps its bucket driving. -/
theorem kept_batch (hMax : 1 ≤ resultMaxSize)
    (h : Driving buckets minList resultMaxSize cursors) :
    ∃ next, bucketListSortedIntersectionPopulateResult buckets resultMaxSize cursors =
        some ((remainingOf buckets minList cursors).take resultMaxSize, next) ∧
      Driving buckets minList resultMaxSize next ∧
      remainingOf buckets minList next = (remainingOf buckets minList cursors).drop resultMaxSize := by
  by_cases hEnd : AtEnd buckets cursors
  · refine ⟨cursors, ?_, Or.inl hEnd, ?_⟩
    · rw [populate_of_end hEnd, remainingOf, if_pos hEnd, take_nil]
    · rw [remainingOf, if_pos hEnd, drop_nil]
  · obtain ⟨hDriver, hKeeps⟩ := h.resolve_left hEnd
    obtain ⟨result, next, hResult, hBatch⟩ :=
      @populate_driven k buckets minList resultMaxSize cursors hAscending hSize hEnd hDriver
    have hRemaining : remainingOf buckets minList cursors = commonFrom buckets minList (cursors minList) := if_neg hEnd
    rw [hRemaining]
    refine ⟨next, by rw [hResult, hBatch.result_eq], ?_⟩
    cases hLast : (commonFrom buckets minList (cursors minList))[resultMaxSize - 1]? with
    | none =>
      rw [List.getElem?_eq_none_iff] at hLast
      have hDone := hBatch.exhausted (by omega)
      refine ⟨Or.inl hDone, ?_⟩
      rw [remainingOf, if_pos hDone, drop_eq_nil_of_le (by omega)]
    | some tuple =>
      have hAll := (mem_commonFrom.mp (mem_of_getElem? hLast)).2
      have hRest := commonFrom_afterBatch hAscending hLast
      rw [Nat.sub_add_cancel hMax] at hRest
      rw [hBatch.next_eq tuple hMax hLast, Driving, afterBatch_self, hRest]
      by_cases hLastEntry : rank (buckets minList).data tuple + 1 = (buckets minList).size
      · have hDone : AtEnd buckets (afterBatch buckets minList tuple) := ⟨minList, by rw [afterBatch_self, hLastEntry]⟩
        refine ⟨Or.inl hDone, ?_⟩
        rw [remainingOf, if_pos hDone, ← hRest, commonFrom_eq_nil hLastEntry.ge]
      · have hSame := (hKeeps 0 tuple (by simpa using hLast)).resolve_left hLastEntry
        refine ⟨Or.inr ⟨hSame, hKeeps.drop hMax⟩, ?_⟩
        rw [remainingOf, if_neg (afterBatch_inside hAscending hAll hLastEntry), afterBatch_self, hRest]

theorem populateAll_driven (hEnd : ¬ AtEnd buckets cursors) (hDriver : findMinList buckets cursors = minList)
    (hCommon : (commonFrom buckets minList (cursors minList)).take resultMaxSize ≠ [])
    (h : populateAll buckets resultMaxSize batches cursors = some result) :
    ∃ next earlier later, populateAll buckets resultMaxSize earlier next = some later ∧
      DrivenBatch buckets minList resultMaxSize cursors
        ((commonFrom buckets minList (cursors minList)).take resultMaxSize) next ∧
      result = (commonFrom buckets minList (cursors minList)).take resultMaxSize ++ later := by
  cases batches with
  | zero => cases h
  | succ batches =>
    obtain ⟨first, next, hResult, hBatch⟩ :=
      @populate_driven k buckets minList resultMaxSize cursors hAscending hSize hEnd hDriver
    obtain rfl := hBatch.result_eq
    rw [populateAll, hResult] at h
    simp only [Option.bind_eq_bind, Option.bind_some, if_neg hCommon] at h
    obtain ⟨later, hLater, hEq⟩ := Option.bind_eq_some_iff.mp h
    exact ⟨next, batches, later, hLater, hBatch, (Option.some.inj hEq).symm⟩

/-- Another bucket repeats the last result. -/
theorem repeats_of_switch (hMax : 1 ≤ resultMaxSize) (hEnd : ¬ AtEnd buckets cursors)
    (hDriver : findMinList buckets cursors = minList)
    (hTuple : (commonFrom buckets minList (cursors minList))[resultMaxSize - 1]? = some tuple)
    (hMore : rank (buckets minList).data tuple + 1 ≠ (buckets minList).size)
    (hSwitch : findMinList buckets (afterBatch buckets minList tuple) ≠ minList)
    (h : populateAll buckets resultMaxSize batches cursors = some result) : ¬ result.Pairwise (· < ·) := by
  have hTake : tuple ∈ (commonFrom buckets minList (cursors minList)).take resultMaxSize := by
    refine mem_of_getElem? (i := resultMaxSize - 1) ?_
    rw [getElem?_take, if_pos (by omega), hTuple]
  obtain ⟨next, earlier, later, hLater, hBatch, rfl⟩ :=
    populateAll_driven hAscending hSize hEnd hDriver (ne_nil_of_mem hTake) h
  have hAll := (mem_commonFrom.mp (mem_of_getElem? hTuple)).2
  rw [hBatch.next_eq tuple hMax hTuple] at hLater
  -- The cursor of the bucket that drives the next batch stands at the tuple.
  generalize hOther : findMinList buckets (afterBatch buckets minList tuple) = other at hSwitch
  have hStay : afterBatch buckets minList tuple other = rank (buckets other).data tuple := if_neg hSwitch
  have hRank := rank_lt_length_of_mem (hAscending other) (hAll other)
  have hHead : (buckets other).data.getD (rank (buckets other).data tuple) 0 = tuple := by
    rw [getD_eq_getElem?_getD, getElem?_rank_of_mem (hAscending other) (hAll other), Option.getD_some]
  have hAgain : tuple ∈ (commonFrom buckets other (afterBatch buckets minList tuple other)).take resultMaxSize := by
    obtain ⟨room, rfl⟩ := Nat.exists_eq_add_of_le' hMax
    have hCons := @commonFrom_allEqual _ buckets other (fun i => rank (buckets i).data tuple) hRank
      (by rw [hHead]; exact hAll)
    rw [hStay, hCons, take_succ_cons, hHead]
    exact mem_cons_self
  obtain ⟨_, _, last, _, _, rfl⟩ := populateAll_driven hAscending hSize (afterBatch_inside hAscending hAll hMore) hOther
    (ne_nil_of_mem hAgain) hLater
  intro hPairwise
  exact lt_irrefl tuple ((pairwise_append.mp hPairwise).2.2 tuple hTake tuple (mem_append_left _ hAgain))

/-- The first batch after which another bucket drives makes a result come out twice. -/
theorem repeats_of_not_kept (hMax : 1 ≤ resultMaxSize) {batch : Nat}
    (hMore : rank (buckets minList).data tuple + 1 ≠ (buckets minList).size)
    (hSwitch : findMinList buckets (afterBatch buckets minList tuple) ≠ minList)
    (hEnd : ¬ AtEnd buckets cursors) (hDriver : findMinList buckets cursors = minList)
    (hTuple : (commonFrom buckets minList (cursors minList))[(batch + 1) * resultMaxSize - 1]? = some tuple)
    (h : populateAll buckets resultMaxSize batches cursors = some result) : ¬ result.Pairwise (· < ·) := by
  induction batch generalizing cursors batches result with
  | zero => exact repeats_of_switch hAscending hSize hMax hEnd hDriver (by simpa using hTuple) hMore hSwitch h
  | succ batch ih =>
    have hLength : (batch + 1 + 1) * resultMaxSize - 1 < (commonFrom buckets minList (cursors minList)).length :=
      (List.getElem?_eq_some_iff.mp hTuple).1
    have hMul : (batch + 1 + 1) * resultMaxSize = (batch + 1) * resultMaxSize + resultMaxSize := Nat.succ_mul _ _
    have hPos := Nat.mul_le_mul (Nat.le_add_left 1 batch) hMax
    obtain ⟨first, hFirst⟩ : ∃ first, (commonFrom buckets minList (cursors minList))[resultMaxSize - 1]? = some first :=
      ⟨_, getElem?_eq_getElem (by omega)⟩
    have hAll := (mem_commonFrom.mp (mem_of_getElem? hFirst)).2
    have hRest := commonFrom_afterBatch hAscending hFirst
    rw [Nat.sub_add_cancel hMax] at hRest
    have hLater : (commonFrom buckets minList (rank (buckets minList).data first + 1))[(batch + 1) * resultMaxSize - 1]? =
        some tuple := by
      rw [hRest, getElem?_drop, ← hTuple]
      congr 1
      omega
    have hInside : rank (buckets minList).data first + 1 ≠ (buckets minList).size := by
      intro hLast
      rw [commonFrom_eq_nil hLast.ge] at hLater
      cases hLater
    by_cases hKept : findMinList buckets (afterBatch buckets minList first) = minList
    · have hTake : (commonFrom buckets minList (cursors minList)).take resultMaxSize ≠ [] := by
        rw [Ne, take_eq_nil_iff, not_or]
        exact ⟨by omega, ne_nil_of_mem (mem_of_getElem? hFirst)⟩
      obtain ⟨next, earlier, later, hNext, hBatch, rfl⟩ := populateAll_driven hAscending hSize hEnd hDriver hTake h
      rw [hBatch.next_eq first hMax hFirst] at hNext
      have hStep := ih (afterBatch_inside hAscending hAll hInside) hKept (by rw [afterBatch_self]; exact hLater) hNext
      exact fun hPairwise => hStep (pairwise_append.mp hPairwise).2.1
    · exact repeats_of_switch hAscending hSize hMax hEnd hDriver hFirst hInside hKept h

theorem exact_many_iff (nextTuple : Int) (hMax : 1 ≤ resultMaxSize) :
    IntersectionExact buckets nextTuple resultMaxSize ↔ StaysShortest buckets nextTuple resultMaxSize := by
  have hInit := init_eq fun i => fastForwardBucket_eq (hAscending i) (hSize i) nextTuple
  have hShortest := (@findMinList_firstCursors k buckets (findMinList buckets (firstCursors buckets nextTuple))
    hAscending nextTuple).mp rfl
  constructor
  · rintro ⟨cursors, batches, result, hCursors, hResult, hPairwise, _⟩
    obtain rfl : firstCursors buckets nextTuple = cursors := Option.some.inj (hInit.symm.trans hCursors)
    refine .inr fun i hI => (keepsAlong_iff hAscending).mp fun batch tuple hTuple => ?_
    have hDriver := (findMinList_firstCursors hAscending).mpr hI
    by_contra hNot
    obtain ⟨hMore, hSwitch⟩ := not_or.mp hNot
    have hEnd : ¬ AtEnd buckets (firstCursors buckets nextTuple) := by
      rintro ⟨i, hEnd⟩
      obtain ⟨hTail, hAll⟩ := mem_commonFrom.mp (mem_of_getElem? hTuple)
      rw [firstCursors, drop_forwarded, mem_drop_rank (hAscending _)] at hTail
      exact absurd (lt_of_size_le_forwarded (hAscending i) hEnd tuple (hAll i)) (not_lt.mpr hTail.2)
    exact repeats_of_not_kept hAscending hSize hMax hMore hSwitch hEnd hDriver hTuple hResult hPairwise
  · intro hStays
    have hKeeps := (keepsAlong_iff hAscending).mpr ((hStays.resolve_left (by omega)) _ hShortest)
    have hAll := populateAll_of_remaining
      (Driving buckets (findMinList buckets (firstCursors buckets nextTuple)) resultMaxSize)
      (remainingOf buckets (findMinList buckets (firstCursors buckets nextTuple))) hMax
      (fun cursors h => kept_batch hAscending hSize hMax h) (Or.inr ⟨rfl, hKeeps⟩) (Nat.lt_succ_self _)
    refine exact_of_firstCursors hAscending hSize hAll ?_ fun tuple => ?_
    · rw [remainingOf]
      split
      · exact List.Pairwise.nil
      · exact commonFrom_ascending hAscending _ _
    · rw [remainingOf]
      split
      · rename_i hEnd
        obtain ⟨i, hEnd⟩ := hEnd
        refine ⟨fun hNone => absurd hNone not_mem_nil, fun ⟨hLe, hIn⟩ => ?_⟩
        exact absurd (lt_of_size_le_forwarded (hAscending i) hEnd tuple (hIn i)) (not_lt.mpr hLe)
      · rw [mem_commonFrom, firstCursors, drop_forwarded, mem_drop_rank (hAscending _)]
        exact ⟨fun h => ⟨h.1.2, h.2⟩, fun h => ⟨⟨h.2 _, h.1⟩, h.2⟩⟩

end

/-- As long as no search can overflow, batched intersection is exact if the shortest bucket stays the shortest, which
matters from three buckets on. With a larger bucket it is not exact from every row on. -/
theorem intersectionExact_iff {k : Nat} {buckets : Fin k → ColumnIndexBucket} (hBuckets : 1 ≤ k)
    (hAscending : ∀ i, (buckets i).data.Pairwise (· < ·)) {resultMaxSize : Nat} (hMax : 1 ≤ resultMaxSize) :
    ((∀ i, (buckets i).size ≤ maxSearched) → ∀ nextTuple,
      (IntersectionExact buckets nextTuple resultMaxSize ↔ StaysShortest buckets nextTuple resultMaxSize)) ∧
    ((∃ i, maxSearched < (buckets i).size) → ∃ nextTuple, ¬ IntersectionExact buckets nextTuple resultMaxSize) := by
  constructor
  · intro hSize nextTuple
    match k, buckets with
    | 0, _ => omega
    | 1, buckets => exact iff_of_true (exact_one hAscending hSize nextTuple hMax) (.inl (by omega))
    | 2, buckets => exact iff_of_true (exact_two hAscending hSize nextTuple hMax) (.inl (by omega))
    | k + 3, buckets => exact exact_many_iff hAscending hSize nextTuple hMax
  · rintro ⟨i, hLarge⟩
    obtain ⟨nextTuple, hNone⟩ := fastForwardBucket_overflows (hAscending i) hLarge
    refine ⟨nextTuple, ?_⟩
    rintro ⟨cursors, _, _, hCursors, _⟩
    rw [init_eq_none hNone] at hCursors
    cases hCursors

/-- Three buckets that have one row in common. The first has most entries behind it. -/
def commonRow : Fin 3 → ColumnIndexBucket :=
  ![⟨[5, 6, 7], by decide⟩, ⟨[1, 2, 3, 5], by decide⟩, ⟨[1, 2, 3, 5], by decide⟩]

theorem commonRow_ascending : ∀ i, (commonRow i).data.Pairwise (· < ·) := by decide

theorem commonRow_size : ∀ i, (commonRow i).size ≤ maxSearched := by decide

/-- Batches of two hold all of it at once. -/
theorem intersectionExact_commonRow : IntersectionExact commonRow 0 2 := by
  refine (((intersectionExact_iff (by decide) commonRow_ascending (by decide)).1 commonRow_size) 0).mpr (.inr ?_)
  have hOne : ∀ i, (commonEntries commonRow 0 i).length = 1 := by decide
  intro i _ batch tuple hTuple
  have hLength := (List.getElem?_eq_some_iff.mp hTuple).1
  rw [hOne i] at hLength
  omega

/-- With room for one row in a batch, the second batch is driven by the second bucket and repeats the row. -/
theorem not_intersectionExact_commonRow : ¬ IntersectionExact commonRow 0 1 := by
  rintro ⟨cursors, batches, result, hCursors, hResult, hPairwise, _⟩
  obtain rfl : firstCursors commonRow 0 = cursors := Option.some.inj
    ((init_eq fun i => fastForwardBucket_eq (commonRow_ascending i) (commonRow_size i) 0).symm.trans hCursors)
  have hFirst : (commonFrom commonRow 0 (firstCursors commonRow 0 0))[0]? = some 5 := by decide
  exact repeats_of_switch commonRow_ascending commonRow_size (by decide) (by decide) (by decide) hFirst (by decide)
    (by decide) hResult hPairwise

end KushDB.ColumnIndex
