import KushDB.Library.Ascending
import Mathlib.Data.Fin.VecNotation
import Mathlib.Data.Fintype.Basic
import Mathlib.Data.List.FinRange

/-! # Sorted intersection of buckets

A table function intersects the buckets of its equality conditions in batches. Between two batches there is only
the array of cursors, one for each bucket. One or two buckets are run through with both cursors; from three on
each batch is driven by the bucket that has the fewest entries left.
-/

namespace KushDB.ColumnIndex

open Ascending List

def int32Max : Nat := 2147483647

/-- Row numbers in an array whose size is an `int32_t`. A bucket in memory has at most `2 ^ 30` of them, since its
capacity doubles from 4 and is an `int32_t` too; a bucket in a file can be larger. -/
structure ColumnIndexBucket where
  data : List Int
  size_le : data.length ≤ int32Max

def ColumnIndexBucket.size (bucket : ColumnIndexBucket) : Nat := bucket.data.length

/-- The binary search between `start` and the entry before `stop`. There is no result if the sum of the two positions
overflows. -/
def fastForwardLoop (data : List Int) (prevTuple : Int) : Nat → Nat → Nat → Nat → Option Nat
  | 0, _, _, nextGreaterIdx => some nextGreaterIdx
  | rounds + 1, start, stop, nextGreaterIdx =>
    if start < stop then
      if int32Max < start + (stop - 1) then none
      else
        let mid := (start + (stop - 1)) / 2
        if data.getD mid 0 < prevTuple then fastForwardLoop data prevTuple rounds (mid + 1) stop nextGreaterIdx
        else fastForwardLoop data prevTuple rounds start mid mid
    else some nextGreaterIdx

def fastForwardBucket (bucket : ColumnIndexBucket) (prevTuple : Int) : Option Nat :=
  if bucket.size = 0 then some int32Max else fastForwardLoop bucket.data prevTuple bucket.size 0 bucket.size int32Max

/-! ## Batches -/

/-- One bucket, with room for so many results. -/
def populateOne (bucket : ColumnIndexBucket) : Nat → Nat → List Int × Nat
  | 0, cursor => ([], cursor)
  | room + 1, cursor =>
    if cursor < bucket.size then
      let (result, last) := populateOne bucket room (cursor + 1)
      (bucket.data.getD cursor 0 :: result, last)
    else ([], cursor)

/-- Two buckets. The rounds of the loop are bounded to make the definition total. -/
def populateTwo (left right : ColumnIndexBucket) : Nat → Nat → Nat → Nat → Option (List Int × Nat × Nat)
  | 0, _, _, _ => none
  | rounds + 1, room, leftCursor, rightCursor =>
    if leftCursor < left.size ∧ rightCursor < right.size ∧ 0 < room then
      let leftTuple := left.data.getD leftCursor 0
      let rightTuple := right.data.getD rightCursor 0
      if leftTuple < rightTuple then
        (fastForwardBucket left rightTuple).bind fun cursor => populateTwo left right rounds room cursor rightCursor
      else if rightTuple < leftTuple then
        (fastForwardBucket right leftTuple).bind fun cursor => populateTwo left right rounds room leftCursor cursor
      else (populateTwo left right rounds (room - 1) (leftCursor + 1) (rightCursor + 1)).map fun (result, last) =>
        (leftTuple :: result, last)
    else some ([], leftCursor, rightCursor)

/-- How looking a candidate up in the other buckets ends, with the cursors it leaves. -/
inductive Probe (k : Nat)
  | exhausted (cursors : Fin k → Nat)
  | later (cursors : Fin k → Nat)
  | allEqual (cursors : Fin k → Nat)

section

variable {k : Nat} (buckets : Fin k → ColumnIndexBucket)

def probeBuckets (minList : Fin k) (candidate : Int) : List (Fin k) → (Fin k → Nat) → Option (Probe k)
  | [], cursors => some (.allEqual cursors)
  | i :: rest, cursors =>
    if i = minList then probeBuckets minList candidate rest cursors
    else
      (fastForwardBucket (buckets i) candidate).bind fun cursor =>
        let cursors := Function.update cursors i cursor
        if (buckets i).size ≤ cursors i then some (.exhausted cursors)
        else
          let current := (buckets i).data.getD (cursors i) 0
          if candidate < current then
            (fastForwardBucket (buckets minList) current).map fun cursor => .later (Function.update cursors minList cursor)
          else probeBuckets minList candidate rest cursors

def scanMinList (minList : Fin k) : Nat → Nat → (Fin k → Nat) → Option (List Int × (Fin k → Nat))
  | 0, _, _ => none
  | rounds + 1, room, cursors =>
    if cursors minList < (buckets minList).size then
      if room = 0 then some ([], cursors)
      else
        let candidate := (buckets minList).data.getD (cursors minList) 0
        match probeBuckets buckets minList candidate (List.finRange k) cursors with
        | none => none
        | some (.exhausted cursors) => some ([], cursors)
        | some (.later cursors) => scanMinList minList rounds room cursors
        | some (.allEqual cursors) =>
          (scanMinList minList rounds (room - 1) (Function.update cursors minList (cursors minList + 1))).map
            fun (result, cursors) => (candidate :: result, cursors)
    else some ([], cursors)

def bucketListSortedIntersectionInit (nextTuple : Int) : Option (Fin k → Nat) :=
  (List.finRange k).foldlM (fun intersectionState i =>
    (fastForwardBucket (buckets i) nextTuple).map (Function.update intersectionState i)) fun _ => 0

end

/-- The first of the buckets with the fewest entries left. -/
def findMinList {k : Nat} (buckets : Fin (k + 1) → ColumnIndexBucket) (cursors : Fin (k + 1) → Nat) : Fin (k + 1) :=
  (List.finRange (k + 1)).tail.foldl
    (fun minList i => if (buckets i).size - cursors i < (buckets minList).size - cursors minList then i else minList) 0

def bucketListSortedIntersectionPopulateResult : {k : Nat} → (Fin k → ColumnIndexBucket) → Nat → (Fin k → Nat) →
    Option (List Int × (Fin k → Nat))
  | 0, _, _, cursors => some ([], cursors)
  | 1, buckets, resultMaxSize, cursors =>
    let (result, cursor) := populateOne (buckets 0) resultMaxSize (cursors 0)
    some (result, fun _ => cursor)
  | 2, buckets, resultMaxSize, cursors =>
    (populateTwo (buckets 0) (buckets 1) ((buckets 0).size + (buckets 1).size + 1) resultMaxSize (cursors 0)
      (cursors 1)).map fun (result, left, right) => (result, ![left, right])
  | _ + 3, buckets, resultMaxSize, cursors =>
    if ∃ i, (buckets i).size ≤ cursors i then some ([], cursors)
    else
      let minList := findMinList buckets cursors
      scanMinList buckets minList ((buckets minList).size + 1) resultMaxSize cursors

/-- The batches of a table function, until one is empty. -/
def populateAll {k : Nat} (buckets : Fin k → ColumnIndexBucket) (resultMaxSize : Nat) :
    Nat → (Fin k → Nat) → Option (List Int)
  | 0, _ => none
  | batches + 1, cursors => do
    let (result, cursors) ← bucketListSortedIntersectionPopulateResult buckets resultMaxSize cursors
    if result = [] then some []
    else
      let later ← populateAll buckets resultMaxSize batches cursors
      some (result ++ later)

/-! ## The search -/

/-- The largest number of entries for which no sum of two positions overflows. -/
def maxSearched : Nat := 1073741824

/-- Where a search ends. -/
def forwarded (bucket : ColumnIndexBucket) (prevTuple : Int) : Nat :=
  if rank bucket.data prevTuple < bucket.size then rank bucket.data prevTuple else int32Max

theorem fastForwardLoop_eq {data : List Int} {prevTuple : Int} (hAscending : data.Pairwise (· < ·))
    (hSize : data.length ≤ maxSearched) {rounds start stop : Nat} (hRounds : stop ≤ start + rounds)
    (hOrder : start ≤ stop) (hStop : stop ≤ data.length)
    (hBelow : ∀ position, (h : position < data.length) → position < start → data[position] < prevTuple)
    (hAbove : ∀ position, (h : position < data.length) → stop ≤ position → prevTuple ≤ data[position]) :
    fastForwardLoop data prevTuple rounds start stop (if stop < data.length then stop else int32Max) =
      some (if rank data prevTuple < data.length then rank data prevTuple else int32Max) := by
  induction rounds generalizing start stop with
  | zero =>
    obtain rfl : start = stop := by omega
    rw [fastForwardLoop, rank_eq hStop hBelow hAbove]
  | succ rounds ih =>
    rw [fastForwardLoop]
    split
    · rename_i hLt
      have hMid : (start + (stop - 1)) / 2 < data.length := by omega
      have hSum : ¬ int32Max < start + (stop - 1) := by
        simp only [maxSearched, int32Max] at hSize ⊢
        omega
      dsimp only
      rw [if_neg hSum, getD_eq_getElem?_getD, List.getElem?_eq_getElem hMid, Option.getD_some]
      split
      · rename_i hSmall
        refine ih (by omega) (by omega) hStop (fun position h hPosition => ?_) hAbove
        rcases (show position ≤ (start + (stop - 1)) / 2 by omega).lt_or_eq with hBefore | rfl
        · exact (getElem_lt_getElem hAscending hBefore hMid).trans hSmall
        · exact hSmall
      · rename_i hLarge
        have hStep := @ih start ((start + (stop - 1)) / 2) (by omega) (by omega) hMid.le hBelow
          fun position h hPosition => ?_
        · rwa [if_pos hMid] at hStep
        · rcases hPosition.lt_or_eq with hAfter | rfl
          · exact (not_lt.mp hLarge).trans (getElem_lt_getElem hAscending hAfter h).le
          · exact not_lt.mp hLarge
    · obtain rfl : start = stop := by omega
      rw [rank_eq hStop hBelow hAbove]

variable {bucket : ColumnIndexBucket} {k : Nat} {buckets : Fin k → ColumnIndexBucket} {nextTuple : Int}

theorem fastForwardBucket_eq (hAscending : bucket.data.Pairwise (· < ·)) (hSize : bucket.size ≤ maxSearched)
    (prevTuple : Int) : fastForwardBucket bucket prevTuple = some (forwarded bucket prevTuple) := by
  unfold fastForwardBucket forwarded ColumnIndexBucket.size
  split
  · rename_i hEmpty
    rw [if_neg (by omega)]
  · have hLoop := @fastForwardLoop_eq bucket.data prevTuple hAscending hSize bucket.data.length 0 bucket.data.length
      (by omega) (by omega) le_rfl (by omega) (by omega)
    rwa [if_neg (by omega)] at hLoop

/-- The search for the last of too many entries comes to a position that it cannot add to itself. -/
theorem fastForwardLoop_overflows {data : List Int} {prevTuple : Int} (hSize : maxSearched < data.length)
    (hBelow : ∀ position < data.length - 1, data.getD position 0 < prevTuple) {rounds start nextGreaterIdx : Nat}
    (hRounds : data.length ≤ start + rounds) (hStart : start < data.length) :
    fastForwardLoop data prevTuple rounds start data.length nextGreaterIdx = none := by
  induction rounds generalizing start with
  | zero => omega
  | succ rounds ih =>
    rw [fastForwardLoop, if_pos hStart]
    split
    · rfl
    · rename_i hSum
      have hMid : (start + (data.length - 1)) / 2 < data.length - 1 := by
        simp only [maxSearched, int32Max] at hSize hSum
        omega
      dsimp only
      rw [if_pos (hBelow _ hMid)]
      exact ih (by omega) (by omega)

theorem fastForwardBucket_overflows (hAscending : bucket.data.Pairwise (· < ·)) (hSize : maxSearched < bucket.size) :
    ∃ prevTuple, fastForwardBucket bucket prevTuple = none := by
  have hLast : bucket.size - 1 < bucket.data.length := by
    simp only [maxSearched, ColumnIndexBucket.size] at hSize ⊢
    omega
  refine ⟨bucket.data[bucket.size - 1], ?_⟩
  rw [fastForwardBucket, if_neg (by omega)]
  refine fastForwardLoop_overflows hSize (fun position hPosition => ?_) (Nat.le_add_left _ _) (by omega)
  rw [getD_eq_getElem?_getD, List.getElem?_eq_getElem (hPosition.trans hLast), Option.getD_some]
  exact getElem_lt_getElem hAscending hPosition hLast

/-- The cursors of the first batch. -/
theorem init_eq {cursors : Fin k → Nat} (h : ∀ i, fastForwardBucket (buckets i) nextTuple = some (cursors i)) :
    bucketListSortedIntersectionInit buckets nextTuple = some cursors := by
  have hLoop : ∀ (list : List (Fin k)) (state : Fin k → Nat), list.foldlM (fun intersectionState i =>
      (fastForwardBucket (buckets i) nextTuple).map (Function.update intersectionState i)) state =
        some fun i => if i ∈ list then cursors i else state i := by
    intro list
    induction list with
    | nil => exact fun state => by simp
    | cons first list ih =>
      intro state
      rw [foldlM_cons, h first, Option.map_some]
      refine (ih _).trans (congrArg some (funext fun i => ?_))
      by_cases hFirst : i = first
      · simp [hFirst]
      · simp [hFirst]
  rw [bucketListSortedIntersectionInit, hLoop]
  simp

theorem init_eq_none {i : Fin k} (h : fastForwardBucket (buckets i) nextTuple = none) :
    bucketListSortedIntersectionInit buckets nextTuple = none := by
  have hLoop : ∀ list : List (Fin k), i ∈ list → ∀ state : Fin k → Nat, list.foldlM (fun intersectionState i =>
      (fastForwardBucket (buckets i) nextTuple).map (Function.update intersectionState i)) state = none := by
    intro list
    induction list with
    | nil => exact fun hIn => absurd hIn not_mem_nil
    | cons first list ih =>
      intro hIn state
      rw [foldlM_cons]
      rcases List.mem_cons.mp hIn with rfl | hIn
      · rw [h]
        rfl
      · cases fastForwardBucket (buckets first) nextTuple with
        | none => rfl
        | some cursor => exact ih hIn _
  exact hLoop _ (mem_finRange i) _

end KushDB.ColumnIndex
