import KushDB.ColumnIndex.Intersection
import Mathlib.Data.Fintype.Basic
import Mathlib.Data.List.GetD

/-! # What a batch of an intersection produces

Each batch takes its results off the front of the common entries that lie ahead of the cursors. With one or two buckets
the cursors then stand behind the last result. With more of them only the cursor of the bucket that drove
the batch does; the others stand at the last result itself.
-/

namespace KushDB.ColumnIndex

open Ascending List

section

variable {bucket : ColumnIndexBucket} {tuple : Int}

theorem drop_forwarded : bucket.data.drop (forwarded bucket tuple) = bucket.data.drop (rank bucket.data tuple) := by
  rw [forwarded]
  split
  · rfl
  · rename_i hEnd
    rw [drop_eq_nil_of_le bucket.size_le, drop_eq_nil_of_le (not_lt.mp hEnd)]

theorem rank_le_forwarded : rank bucket.data tuple ≤ forwarded bucket tuple := by
  rw [forwarded]
  split
  · exact le_rfl
  · exact rank_le_length.trans bucket.size_le

theorem forwarded_of_lt (h : forwarded bucket tuple < bucket.size) : forwarded bucket tuple = rank bucket.data tuple := by
  rw [forwarded] at h ⊢
  split at h
  · rename_i hFound
    rw [if_pos hFound]
  · exact absurd bucket.size_le (not_le.mpr h)

variable {cursor : Nat}

theorem drop_eq_cons (h : cursor < bucket.size) :
    bucket.data.drop cursor = bucket.data.getD cursor 0 :: bucket.data.drop (cursor + 1) := by
  rw [getD_eq_getElem _ _ h]
  exact drop_eq_getElem_cons h

variable (hAscending : bucket.data.Pairwise (· < ·))

include hAscending

theorem lt_of_size_le_forwarded (h : bucket.size ≤ forwarded bucket tuple) :
    ∀ other ∈ bucket.data, other < tuple := by
  intro other hOther
  by_contra hNot
  have hTail := (mem_drop_rank hAscending).mpr ⟨hOther, not_lt.mp hNot⟩
  rw [← drop_forwarded, drop_eq_nil_of_le h] at hTail
  exact absurd hTail not_mem_nil

theorem lt_rank (hCursor : cursor < bucket.size) (h : bucket.data.getD cursor 0 < tuple) :
    cursor < rank bucket.data tuple := by
  by_contra hNot
  have hLe := le_getElem_of_rank_le hAscending (not_lt.mp hNot) hCursor
  rw [getD_eq_getElem _ _ hCursor] at h
  exact absurd h (not_lt.mpr hLe)

theorem getD_lt_of_mem_drop (hCursor : cursor < bucket.size) (h : tuple ∈ bucket.data.drop (cursor + 1)) :
    bucket.data.getD cursor 0 < tuple := by
  have hTail := hAscending.sublist (drop_sublist cursor bucket.data)
  rw [drop_eq_cons hCursor] at hTail
  exact (pairwise_cons.mp hTail).1 tuple h

theorem getD_le_of_mem_drop (hCursor : cursor < bucket.size) (h : tuple ∈ bucket.data.drop cursor) :
    bucket.data.getD cursor 0 ≤ tuple := by
  rw [drop_eq_cons hCursor] at h
  rcases mem_cons.mp h with rfl | hLater
  · exact le_rfl
  · exact (getD_lt_of_mem_drop hAscending hCursor hLater).le

end

/-! ## One bucket -/

theorem populateOne_spec (bucket : ColumnIndexBucket) (room cursor : Nat) :
    ∃ last, populateOne bucket room cursor = ((bucket.data.drop cursor).take room, last) ∧
      bucket.data.drop last = (bucket.data.drop cursor).drop room := by
  induction room generalizing cursor with
  | zero => exact ⟨cursor, rfl, rfl⟩
  | succ room ih =>
    obtain ⟨last, hResult, hRest⟩ := ih (cursor + 1)
    rw [populateOne]
    split
    · rename_i hCursor
      refine ⟨last, ?_, ?_⟩
      · rw [hResult, drop_eq_cons hCursor, take_succ_cons]
      · rw [hRest, drop_eq_cons hCursor, drop_succ_cons]
    · rename_i hEnd
      have hNil : bucket.data.drop cursor = [] := drop_eq_nil_of_le (not_lt.mp hEnd)
      exact ⟨cursor, by rw [hNil]; rfl, by rw [hNil]; rfl⟩

/-! ## Two buckets -/

section

variable {left right : ColumnIndexBucket}

/-- The common entries ahead of two cursors. -/
def commonOfTwo (left right : ColumnIndexBucket) (leftCursor rightCursor : Nat) : List Int :=
  (left.data.drop leftCursor).filter fun tuple => tuple ∈ right.data.drop rightCursor

variable (hLeft : left.data.Pairwise (· < ·)) (hRight : right.data.Pairwise (· < ·)) {p q : Nat}
  (hP : p < left.size) (hQ : q < right.size)

include hP hQ hLeft hRight

theorem commonOfTwo_forwardLeft (h : left.data.getD p 0 < right.data.getD q 0) :
    commonOfTwo left right (forwarded left (right.data.getD q 0)) q = commonOfTwo left right p q := by
  rw [commonOfTwo, commonOfTwo, drop_forwarded]
  refine (filter_drop_eq (lt_rank hLeft hP h).le fun index hIndex _ hStop => ?_).symm
  rw [decide_eq_false_iff_not]
  intro hMem
  exact absurd (getElem_lt_of_lt_rank hStop hIndex) (not_lt.mpr (getD_le_of_mem_drop hRight hQ hMem))

theorem commonOfTwo_forwardRight (h : right.data.getD q 0 < left.data.getD p 0) :
    commonOfTwo left right p (forwarded right (left.data.getD p 0)) = commonOfTwo left right p q := by
  rw [commonOfTwo, commonOfTwo, drop_forwarded]
  refine filter_congr fun tuple hTuple => ?_
  rw [decide_eq_decide]
  constructor
  · exact fun hMem => drop_subset_drop_left _ (lt_rank hRight hQ h).le hMem
  · intro hMem
    exact (mem_drop_rank hRight).mpr ⟨mem_of_mem_drop hMem, getD_le_of_mem_drop hLeft hP hTuple⟩

omit hRight in
theorem commonOfTwo_equal (h : left.data.getD p 0 = right.data.getD q 0) :
    commonOfTwo left right p q = left.data.getD p 0 :: commonOfTwo left right (p + 1) (q + 1) := by
  have hHead : left.data.getD p 0 ∈ right.data.getD q 0 :: right.data.drop (q + 1) := by
    rw [h]
    exact mem_cons_self
  rw [commonOfTwo, drop_eq_cons hP, drop_eq_cons hQ, filter_cons, if_pos (decide_eq_true hHead)]
  refine congrArg _ (filter_congr fun tuple hTuple => ?_)
  have hLater := getD_lt_of_mem_drop hLeft hP hTuple
  rw [decide_eq_decide, mem_cons]
  exact or_iff_right fun hEq => hLater.ne (h.trans hEq.symm)

omit hP hQ hLeft hRight in
theorem commonOfTwo_eq_nil (h : ¬ (p < left.size ∧ q < right.size)) : commonOfTwo left right p q = [] := by
  rw [commonOfTwo]
  by_cases hLeft : p < left.size
  · have hRight : right.data.drop q = [] := drop_eq_nil_of_le (not_lt.mp fun hQ => h ⟨hLeft, hQ⟩)
    simp [hRight]
  · rw [drop_eq_nil_of_le (not_lt.mp hLeft), filter_nil]

omit hP hQ in
theorem populateTwo_spec (hLeftSize : left.size ≤ maxSearched) (hRightSize : right.size ≤ maxSearched) {rounds : Nat}
    (room : Nat) (hRounds : (left.size - p) + (right.size - q) < rounds) :
    ∃ p' q', populateTwo left right rounds room p q = some ((commonOfTwo left right p q).take room, p', q') ∧
      commonOfTwo left right p' q' = (commonOfTwo left right p q).drop room := by
  induction rounds generalizing room p q with
  | zero => exact absurd hRounds (Nat.not_lt_zero _)
  | succ rounds ih =>
    rw [populateTwo]
    split
    · rename_i hInside
      obtain ⟨hP, hQ, hRoom⟩ := hInside
      dsimp only
      split
      · rename_i hLess
        rw [fastForwardBucket_eq hLeft hLeftSize, Option.bind_some]
        have hForward := (lt_rank hLeft hP hLess).trans_le rank_le_forwarded
        have hStep := @ih (forwarded left (right.data.getD q 0)) q room (by omega)
        rwa [commonOfTwo_forwardLeft hLeft hRight hP hQ hLess] at hStep
      · split
        · rename_i hGreater
          rw [fastForwardBucket_eq hRight hRightSize, Option.bind_some]
          have hForward := (lt_rank hRight hQ hGreater).trans_le rank_le_forwarded
          have hStep := @ih p (forwarded right (left.data.getD p 0)) room (by omega)
          rwa [commonOfTwo_forwardRight hLeft hRight hP hQ hGreater] at hStep
        · rename_i hNotLess hNotGreater
          have hEqual := commonOfTwo_equal hLeft hP hQ (le_antisymm (not_lt.mp hNotGreater) (not_lt.mp hNotLess))
          obtain ⟨p', q', hResult, hRest⟩ := @ih (p + 1) (q + 1) (room - 1) (by omega)
          obtain ⟨room, rfl⟩ : ∃ less, room = less + 1 := ⟨room - 1, by omega⟩
          refine ⟨p', q', ?_, ?_⟩
          · rw [hResult, hEqual]
            rfl
          · rw [hRest, hEqual]
            rfl
    · rename_i hOutside
      refine ⟨p, q, ?_⟩
      rcases room.eq_zero_or_pos with rfl | hRoom
      · exact ⟨rfl, rfl⟩
      · rw [commonOfTwo_eq_nil fun hBoth => hOutside ⟨hBoth.1, hBoth.2, hRoom⟩]
        simp

end

/-! ## Three buckets and more -/

section

variable {k : Nat} {buckets : Fin k → ColumnIndexBucket}

/-- The entries of a bucket from a position on that are in all buckets. -/
def commonFrom (buckets : Fin k → ColumnIndexBucket) (i : Fin k) (cursor : Nat) : List Int :=
  ((buckets i).data.drop cursor).filter fun tuple => ∀ j, tuple ∈ (buckets j).data

/-- The cursors after a full batch whose last result is the given tuple. -/
def afterBatch (buckets : Fin k → ColumnIndexBucket) (minList : Fin k) (tuple : Int) : Fin k → Nat := fun i =>
  if i = minList then rank (buckets i).data tuple + 1 else rank (buckets i).data tuple

variable {cursor : Nat} {i : Fin k}

theorem mem_commonFrom {tuple : Int} : tuple ∈ commonFrom buckets i cursor ↔
    tuple ∈ (buckets i).data.drop cursor ∧ ∀ j, tuple ∈ (buckets j).data := by
  rw [commonFrom, mem_filter, decide_eq_true_iff]

theorem commonFrom_eq_nil (h : (buckets i).size ≤ cursor) : commonFrom buckets i cursor = [] := by
  rw [commonFrom, drop_eq_nil_of_le h, filter_nil]

variable (hAscending : ∀ i, (buckets i).data.Pairwise (· < ·))

include hAscending

theorem commonFrom_ascending (i : Fin k) (cursor : Nat) : (commonFrom buckets i cursor).Pairwise (· < ·) :=
  ((hAscending i).sublist (drop_sublist _ _)).filter _

omit hAscending in
theorem commonFrom_forwarded (i : Fin k) (tuple : Int) :
    commonFrom buckets i (forwarded (buckets i) tuple) = commonFrom buckets i (rank (buckets i).data tuple) := by
  rw [commonFrom, drop_forwarded, commonFrom]

/-- Looking a candidate up either finds it in all the buckets or proves that no common entry lies between it
and what the search goes on with. -/
theorem probeBuckets_spec (hSize : ∀ i, (buckets i).size ≤ maxSearched) (minList : Fin k) (candidate : Int)
    (others : List (Fin k)) (cursors : Fin k → Nat) :
    (∃ next, probeBuckets buckets minList candidate others cursors = some (.exhausted next) ∧
      (∃ i, (buckets i).size ≤ next i) ∧ ∃ i, ∀ tuple ∈ (buckets i).data, tuple < candidate) ∨
    (∃ next current, probeBuckets buckets minList candidate others cursors = some (.later next) ∧ candidate < current ∧
      next minList = forwarded (buckets minList) current ∧
      ∃ i, ∀ tuple ∈ (buckets i).data, candidate ≤ tuple → current ≤ tuple) ∨
    (∃ next, probeBuckets buckets minList candidate others cursors = some (.allEqual next) ∧
      (∀ i, i ∉ others ∨ i = minList → next i = cursors i) ∧
      ∀ i ∈ others, i ≠ minList → candidate ∈ (buckets i).data ∧ next i = rank (buckets i).data candidate) := by
  induction others generalizing cursors with
  | nil => exact Or.inr (Or.inr ⟨cursors, rfl, fun _ _ => rfl, fun i hi => absurd hi not_mem_nil⟩)
  | cons i others ih =>
    rw [probeBuckets]
    split
    · rename_i hSame
      rcases ih cursors with h | h | ⟨next, hProbe, hKept, hFound⟩
      · exact Or.inl h
      · exact Or.inr (Or.inl h)
      · refine Or.inr (Or.inr ⟨next, hProbe, fun j hj => hKept j ?_, fun j hj hNe => ?_⟩)
        · exact hj.imp (fun hNot hMem => hNot (mem_cons_of_mem _ hMem)) id
        · rcases mem_cons.mp hj with rfl | hj
          · exact absurd hSame hNe
          · exact hFound j hj hNe
    · rename_i hOther
      rw [fastForwardBucket_eq (hAscending i) (hSize i), Option.bind_some]
      dsimp only
      rw [Function.update_self]
      split
      · rename_i hEnd
        exact Or.inl ⟨_, rfl, ⟨i, by rw [Function.update_self]; exact hEnd⟩, i, lt_of_size_le_forwarded (hAscending i) hEnd⟩
      · rename_i hInside
        have hRank := forwarded_of_lt (not_le.mp hInside)
        have hLength : rank (buckets i).data candidate < (buckets i).data.length := by
          rw [← hRank]
          exact not_le.mp hInside
        have hCurrent := le_getElem_rank hLength
        rw [hRank, getD_eq_getElem _ _ hLength]
        split
        · rename_i hLater
          rw [fastForwardBucket_eq (hAscending minList) (hSize minList), Option.map_some]
          refine Or.inr (Or.inl ⟨_, _, rfl, hLater, Function.update_self _ _ _, i, fun tuple hTuple hLe => ?_⟩)
          have hTail := (mem_drop_rank (hAscending i)).mpr ⟨hTuple, hLe⟩
          have hBound := getD_le_of_mem_drop (hAscending i) hLength hTail
          rwa [getD_eq_getElem _ _ hLength] at hBound
        · rename_i hNotLater
          have hMem : candidate ∈ (buckets i).data := by
            rw [le_antisymm hCurrent (not_lt.mp hNotLater)]
            exact getElem_mem _
          rcases ih (Function.update cursors i (rank (buckets i).data candidate)) with
            h | h | ⟨next, hProbe, hKept, hFound⟩
          · exact Or.inl h
          · exact Or.inr (Or.inl h)
          · refine Or.inr (Or.inr ⟨next, hProbe, fun j hj => ?_, fun j hj hNe => ?_⟩)
            · have hNe : j ≠ i := by
                rintro rfl
                exact hj.elim (fun hNot => hNot mem_cons_self) hOther
              rw [hKept j (hj.imp (fun hNot hMem => hNot (mem_cons_of_mem _ hMem)) id), Function.update_of_ne hNe]
            · by_cases hLater : j ∈ others
              · exact hFound j hLater hNe
              · obtain rfl : j = i := (mem_cons.mp hj).resolve_right hLater
                exact ⟨hMem, by rw [hKept j (Or.inl hLater), Function.update_self]⟩

section

variable {minList : Fin k} {cursors : Fin k → Nat} (hCursor : cursors minList < (buckets minList).size)

include hCursor

variable {i : Fin k}

/-- Common entries ahead of the driving cursor that a later value excludes are skipped. -/
theorem commonFrom_later {current : Int} (hLater : (buckets minList).data.getD (cursors minList) 0 < current)
    (hGap : ∀ tuple ∈ (buckets i).data, (buckets minList).data.getD (cursors minList) 0 ≤ tuple → current ≤ tuple) :
    commonFrom buckets minList (forwarded (buckets minList) current) =
      commonFrom buckets minList (cursors minList) := by
  rw [commonFrom_forwarded]
  refine (filter_drop_eq (lt_rank (hAscending minList) hCursor hLater).le fun index hIndex hStart hStop => ?_).symm
  rw [decide_eq_false_iff_not]
  intro hAll
  have hTail : (buckets minList).data[index] ∈ (buckets minList).data.drop (cursors minList) :=
    mem_drop_iff_getElem.mpr ⟨index - cursors minList, by omega, by simp [Nat.add_sub_cancel' hStart]⟩
  exact absurd (getElem_lt_of_lt_rank hStop hIndex)
    (not_lt.mpr (hGap _ (hAll i) (getD_le_of_mem_drop (hAscending minList) hCursor hTail)))

theorem commonFrom_exhausted
    (hEnd : ∀ tuple ∈ (buckets i).data, tuple < (buckets minList).data.getD (cursors minList) 0) :
    commonFrom buckets minList (cursors minList) = [] := by
  refine eq_nil_iff_forall_not_mem.mpr fun tuple hTuple => ?_
  obtain ⟨hTail, hAll⟩ := mem_commonFrom.mp hTuple
  exact absurd (hEnd tuple (hAll i)) (not_lt.mpr (getD_le_of_mem_drop (hAscending minList) hCursor hTail))

omit hAscending in
theorem commonFrom_allEqual (hAll : ∀ i, (buckets minList).data.getD (cursors minList) 0 ∈ (buckets i).data) :
    commonFrom buckets minList (cursors minList) =
      (buckets minList).data.getD (cursors minList) 0 :: commonFrom buckets minList (cursors minList + 1) := by
  rw [commonFrom, drop_eq_cons hCursor, filter_cons, if_pos (decide_eq_true hAll), commonFrom]

end

/-- What a batch that a bucket drives produces, and the cursors it leaves. -/
structure DrivenBatch (buckets : Fin k → ColumnIndexBucket) (minList : Fin k) (room : Nat) (cursors : Fin k → Nat)
    (result : List Int) (next : Fin k → Nat) : Prop where
  result_eq : result = (commonFrom buckets minList (cursors minList)).take room
  next_eq : ∀ tuple, 0 < room → (commonFrom buckets minList (cursors minList))[room - 1]? = some tuple →
    next = afterBatch buckets minList tuple
  unchanged : room = 0 → next = cursors
  exhausted : (commonFrom buckets minList (cursors minList)).length < room → ∃ i, (buckets i).size ≤ next i

omit hAscending in
theorem DrivenBatch.of_nil {minList : Fin k} {room : Nat} {cursors next : Fin k → Nat}
    (hNil : commonFrom buckets minList (cursors minList) = []) (hSame : room = 0 → next = cursors)
    (hEnd : ∃ i, (buckets i).size ≤ next i) : DrivenBatch buckets minList room cursors [] next where
  result_eq := by rw [hNil, take_nil]
  next_eq tuple _ hTuple := by simp [hNil] at hTuple
  unchanged := hSame
  exhausted _ := hEnd

omit hAscending in
/-- One more result in front of a batch. -/
theorem DrivenBatch.cons {minList : Fin k} {room : Nat} {cursors advanced next : Fin k → Nat} {result : List Int}
    {tuple : Int} (h : DrivenBatch buckets minList (room - 1) advanced result next) (hRoom : room ≠ 0)
    (hCommon : commonFrom buckets minList (cursors minList) =
      tuple :: commonFrom buckets minList (advanced minList))
    (hAdvanced : advanced = afterBatch buckets minList tuple) :
    DrivenBatch buckets minList room cursors (tuple :: result) next := by
  obtain ⟨room, rfl⟩ := Nat.exists_eq_succ_of_ne_zero hRoom
  refine ⟨?_, fun last _ hLast => ?_, fun hZero => absurd hZero hRoom, fun hShort => ?_⟩
  · rw [h.result_eq, hCommon]
    rfl
  · rw [hCommon] at hLast
    cases room with
    | zero =>
      obtain rfl : tuple = last := by simpa using hLast
      exact (h.unchanged rfl).trans hAdvanced
    | succ room => exact h.next_eq last (Nat.succ_pos _) (by simpa using hLast)
  · rw [hCommon] at hShort
    exact h.exhausted (by simpa using hShort)

theorem scanMinList_spec (hSize : ∀ i, (buckets i).size ≤ maxSearched) (minList : Fin k) {rounds : Nat} (room : Nat)
    (cursors : Fin k → Nat) (hRounds : (buckets minList).size - cursors minList < rounds) :
    ∃ result next, scanMinList buckets minList rounds room cursors = some (result, next) ∧
      DrivenBatch buckets minList room cursors result next := by
  induction rounds generalizing room cursors with
  | zero => exact absurd hRounds (Nat.not_lt_zero _)
  | succ rounds ih =>
    rw [scanMinList]
    split
    · rename_i hCursor
      split
      · rename_i hFull
        subst hFull
        exact ⟨[], cursors, rfl, by simp, by simp, by simp, by simp⟩
      · rename_i hRoom
        dsimp only
        rcases probeBuckets_spec hAscending hSize minList ((buckets minList).data.getD (cursors minList) 0) (List.finRange k)
          cursors with ⟨next, hProbe, hEnd, i, hBelow⟩ | ⟨next, current, hProbe, hLater, hNext, i, hGap⟩ |
            ⟨next, hProbe, hKept, hFound⟩
        · rw [hProbe]
          exact ⟨[], next, rfl, .of_nil (commonFrom_exhausted hAscending hCursor hBelow)
            (fun hZero => absurd hZero hRoom) hEnd⟩
        · rw [hProbe]
          have hForward := (lt_rank (hAscending minList) hCursor hLater).trans_le rank_le_forwarded
          have hSame : commonFrom buckets minList (next minList) = commonFrom buckets minList (cursors minList) := by
            rw [hNext]
            exact commonFrom_later hAscending hCursor hLater hGap
          obtain ⟨result, last, hScan, hBatch⟩ := ih room next (by omega)
          refine ⟨result, last, hScan, ?_, ?_, fun hZero => absurd hZero hRoom, ?_⟩
          · rw [← hSame]
            exact hBatch.result_eq
          · rw [← hSame]
            exact hBatch.next_eq
          · rw [← hSame]
            exact hBatch.exhausted
        · simp only [hProbe]
          have hSelf := getD_eq_getElem (buckets minList).data 0 hCursor
          have hAll : ∀ i, (buckets minList).data.getD (cursors minList) 0 ∈ (buckets i).data := by
            intro i
            by_cases hSame : i = minList
            · rw [hSame, hSelf]
              exact getElem_mem _
            · exact (hFound i (mem_finRange i) hSame).1
          have hCommon := commonFrom_allEqual hCursor hAll
          have hStay := hKept minList (Or.inr rfl)
          obtain ⟨result, last, hScan, hBatch⟩ :=
            ih (room - 1) (Function.update next minList (next minList + 1)) (by rw [Function.update_self]; omega)
          refine ⟨_, last, by rw [hScan]; rfl, hBatch.cons hRoom (by rw [Function.update_self, hStay, hCommon]) ?_⟩
          funext i
          rw [afterBatch]
          split
          · rename_i hSame
            subst hSame
            rw [Function.update_self, hStay, hSelf, rank_getElem (hAscending i) hCursor]
          · rename_i hOther
            rw [Function.update_of_ne hOther, (hFound i (mem_finRange i) hOther).2]
    · rename_i hEnd
      exact ⟨[], cursors, rfl, .of_nil (commonFrom_eq_nil (not_lt.mp hEnd)) (fun _ => rfl)
        ⟨minList, not_lt.mp hEnd⟩⟩

end

end KushDB.ColumnIndex
