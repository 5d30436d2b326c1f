import KushDB.Library.Budget

/-! # How far a stopped run got

A run that stops at a visit has dealt with every counter up to the one before the visit's own when the
visit was accepted, and with everything below the visit's path when it was not.
The bounds count visits: the paths of a run ascend, and along one counter there are
only as many paths as it has digits.
-/

namespace KushDB.Loops

open Odometer List

/-- The greatest counter dealt with by a run that stopped at this visit. -/
def completed {T : Type} (levels : List (Level T)) (visit : Visit T) : List Int :=
  if visit.verdict = .accepted then (back (levels.map Level.base) (low (levels.map Level.base) visit.path)).1
  else high (levels.map Level.base) visit.path

/-- Ascending prefixes of one counter get longer. -/
theorem length_le_of_prefixes {paths : List (List Int)} {counter : List Int} {depth : Nat}
    (hSorted : paths.Pairwise (· < ·)) (hDepth : depth ≤ counter.length)
    (hPrefix : ∀ path ∈ paths, path <+: counter ∧ depth < path.length) :
    paths.length + depth ≤ counter.length := by
  induction paths generalizing depth with
  | nil => simpa using hDepth
  | cons path paths ih =>
    obtain ⟨hFirst, hRest⟩ := pairwise_cons.mp hSorted
    obtain ⟨hPath, hLong⟩ := hPrefix path mem_cons_self
    have hLonger : ∀ other ∈ paths, other <+: counter ∧ path.length < other.length := by
      intro other hOther
      have hOtherPrefix := (hPrefix other (mem_cons_of_mem _ hOther)).1
      refine ⟨hOtherPrefix, ?_⟩
      by_contra hShort
      have hLe := prefix_le (prefix_of_prefix_length_le hOtherPrefix hPath (by omega))
      exact absurd (hFirst other hOther) (not_lt.mpr hLe)
    have hLength := ih hRest hPath.length_le hLonger
    simp only [length_cons]
    omega

theorem prefix_zero_or_lt {bases path : List Int} (h : InRange (bases.take path.length) path)
    (hLength : path.length ≤ bases.length) : path <+: low bases [] ∨ low bases [] < path := by
  induction bases generalizing path with
  | nil =>
    rw [length_eq_zero_iff.mp (Nat.le_zero.mp hLength)]
    exact Or.inl nil_prefix
  | cons base bases ih =>
    cases path with
    | nil => exact Or.inl nil_prefix
    | cons digit path =>
      obtain ⟨hDigit, hRest⟩ := inRange_cons.mp (by simpa using h)
      change _ <+: 0 :: low bases [] ∨ 0 :: low bases [] < _
      rcases hDigit.1.lt_or_eq with hPos | rfl
      · exact Or.inr (cons_lt_cons_iff.mpr (Or.inl hPos))
      · exact (ih hRest (by simpa using hLength)).imp (prefix_cons_inj _).mpr
          fun hLt => cons_lt_cons_iff.mpr (Or.inr ⟨rfl, hLt⟩)

theorem take_one_eq {bases left right : List Int} (hLeft : InRange bases left) (hRight : InRange bases right)
    (hLt : left < right) (hLe : right ≤ high bases (left.take 1)) : right.take 1 = left.take 1 := by
  cases hLeft with
  | nil => cases hRight; rfl
  | @cons base digit bases digits hDigit hDigits =>
    cases hRight with
    | @cons _ other _ others hOther hOthers =>
      have hFirst : digit ≤ other := by
        rcases cons_lt_cons_iff.mp hLt with hLt | ⟨hEq, _⟩ <;> omega
      have hSecond : other ≤ digit := by
        rcases cons_le_cons_iff.mp hLe with hLt | ⟨hEq, _⟩ <;> omega
      simp [le_antisymm hFirst hSecond]

section

variable {T : Type} {levels : List (Level T)} {rows : List Int → Option (List Int)}
  {accepts : List Int → Bool} {resume : Bool} {before after : List (Visit T)} {visit : Visit T}

variable {made : Visit T} {counter : List Int} (hProper : Proper levels rows)

section

variable (h : visit ∈ trace levels rows accepts resume)
include h

theorem stop_le_low : visit.path ≤ low (levels.map Level.base) visit.path :=
  le_low _ _ (by simpa using path_length_le h)

include hProper

theorem low_stop_inRange : InRange (levels.map Level.base) (low (levels.map Level.base) visit.path) :=
  low_inRange hProper.bases_pos (path_inRange hProper h)

theorem not_wraps_of_lt (hRange : InRange (levels.map Level.base) counter) (hLt : counter < visit.path) :
    (back (levels.map Level.base) (low (levels.map Level.base) visit.path)).2 = false := by
  cases hWrap : (back (levels.map Level.base) (low (levels.map Level.base) visit.path)).2 with
  | false => rfl
  | true =>
    have hLow := low_stop_inRange hProper h
    have hZero := ((back_spec hLow).2.1 hWrap).1
    have hValue := (lt_iff_value_lt hRange hLow).mp (hLt.trans_le (stop_le_low h))
    have hNonneg := (value_bounds hRange).1
    omega

theorem completed_inRange : InRange (levels.map Level.base) (completed levels visit) := by
  unfold completed
  split
  · exact back_inRange (low_stop_inRange hProper h)
  · exact high_inRange hProper.bases_pos (path_inRange hProper h)

end

section

variable (hTrace : trace levels rows accepts resume = before ++ visit :: after)
include hTrace

theorem stop_mem : visit ∈ trace levels rows accepts resume := by
  rw [hTrace]
  simp

theorem made_mem (h : made ∈ before ++ [visit]) : made ∈ trace levels rows accepts resume := by
  rw [hTrace]
  simp only [mem_append, mem_cons] at h ⊢
  tauto

theorem made_pos (h : made ∈ before ++ [visit]) : 0 < made.path.length :=
  length_pos_of_ne_nil (path_ne_nil (made_mem hTrace h))

include hProper

theorem made_sorted : ((before ++ [visit]).map Visit.path).Pairwise (· < ·) := by
  have hSorted : (trace levels rows accepts resume).Pairwise _ := trace_sorted hProper
  rw [hTrace, show before ++ visit :: after = (before ++ [visit]) ++ after by simp] at hSorted
  exact pairwise_map.mpr (pairwise_append.mp hSorted).1

theorem made_le (h : made ∈ before ++ [visit]) : made.path ≤ visit.path := by
  have hSorted := made_sorted hProper hTrace
  rw [map_append, pairwise_append] at hSorted
  rcases mem_append.mp h with hBefore | hLast
  · exact (hSorted.2.2 _ (mem_map_of_mem hBefore) _ (by simp)).le
  · rw [mem_singleton.mp hLast]

/-- After as many visits as there are levels, a run has left every counter
that all its visits lie on or above. -/
theorem lt_stop (hLength : counter.length = levels.length) (hBudget : levels.length ≤ before.length)
    (hVisits : ∀ made ∈ before ++ [visit], made.path <+: counter ∨ counter < made.path) : counter < visit.path := by
  by_contra hLe
  have hPrefix : ∀ path ∈ (before ++ [visit]).map Visit.path, path <+: counter ∧ 0 < path.length := by
    intro path hPath
    obtain ⟨made, hMade, rfl⟩ := mem_map.mp hPath
    refine ⟨(hVisits made hMade).resolve_right fun hLt => hLe (hLt.trans_le (made_le hProper hTrace hMade)), ?_⟩
    exact made_pos hTrace hMade
  have hCount := length_le_of_prefixes (made_sorted hProper hTrace) (Nat.zero_le _) hPrefix
  simp only [length_map, length_append, length_singleton] at hCount
  omega

/-- A run with budget for more visits than there are levels never steps back past zero. -/
theorem not_wraps (hBudget : levels.length ≤ before.length) :
    (back (levels.map Level.base) (low (levels.map Level.base) visit.path)).2 = false := by
  have hZero : InRange (levels.map Level.base) (low (levels.map Level.base) []) :=
    low_inRange hProper.bases_pos (by simp [InRange])
  refine not_wraps_of_lt hProper (stop_mem hTrace) hZero
    (lt_stop hProper hTrace (by simpa using hZero.length_eq.symm) hBudget fun made hMade => ?_)
  exact prefix_zero_or_lt (path_inRange hProper (made_mem hTrace hMade))
    (by simpa using path_length_le (made_mem hTrace hMade))

/-- Every solution a run is responsible for, up to where it got, was handed out before it stopped. -/
theorem exists_handed_of_le_completed {path : List Int}
    (hBudget : levels.length ≤ before.length)
    (hSolves : Solves levels rows accepts path) (hFloor : List.Forall₂ (fun level row => level.floor < row) levels path)
    (hMark : resume = true → levels.map Level.mark ≤ path) (hLe : path ≤ completed levels visit) :
    ∃ made ∈ before, made.path = path ∧ made.hands = true := by
  have hNonempty : levels ≠ [] := by
    rintro rfl
    simp [trace] at hTrace
  have hStop := stop_mem hTrace
  have hRange := hSolves.inRange hProper
  -- A solution at or after the stop lies beyond what the run has dealt with.
  have hBeyond : visit.path ≤ path → (visit.verdict ≠ .accepted → visit.path ≠ path) → False := by
    intro hStopLe hNe
    unfold completed at hLe
    split at hLe
    · have hLow := low_stop_inRange hProper hStop
      have hLt := back_lt hLow (not_wraps hProper hTrace hBudget)
      exact absurd (hLe.trans_lt hLt) (not_lt.mpr (low_le_of_le hRange hStopLe))
    · rename_i hVerdict
      have hLt := lt_of_le_of_ne hStopLe (hNe hVerdict)
      exact absurd (high_lt_of_lt hRange.length_eq hLt (not_prefix_of_solves hStop hVerdict hSolves)) (not_lt.mpr hLe)
  obtain ⟨made, hMade, hPath, hVerdict, hLeaf⟩ := exists_visit_of_solves hProper hSolves hFloor hMark hNonempty
  rw [hTrace] at hMade
  rcases mem_append.mp hMade with hBefore | hAfter
  · exact ⟨made, hBefore, hPath, by simp [Visit.hands, hVerdict, hLeaf]⟩
  · rcases mem_cons.mp hAfter with rfl | hAfter
    · exact (hBeyond hPath.le fun hNot => absurd hVerdict hNot).elim
    · have hSorted : (trace levels rows accepts resume).Pairwise _ := trace_sorted hProper
      rw [hTrace] at hSorted
      have hLt := (pairwise_cons.mp (pairwise_append.mp hSorted).2.1).1 made hAfter
      rw [hPath] at hLt
      exact (hBeyond hLt.le fun _ => hLt.ne).elim

/-- A run never gets less far than a counter it starts from. -/
theorem le_completed (hRange : InRange (levels.map Level.base) counter) (hLt : counter < visit.path) :
    counter ≤ completed levels visit := by
  have hStop := stop_mem hTrace
  unfold completed
  split
  · exact (le_back_iff_lt hRange (low_stop_inRange hProper hStop) (not_wraps_of_lt hProper hStop hRange hLt)).mpr
      (hLt.trans_le (stop_le_low hStop))
  · exact hLt.le.trans (prefix_le (prefix_fill _ (by simpa using path_length_le hStop)))

/-- If it gets no further, every visit above the counter lies on the way down to the next one. -/
theorem prefix_low_stop (hRange : InRange (levels.map Level.base) counter) (hLt : counter < visit.path)
    (hStuck : ¬ counter < completed levels visit) (hMade : made ∈ before ++ [visit]) (hAbove : counter < made.path) :
    made.path <+: low (levels.map Level.base) visit.path := by
  have hStop := stop_mem hTrace
  have hLow := low_stop_inRange hProper hStop
  have hLowMade := low_stop_inRange hProper (made_mem hTrace hMade)
  have hStep := not_wraps_of_lt hProper hStop hRange hLt
  unfold completed at hStuck
  split at hStuck
  · have hLe : low (levels.map Level.base) made.path ≤ low (levels.map Level.base) visit.path :=
      low_le_of_le hLow ((made_le hProper hTrace hMade).trans (stop_le_low hStop))
    have hGe : low (levels.map Level.base) visit.path ≤ low (levels.map Level.base) made.path := by
      by_contra hNot
      have hBack := (le_back_iff_lt hLowMade hLow hStep).mpr (not_le.mp hNot)
      exact hStuck ((hAbove.trans_le (stop_le_low (made_mem hTrace hMade))).trans_le hBack)
    rw [hGe.antisymm hLe]
    exact prefix_fill _ (by simpa using path_length_le (made_mem hTrace hMade))
  · exact absurd (hLt.trans_le (prefix_le (prefix_fill _ (by simpa using path_length_le hStop)))) hStuck

/-- When no visit lies on the way down to the counter, one visit more than there are levels gets beyond it. -/
theorem lt_completed_of_above (hRange : InRange (levels.map Level.base) counter) (hBudget : levels.length ≤ before.length)
    (hAbove : ∀ made ∈ before ++ [visit], counter < made.path) : counter < completed levels visit := by
  by_contra hStuck
  have hLt := hAbove visit (by simp)
  have hPrefix : ∀ path ∈ (before ++ [visit]).map Visit.path,
      path <+: low (levels.map Level.base) visit.path ∧ 0 < path.length := by
    intro path hPath
    obtain ⟨made, hMade, rfl⟩ := mem_map.mp hPath
    exact ⟨prefix_low_stop hProper hTrace hRange hLt hStuck hMade (hAbove made hMade),
      made_pos hTrace hMade⟩
  have hCount := length_le_of_prefixes (made_sorted hProper hTrace) (Nat.zero_le _) hPrefix
  rw [← (low_stop_inRange hProper (stop_mem hTrace)).length_eq] at hCount
  simp only [length_map, length_append, length_singleton] at hCount
  omega

theorem low_stop_le_high_take (hRange : InRange (levels.map Level.base) counter) (hLt : counter < visit.path)
    (hStuck : ¬ counter < completed levels visit) (hTail : counter ≠ high (levels.map Level.base) (counter.take 1)) :
    low (levels.map Level.base) visit.path ≤ high (levels.map Level.base) (counter.take 1) := by
  have hStop := stop_mem hTrace
  have hLow := low_stop_inRange hProper hStop
  have hHigh : InRange (levels.map Level.base) (high (levels.map Level.base) (counter.take 1)) :=
    high_inRange hProper.bases_pos (hRange.take 1)
  have hFirst : counter.take 1 <+: counter := take_prefix 1 counter
  have hBelow : counter < high (levels.map Level.base) (counter.take 1) :=
    lt_of_le_of_ne (prefix_le_high hRange hFirst) hTail
  by_contra hNot
  have hBack := (le_back_iff_lt hHigh hLow (not_wraps_of_lt hProper hStop hRange hLt)).mpr (not_le.mp hNot)
  unfold completed at hStuck
  split at hStuck
  · exact hStuck (hBelow.trans_le hBack)
  · exact hStuck (hLt.trans_le (prefix_le (prefix_fill _ (by simpa using path_length_le hStop))))

/-- Twice as many visits as there are levels get beyond the counter a run was resumed at: one way down
to the counter, and one way down to the next, which share their first step. -/
theorem lt_completed (hRange : InRange (levels.map Level.base) counter) (hBudget : 2 * levels.length ≤ before.length + 1)
    (hVisits : ∀ made ∈ before ++ [visit], made.path <+: counter ∨ counter < made.path)
    (hTail : counter ≠ high (levels.map Level.base) (counter.take 1)) : counter < completed levels visit := by
  by_contra hStuck
  have hLength : counter.length = levels.length := by simpa using hRange.length_eq.symm
  have hPos : 0 < levels.length := by
    have hPath := length_pos_of_ne_nil (path_ne_nil (stop_mem hTrace))
    have hLe := path_length_le (stop_mem hTrace)
    omega
  have hLt := lt_stop hProper hTrace hLength (by omega) hVisits
  have hLow := low_stop_inRange hProper (stop_mem hTrace)
  have hHead := take_one_eq hRange hLow (hLt.trans_le (stop_le_low (stop_mem hTrace)))
    (low_stop_le_high_take hProper hTrace hRange hLt hStuck hTail)
  have hSorted := made_sorted hProper hTrace
  generalize hPaths : (before ++ [visit]).map Visit.path = paths at hSorted
  have hMade : ∀ path ∈ paths, ∃ made ∈ before ++ [visit], made.path = path := by
    intro path hPath
    rw [← hPaths] at hPath
    exact mem_map.mp hPath
  have hOnto : (paths.filter fun path => path ≤ counter).length + 0 ≤ counter.length := by
    refine length_le_of_prefixes (hSorted.filter _) (Nat.zero_le _) fun path hPath => ?_
    obtain ⟨hMem, hLe⟩ := mem_filter.mp hPath
    obtain ⟨made, hMadeMem, rfl⟩ := hMade path hMem
    exact ⟨(hVisits made hMadeMem).resolve_right (not_lt.mpr (of_decide_eq_true hLe)),
      made_pos hTrace hMadeMem⟩
  have hBeyond : (paths.filter fun path => !decide (path ≤ counter)).length + 1 ≤
      (low (levels.map Level.base) visit.path).length := by
    refine length_le_of_prefixes (hSorted.filter _) (by rw [← hLow.length_eq, length_map]; exact hPos) fun path hPath => ?_
    obtain ⟨hMem, hGt⟩ := mem_filter.mp hPath
    obtain ⟨made, hMadeMem, rfl⟩ := hMade path hMem
    have hAbove : counter < made.path := by simpa using hGt
    have hPrefix := prefix_low_stop hProper hTrace hRange hLt hStuck hMadeMem hAbove
    refine ⟨hPrefix, ?_⟩
    by_contra hShort
    have hTake : made.path = counter.take 1 := by
      have hOne : made.path.length = 1 := by
        have hNonempty := made_pos hTrace hMadeMem
        omega
      rw [prefix_iff_eq_take.mp hPrefix, hOne, hHead]
    exact absurd (hTake ▸ take_le_self 1 counter) (not_le.mpr hAbove)
  have hSplit := length_eq_length_filter_add (l := paths) fun path => path ≤ counter
  have hCount : paths.length = before.length + 1 := by rw [← hPaths]; simp
  rw [← hLow.length_eq] at hBeyond
  simp only [length_map] at hBeyond
  omega

end

end

end KushDB.Loops
