import KushDB.Skinner.Correctness

/-! # How far an episode gets beyond its order's records

An episode first goes down to the tuple its order is resumed at. With a budget of twice the number of tables it gets
beyond that tuple; with less it may have to end where it began, which is short of a path that another
order has stored on the tables the two share.
-/

namespace KushDB.Skinner

open Loops Odometer List

section

variable {n : Nat} {cardinality : Fin n → Int} {join : JoinState n} {order : JoinOrder n} {first : Fin n}
  {rest : List (Fin n)}

variable {path : List Int} {stored : Int}

theorem along_first (hOrder : order.tables = first :: rest) (hAlong : along join.root order.tables = stored :: path) :
    along join.root [first] = [stored] := by
  have hTake := along_take join.root order.tables 1
  rw [hAlong, hOrder] at hTake
  simpa using hTake

/-- A row before the one that the root node stores is done with. -/
theorem Recorded.le_offset_of_lt (h : Recorded cardinality join) (hOrder : order.tables = first :: rest) {digit : Int}
    (hAlong : along join.root order.tables = stored :: path) (hLt : digit < stored) : digit ≤ join.offset first := by
  have hRoot := h.root_le first stored (along_first hOrder hAlong)
  omega

section

variable (h : Recorded cardinality join) (hCard : ∀ table, 0 < cardinality table) (hOrder : order.tables = first :: rest)
  {digit : Int} {digits : List Int}
  (hLast : join.getLastCompletedTupleIdx cardinality order.tables = some (digit :: digits))

include h hCard hLast

theorem Recorded.last_le_along (hTables : 0 < n) : digit :: digits ≤ along join.root order.tables :=
  (le_lastCompleted_iff hCard (h.inRange order) hTables (lastCompleted_inRange hCard (h.inRange order) hLast)).mp
    ⟨_, hLast, le_rfl⟩

include hOrder

/-- A first table whose row has been run through with all rows of the others is done up to that row. -/
theorem Recorded.head_le (hTables : 0 < n) (hTail : digits = high (rest.map cardinality) []) :
    digit ≤ join.offset first := by
  have hLe := h.last_le_along hCard hLast hTables
  have hBases := bases_pos hCard order
  have hRange := h.inRange order
  cases hAlong : along join.root order.tables with
  | nil =>
    rw [hAlong] at hLe
    exact absurd (nil_lt_cons digit digits) (not_lt.mpr hLe)
  | cons stored path =>
    rw [hAlong] at hLe hRange
    rcases cons_le_cons_iff.mp hLe with hLt | ⟨rfl, _⟩
    · exact h.le_offset_of_lt hOrder hAlong hLt
    · -- The least tuple below the stored path is no further than the last one with the same first row.
      have hLow := low_inRange hBases hRange
      have hBelow := prefix_le_high hLow (show [digit] <+: low _ (digit :: path) by
        rw [hOrder]
        exact ⟨low (rest.map cardinality) path, rfl⟩)
      have hEq : digit :: path = digit :: digits := by
        refine le_antisymm ?_ hLe
        refine (le_low (order.tables.map cardinality) _ ?_).trans (hBelow.trans (le_of_eq ?_))
        · have hLength := along_length_le join.root order.tables
          rwa [hAlong, ← length_map (f := cardinality)] at hLength
        · rw [hOrder, hTail]
          rfl
      refine h.last_le order first rest digit hOrder ?_
      rw [hAlong, hEq, hTail]

end

end

section

variable {n : Nat} {V : Type} [DecidableEq V] {q : Query n V} {budget : Int} {join : JoinState n} {order : JoinOrder n}
  {last : List Int}

variable {visit : Visit (Fin n)}

/-- Every visit of a resumed episode lies on the way down to the tuple it is resumed at, or beyond. -/
theorem visit_of_resumed (hBounds : InBounds q join)
    (hLast : join.getLastCompletedTupleIdx q.cardinality order.tables = some last)
    (h : visit ∈ q.episodeTrace join order.tables) : visit.path <+: last ∨ last < visit.path := by
  have hRange := hBounds.initial order last hLast
  have hLength : order.tables.length = last.length := by simpa using hRange.length_eq
  have hMark : List.Forall₂ (fun level digit => level.mark = max level.floor digit) (q.episodeLevels join order.tables)
      last := by
    have hDigits := map_assign order.nodup hLength
    rw [← hDigits, Query.episodeLevels, Query.levels, List.forall₂_map_left_iff, List.forall₂_map_right_iff,
      List.forall₂_same]
    intro table _
    simp [Query.level, Query.episodeMarks, resumeAt, hLast]
  rw [Query.episodeTrace, hLast] at h
  exact prefix_or_lt_of_resume (by rwa [episodeLevels_bases]) hMark h

/-- An offset at or above the first row leaves no visit on the way down. -/
theorem lt_visit_of_offset (hBounds : InBounds q join) {first : Fin n} {rest : List (Fin n)}
    (hOrder : order.tables = first :: rest) {digit : Int} {digits : List Int} (hOffset : digit ≤ join.offset first)
    (h : visit ∈ q.episodeTrace join order.tables) : digit :: digits < visit.path := by
  have hRows := @levelRows_first n V _ q join.offset order first rest hOrder hBounds.offset_ge
  rw [Query.episodeTrace, Query.episodeLevels, Query.levels] at h
  conv at h in List.map _ _ => rw [hOrder]
  exact lt_of_floor (by rw [hRows]; simp) hOffset h

section

variable (hRecorded : Recorded q.cardinality join) (hCard : ∀ table, 0 < q.cardinality table) (hTables : 0 < n)
  {made : List (Visit (Fin n))} {final : List Int} (hEnds : Ends q budget join order.tables made final)

include hRecorded hCard

variable {after before : List (Visit (Fin n))} {visit : Visit (Fin n)}

/-- The resumed tuple lies within its first row, so the episode meets its two ways down. -/
theorem lt_completed_of_twice (hTables : 0 < n) (hTrace : q.episodeTrace join order.tables = before ++ visit :: after)
    (hTwice : 2 * n ≤ before.length + 1) (hLast : join.getLastCompletedTupleIdx q.cardinality order.tables = some last) :
    last < completed (q.episodeLevels join order.tables) visit := by
  have hBounds := hRecorded.inBounds hCard
  have hProper := episode_proper hBounds order
  have hRange := hBounds.initial order last hLast
  have hLevels := episodeLevels_length q join order
  obtain ⟨first, rest, hOrder⟩ := order.exists_cons hTables
  have hRangeLevels : InRange ((q.episodeLevels join order.tables).map Level.base) last := by rwa [episodeLevels_bases]
  by_cases hTail : last = high ((q.episodeLevels join order.tables).map Level.base) (last.take 1)
  · rw [episodeLevels_bases, hOrder] at hTail
    cases last with
    | nil => cases hTail
    | cons digit digits =>
      have hHead := hRecorded.head_le hCard hOrder hLast hTables (cons_eq_cons.mp hTail).2
      exact lt_completed_of_above hProper hTrace hRangeLevels (by omega) fun made hMade =>
        lt_visit_of_offset hBounds hOrder hHead (made_mem hTrace hMade)
  · exact lt_completed hProper hTrace hRangeLevels (by omega)
      (fun made hMade => visit_of_resumed hBounds hLast (made_mem hTrace hMade)) hTail

include hTables

omit [DecidableEq V] in
/-- An episode that gets beyond the tuple it was resumed at gets beyond the stored path. -/
theorem along_lt_of_last_lt (hFinal : InRange (order.tables.map q.cardinality) final)
    (h : ∀ last, join.getLastCompletedTupleIdx q.cardinality order.tables = some last → last < final) :
    along join.root order.tables < final := by
  by_contra hNot
  obtain ⟨last, hLast, hLe⟩ :=
    (le_lastCompleted_iff hCard (hRecorded.inRange order) hTables hFinal).mpr (not_lt.mp hNot)
  exact absurd (h last hLast) (not_lt.mpr hLe)

/-- Up to three tables leave orders no place to part but below their first one. -/
theorem lt_completed_of_few (hFew : n ≤ 3) (hTrace : q.episodeTrace join order.tables = before ++ visit :: after)
    (hCount : n ≤ before.length) (hPartial : (along join.root order.tables).length < n)
    (hLast : join.getLastCompletedTupleIdx q.cardinality order.tables = some last) :
    last < completed (q.episodeLevels join order.tables) visit := by
  have hBounds := hRecorded.inBounds hCard
  have hRange := hBounds.initial order last hLast
  have hLevels := episodeLevels_length q join order
  have hShort := hRecorded.length_ne order
  obtain ⟨first, rest, hOrder⟩ := order.exists_cons hTables
  have hLength := hRange.length_eq
  rw [length_map, order.length_eq] at hLength
  cases last with
  | nil => simp at hLength; omega
  | cons digit digits =>
    have hLe := hRecorded.last_le_along hCard hLast hTables
    have hLt : digit ≤ join.offset first := by
      cases hAlong : along join.root order.tables with
      | nil =>
        rw [hAlong] at hLe
        exact absurd (nil_lt_cons digit digits) (not_lt.mpr hLe)
      | cons stored path =>
        refine hRecorded.le_offset_of_lt hOrder hAlong ?_
        rw [hAlong] at hLe hPartial hShort
        simp only [length_cons] at hPartial hShort hLength
        rcases cons_le_cons_iff.mp hLe with hLt | ⟨_, hRest⟩
        · exact hLt
        · rw [length_eq_zero_iff.mp (show path.length = 0 by omega)] at hRest
          cases digits with
          | nil => simp at hLength; omega
          | cons other digits => exact absurd (nil_lt_cons other digits) (not_lt.mpr hRest)
    refine lt_completed_of_above (episode_proper hBounds order) hTrace (by rwa [episodeLevels_bases]) (by omega)
      fun made hMade => lt_visit_of_offset hBounds hOrder hLt (made_mem hTrace hMade)

include hEnds

/-- The tuple an episode ends at is never below the path stored along its order. -/
theorem along_le_final (hBudget : n < budget) (hRoom : n ≤ 3 ∨ 2 * n ≤ budget) :
    along join.root order.tables ≤ final := by
  have hBounds := hRecorded.inBounds hCard
  have hFinal := hEnds.inRange hBounds
  cases hEnds with
  | whole hSpare =>
    have hLow := low_inRange (bases_pos hCard order) (hRecorded.inRange order)
    refine (le_low _ _ ?_).trans (prefix_le_high hLow nil_prefix)
    rw [length_map]
    exact along_length_le join.root order.tables
  | stopped before after visit hTrace hStop =>
    have hLevels := episodeLevels_length q join order
    by_cases hFull : (along join.root order.tables).length = n
    · have hLast := @lastCompleted_of_full n q.cardinality join order hFull
      have hRange : InRange ((q.episodeLevels join order.tables).map Level.base) (along join.root order.tables) := by
        rw [episodeLevels_bases]
        exact hBounds.initial order _ hLast
      exact le_completed (episode_proper hBounds order) hTrace hRange
        (lt_stop (episode_proper hBounds order) hTrace (by omega) (by omega) fun made hMade =>
          visit_of_resumed hBounds hLast (made_mem hTrace hMade))
    · have hPartial : (along join.root order.tables).length < n := by
        have hLe := along_length_le join.root order.tables
        rw [order.length_eq] at hLe
        omega
      refine (along_lt_of_last_lt hRecorded hCard hTables hFinal fun last hLast => ?_).le
      rcases hRoom with hFew | hTwice
      · exact lt_completed_of_few hRecorded hCard hTables hFew hTrace (by omega) hPartial hLast
      · exact lt_completed_of_twice hRecorded hCard hTables hTrace (by omega) hLast

end

end

end KushDB.Skinner
