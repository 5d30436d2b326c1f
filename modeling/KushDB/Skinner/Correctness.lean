import KushDB.Skinner.Episode

/-! # No result row is lost

Every satisfying tuple that the join state counts as done, by an offset or by a path of the progress tree, was handed
out. An episode hands out all satisfying tuples between the records it started from and the tuple it ends at,
and the records it leaves behind speak of no others.
-/

namespace KushDB.Skinner

open Loops Odometer List

section

variable {n : Nat}
variable {tuple : List Int} {x : Fin n → Int} {tables : List (Fin n)}
variable {order : List (Fin n)} {cardinality offset : Fin n → Int} {m : Nat}

theorem map_assign (hNodup : order.Nodup) (hLength : order.length = tuple.length) :
    order.map (assign order tuple) = tuple := by
  refine ext_getElem (by simpa using hLength) fun index hLeft hRight => ?_
  have hIndex : index < order.length := by simpa using hLeft
  simp [assign, hNodup.idxOf_getElem, hRight]

theorem JoinOrder.map_inj (order : JoinOrder n) {y : Fin n → Int} (h : order.tables.map x = order.tables.map y) :
    x = y := by
  funext table
  rw [← assign_map x (order.complete table), h, assign_map y (order.complete table)]

theorem inRange_map (h : ∀ table, 0 ≤ x table ∧ x table < cardinality table) :
    InRange (tables.map cardinality) (tables.map x) := by
  rw [InRange, List.forall₂_map_left_iff, List.forall₂_map_right_iff, List.forall₂_same]
  exact fun table _ => h table

/-- A tuple above every offset that is not below another tuple is not below their maximum either. -/
theorem map_max_le {last : Fin n → Int} (hOffset : ∀ table, offset table < x table)
    (hLast : tables.map last ≤ tables.map x) :
    tables.map (fun table => max (offset table) (last table)) ≤ tables.map x := by
  induction tables with
  | nil => simp
  | cons table tables ih =>
    have hTable := hOffset table
    rw [map_cons, map_cons, cons_le_cons_iff] at hLast ⊢
    rcases hLast with hLt | ⟨hEq, hRest⟩
    · left
      omega
    · right
      exact ⟨by omega, ih hRest⟩

theorem map_lt_of_take (hTake : tables.take m = order.take m) (h : tables.map x < tuple.take m) :
    order.map x < tuple := by
  refine lt_of_take_lt (lt_of_le_of_lt (le_of_eq ?_) (lt_of_le_of_lt (take_le_self m _) h))
  rw [← map_take, ← map_take, hTake]

theorem JoinOrder.map_le_of_take {order other : JoinOrder n} (hTake : other.tables.take m = order.tables.take m)
    (h : other.tables.map x ≤ tuple.take m) : order.tables.map x ≤ tuple := by
  rcases h.lt_or_eq with hLt | hEq
  · exact (map_lt_of_take hTake hLt).le
  · have hLong : n ≤ m := by
      have hCount := congrArg List.length hEq
      rw [length_map, other.length_eq, length_take] at hCount
      omega
    rw [← JoinOrder.eq_of_take (by omega) hTake, hEq]
    exact take_le_self m tuple

/-- An update counts no tuple as done by its offset that the tuple it stores does not reach. -/
theorem le_of_le_updateOffset (hRange : InRange (tables.map cardinality) (tables.map x))
    (hLength : tables.length = tuple.length) {table : Fin n}
    (h : x table ≤ updateOffset cardinality offset (tables.zip tuple) table) :
    x table ≤ offset table ∨ tables.map x ≤ tuple := by
  cases tables with
  | nil => exact Or.inl h
  | cons first tables =>
    cases tuple with
    | nil => cases hLength
    | cons row rest =>
      have hRest : tables.length = rest.length := by simpa using hLength
      rw [updateOffset_cons hRest] at h
      by_cases hSame : table = first
      · subst hSame
        rw [Function.update_self, le_max_iff] at h
        refine h.symm.imp id fun hRow => ?_
        rw [map_cons, cons_le_cons_iff]
        unfold finishedRow at hRow
        split at hRow
        · rename_i hDone
          rcases hRow.lt_or_eq with hLt | hEq
          · exact Or.inl hLt
          · rw [hDone]
            exact Or.inr ⟨hEq, prefix_le_high (inRange_cons.mp hRange).2 nil_prefix⟩
        · left
          omega
      · rw [Function.update_of_ne hSame] at h
        exact Or.inl h

end

section

variable {n : Nat} {V : Type} [DecidableEq V] {q : Query n V} {hash : HashOrder n} {budget : Int}
variable {join : JoinState n} {order : JoinOrder n} {state : PermutableState n V}

omit [DecidableEq V] in
theorem Recorded.inBounds (h : Recorded q.cardinality join) (hCard : ∀ table, 0 < q.cardinality table) :
    InBounds q join :=
  ⟨hCard, h.offset_ge, h.offset_le, fun order _ => lastCompleted_inRange hCard (h.inRange order)⟩

section

variable {join : JoinState n} {order : JoinOrder n} {made : List (Visit (Fin n))} {final : List Int}

theorem episode_proper (hBounds : InBounds q join) (order : JoinOrder n) :
    Proper (q.episodeLevels join order.tables) (q.levelRows join.offset order.tables) :=
  levels_proper hBounds.cardinality hBounds.offset_ge order

theorem Ends.inRange (hBounds : InBounds q join) (h : Ends q budget join order.tables made final) :
    InRange (order.tables.map q.cardinality) final := by
  cases h with
  | whole hBudget => exact high_inRange (bases_pos hBounds.cardinality order) .nil
  | stopped before after visit hTrace hBudget =>
    rw [← episodeLevels_bases q join]
    exact completed_inRange (episode_proper hBounds order) (stop_mem hTrace)

theorem Ends.made_subset (h : Ends q budget join order.tables made final) :
    ∀ visit ∈ made, visit ∈ q.episodeTrace join order.tables := by
  intro visit hVisit
  cases h with
  | whole hBudget => exact hVisit
  | stopped before after stop hTrace hBudget =>
    rw [hTrace]
    exact mem_append_left _ hVisit

variable {x : Fin n → Int}

/-- Only satisfying tuples are handed out. -/
theorem Ends.satisfies (hBounds : InBounds q join) (hConditions : ∀ condition ∈ q.conditions, condition.tables ≠ [])
    (h : Ends q budget join order.tables made final) {visit : Visit (Fin n)} (hVisit : visit ∈ made)
    (hHands : visit.hands = true) (hPath : order.tables.map x = visit.path) : q.Satisfies x := by
  simp only [Visit.hands, decide_eq_true_eq] at hHands
  have hSolves := solves_of_leaf (h.made_subset visit hVisit) hHands.1 hHands.2
  rw [← hPath] at hSolves
  exact (solves_iff_satisfies hBounds.offset_ge hConditions order x).mp hSolves

/-- Every satisfying tuple beyond the records and up to the end of the episode is handed out. -/
theorem Ends.exists_handed (hBounds : InBounds q join) (hConditions : ∀ condition ∈ q.conditions, condition.tables ≠ [])
    (hTables : 0 < n) (hBudget : n < budget) (h : Ends q budget join order.tables made final)
    (hSatisfies : q.Satisfies x) (hOffset : ∀ table, join.offset table < x table)
    (hLast : ∀ last, join.getLastCompletedTupleIdx q.cardinality order.tables = some last → last ≤ order.tables.map x)
    (hLe : order.tables.map x ≤ final) : ∃ visit ∈ made, visit.path = order.tables.map x ∧ visit.hands = true := by
  have hProper := episode_proper hBounds order
  have hSolves : Solves (q.episodeLevels join order.tables) (q.levelRows join.offset order.tables)
      (q.levelAccepts order.tables) (order.tables.map x) :=
    (solves_iff_satisfies hBounds.offset_ge hConditions order x).mpr hSatisfies
  have hFloor : List.Forall₂ (fun level row => level.floor < row) (q.episodeLevels join order.tables)
      (order.tables.map x) := by
    rw [Query.episodeLevels, Query.levels, List.forall₂_map_left_iff, List.forall₂_map_right_iff, List.forall₂_same]
    exact fun table _ => hOffset table
  have hMark : (join.getLastCompletedTupleIdx q.cardinality order.tables).isSome = true →
      (q.episodeLevels join order.tables).map Level.mark ≤ order.tables.map x := by
    intro hSome
    obtain ⟨last, hInitial⟩ := Option.isSome_iff_exists.mp hSome
    have hLength : order.tables.length = last.length := by
      simpa using (hBounds.initial order last hInitial).length_eq
    have hMarks : (q.episodeLevels join order.tables).map Level.mark =
        order.tables.map fun table => max (join.offset table) (assign order.tables last table) := by
      simp [Query.episodeLevels, Query.levels, Query.level, Query.episodeMarks, resumeAt, hInitial, Function.comp_def]
    rw [hMarks]
    exact map_max_le hOffset (by rw [map_assign order.nodup hLength]; exact hLast last hInitial)
  have hCount := episodeLevels_length q join order
  cases h with
  | whole hSpare =>
    have hNonempty : q.episodeLevels join order.tables ≠ [] := by
      rw [← length_pos_iff, hCount]
      exact hTables
    obtain ⟨visit, hVisit, hPath, hVerdict, hLeaf⟩ := exists_visit_of_solves hProper hSolves hFloor hMark hNonempty
    exact ⟨visit, hVisit, hPath, by simp [Visit.hands, hVerdict, hLeaf]⟩
  | stopped before after visit hTrace hStop =>
    exact exists_handed_of_le_completed hProper hTrace (by omega) hSolves hFloor hMark hLe

end

/-- What an episode that returns has done. -/
theorem execute_ok {next : PermutableState n V} {episodeReward : Rat} (hBounds : InBounds q state.join)
    (hPrefix : q.prefixOrder <+: order.tables) (hTables : 0 < n) (hBudget : 1 ≤ budget)
    (h : execute q hash budget order.tables state = .ok (episodeReward, next)) :
    ∃ made final, ∃ tuples : List (Fin n → Int), Ends q budget state.join order.tables made final ∧
      tuples.map (fun x => order.tables.map x) = (made.filter Visit.hands).map Visit.path ∧
      next.globals.sink = tuples.foldl (fun out tuple => Sink.insert tuple out)
        { state.globals.sink with numResultTuples := 0 } ∧
      state.join.update q.cardinality order.tables final = .ok next.join ∧
      episodeReward = reward q.cardinality next.join.offset order.tables
        ((state.join.getLastCompletedTupleIdx q.cardinality order.tables).getD (order.tables.map fun _ => -1)) final
        next.globals.sink.numResultTuples budget := by
  rcases execute_spec hBounds hPrefix hTables hBudget with
    ⟨hError, _⟩ | ⟨made, final, tuples, wiring, globals, hEnds, hPaths, hSink, hExecute⟩
  · rw [hError] at h
    cases h
  · rw [hExecute] at h
    cases hUpdate : state.join.update q.cardinality order.tables final with
    | error error => simp [hUpdate, Except.map] at h
    | ok join =>
      simp only [hUpdate, Except.map, Except.ok.injEq, Prod.mk.injEq] at h
      obtain ⟨rfl, rfl⟩ := h
      exact ⟨made, final, tuples, hEnds, hPaths, hSink, hUpdate, rfl⟩

theorem Reached.recorded (hCard : ∀ table, 0 < q.cardinality table) (hTables : 0 < n) (hBudget : 1 ≤ budget)
    (h : Reached q hash budget state) : Recorded q.cardinality state.join := by
  induction h with
  | start wiring globals hHanded hOutput => exact recorded_initial hCard
  | episode order episodeReward hPrefix hState hExecute ih =>
    have hBounds := ih.inBounds hCard
    obtain ⟨made, final, tuples, hEnds, _, _, hUpdate, _⟩ := execute_ok hBounds hPrefix hTables hBudget hExecute
    exact ih.update (hEnds.inRange hBounds) hUpdate

/-- What the join state counts as done has been handed out. -/
structure Done (q : Query n V) (handed : List (Fin n → Int)) (join : JoinState n) : Prop where
  offset : ∀ x, q.Satisfies x → (∃ table, x table ≤ join.offset table) → x ∈ handed
  below : ∀ tables x, q.Satisfies x → tables.map x < along join.root tables → x ∈ handed
  upTo : ∀ (order : JoinOrder n) x, q.Satisfies x → order.tables.map x ≤ along join.root order.tables → x ∈ handed
  finished : join.finished = true → ∀ x, q.Satisfies x → x ∈ handed

theorem done_initial (hTables : 0 < n) : Done q [] .initial where
  offset x hSatisfies h := by
    obtain ⟨table, hLe⟩ := h
    have hNonneg := (hSatisfies.1 table).1
    simp only [JoinState.initial] at hLe
    omega
  below tables x _ h := by simp [JoinState.initial, along_null] at h
  upTo order x _ h := by
    rw [JoinState.initial, along_null] at h
    cases hOrder : order.tables with
    | nil => exact absurd (order.complete ⟨0, hTables⟩) (by simp [hOrder])
    | cons table tables =>
      rw [hOrder] at h
      exact absurd (nil_lt_cons _ _) (not_lt.mpr h)
  finished h := by cases h

/-- An update stays within what was handed out if that includes everything up to the tuple it stores. -/
theorem Done.update {handed more : List (Fin n → Int)} {next : JoinState n} (h : Done q handed join) {final : List Int}
    (hLength : order.tables.length = final.length) (hUpdate : join.update q.cardinality order.tables final = .ok next)
    (hOld : ∀ x ∈ handed, x ∈ more) (hNew : ∀ x, q.Satisfies x → order.tables.map x ≤ final → x ∈ more) :
    Done q more next := by
  have hRange : ∀ x, q.Satisfies x → InRange (order.tables.map q.cardinality) (order.tables.map x) :=
    fun x hSatisfies => inRange_map fun table => hSatisfies.1 table
  obtain ⟨_, ⟨hDone, rfl⟩ | ⟨_, root, hRoot, rfl⟩⟩ := update_ok hUpdate hLength
  · refine ⟨fun x hSatisfies hx => hOld x (h.offset x hSatisfies hx),
      fun tables x hSatisfies hx => hOld x (h.below tables x hSatisfies hx),
      fun other x hSatisfies hx => hOld x (h.upTo other x hSatisfies hx), fun _ x hSatisfies => hNew x hSatisfies ?_⟩
    rw [hDone]
    exact prefix_le_high (hRange x hSatisfies) nil_prefix
  · have hAlong := along_updateTree hLength hRoot
    refine ⟨fun x hSatisfies hx => ?_, fun tables x hSatisfies hx => ?_, fun other x hSatisfies hx => ?_, nofun⟩
    · obtain ⟨table, hLe⟩ := hx
      rcases le_of_le_updateOffset (hRange x hSatisfies) hLength hLe with hBefore | hFinal
      · exact hOld x (h.offset x hSatisfies ⟨table, hBefore⟩)
      · exact hNew x hSatisfies hFinal
    · rcases hAlong tables with hKept | ⟨m, hTake, hStored, _⟩
      · exact hOld x (h.below tables x hSatisfies (hKept ▸ hx))
      · exact hNew x hSatisfies (map_lt_of_take hTake (hStored ▸ hx)).le
    · rcases hAlong other.tables with hKept | ⟨m, hTake, hStored, _⟩
      · exact hOld x (h.upTo other x hSatisfies (hKept ▸ hx))
      · exact hNew x hSatisfies (JoinOrder.map_le_of_take hTake (hStored ▸ hx))

/-- The sink between episodes: only satisfying tuples, each passed on once. -/
structure Known (q : Query n V) (state : PermutableState n V) : Prop where
  done : Done q state.globals.sink.handed state.join
  sound : ∀ x ∈ state.globals.sink.handed, q.Satisfies x
  output : ∀ x, x ∈ state.globals.sink.output ↔ x ∈ state.globals.sink.handed
  nodup : state.globals.sink.output.Nodup

section

variable (hCard : ∀ table, 0 < q.cardinality table) (hConditions : ∀ condition ∈ q.conditions, condition.tables ≠ [])
  (hTables : 0 < n) (hBudget : n < budget) {state : PermutableState n V}

section

variable {order : JoinOrder n} {made : List (Visit (Fin n))} {final : List Int} {tuples : List (Fin n → Int)}

include hCard hConditions hTables hBudget in
/-- After the episode, everything satisfying up to the tuple it ends at has been handed out. -/
theorem Known.mem_of_le (h : Known q state) (hRecorded : Recorded q.cardinality state.join)
    (hEnds : Ends q budget state.join order.tables made final)
    (hPaths : tuples.map (fun x => order.tables.map x) = (made.filter Visit.hands).map Visit.path) {x : Fin n → Int}
    (hSatisfies : q.Satisfies x) (hLe : order.tables.map x ≤ final) : x ∈ state.globals.sink.handed ++ tuples := by
  have hBounds := hRecorded.inBounds hCard
  by_cases hOffset : ∃ table, x table ≤ state.join.offset table
  · exact mem_append_left _ (h.done.offset x hSatisfies hOffset)
  by_cases hStored : order.tables.map x ≤ along state.join.root order.tables
  · exact mem_append_left _ (h.done.upTo order x hSatisfies hStored)
  have hRange : InRange (order.tables.map q.cardinality) (order.tables.map x) :=
    inRange_map fun table => hSatisfies.1 table
  have hLast : ∀ last, state.join.getLastCompletedTupleIdx q.cardinality order.tables = some last →
      last ≤ order.tables.map x := by
    intro last hSome
    rw [← le_lastCompleted_iff hCard (hRecorded.inRange order) hTables hRange] at hStored
    exact (not_le.mp fun hLe => hStored ⟨last, hSome, hLe⟩).le
  obtain ⟨visit, hVisit, hPath, hHands⟩ := hEnds.exists_handed hBounds hConditions hTables hBudget hSatisfies
    (fun table => not_le.mp fun hLe => hOffset ⟨table, hLe⟩) hLast hLe
  have hMem : visit.path ∈ (made.filter Visit.hands).map Visit.path :=
    mem_map_of_mem (mem_filter.mpr ⟨hVisit, hHands⟩)
  rw [← hPaths, hPath] at hMem
  obtain ⟨y, hTuple, hMap⟩ := mem_map.mp hMem
  rw [← order.map_inj hMap]
  exact mem_append_right _ hTuple

end

include hCard hConditions hTables hBudget in
theorem Known.episode (h : Known q state) (hRecorded : Recorded q.cardinality state.join)
    {next : PermutableState n V} {order : JoinOrder n} {episodeReward : Rat} (hPrefix : q.prefixOrder <+: order.tables)
    (hExecute : execute q hash budget order.tables state = .ok (episodeReward, next)) : Known q next := by
  have hBounds := hRecorded.inBounds hCard
  obtain ⟨made, final, tuples, hEnds, hPaths, hSink, hUpdate, _⟩ :=
    execute_ok hBounds hPrefix hTables (by omega) hExecute
  obtain ⟨hHanded, hOutput, hNodup⟩ := foldl_insert tuples { state.globals.sink with numResultTuples := 0 }
  rw [← hSink] at hHanded hOutput hNodup
  have hOld : ∀ x ∈ state.globals.sink.handed, x ∈ next.globals.sink.handed := by
    intro x hx
    rw [hHanded]
    exact mem_append_left _ hx
  have hNew : ∀ x, q.Satisfies x → order.tables.map x ≤ final → x ∈ next.globals.sink.handed := by
    intro x hSatisfies hLe
    rw [hHanded]
    exact h.mem_of_le hCard hConditions hTables hBudget hRecorded hEnds hPaths hSatisfies hLe
  have hLength : order.tables.length = final.length := by simpa using (hEnds.inRange hBounds).length_eq
  refine ⟨h.done.update hLength hUpdate hOld hNew, fun x hx => ?_, fun x => ?_, hNodup h.nodup⟩
  · rw [hHanded] at hx
    rcases mem_append.mp hx with hBefore | hTuple
    · exact h.sound x hBefore
    · have hMem := mem_map_of_mem (f := fun x => order.tables.map x) hTuple
      rw [hPaths] at hMem
      obtain ⟨visit, hVisit, hPath⟩ := mem_map.mp hMem
      obtain ⟨hMade, hHands⟩ := mem_filter.mp hVisit
      exact hEnds.satisfies hBounds hConditions hMade hHands hPath.symm
  · rw [hOutput, hHanded, mem_append, h.output]

theorem Reached.known (hCard : ∀ table, 0 < q.cardinality table)
    (hConditions : ∀ condition ∈ q.conditions, condition.tables ≠ []) (hTables : 0 < n) (hBudget : n < budget)
    (h : Reached q hash budget state) : Known q state := by
  induction h with
  | start wiring globals hHanded hOutput =>
    refine ⟨?_, ?_, ?_, ?_⟩ <;> simp only [hHanded, hOutput]
    · exact done_initial hTables
    · exact fun x hx => absurd hx not_mem_nil
    · simp
    · exact nodup_nil
  | episode order episodeReward hPrefix hState hExecute ih =>
    exact ih.episode hCard hConditions hTables hBudget (hState.recorded hCard hTables (by omega)) hPrefix hExecute

/-- In every state reached, the satisfying tuples that an offset or a path of the progress tree passes over have been
handed out, and a finished join has passed on exactly the satisfying tuples, each once. -/
theorem join_correct (hCard : ∀ table, 0 < q.cardinality table)
    (hConditions : ∀ condition ∈ q.conditions, condition.tables ≠ []) (hTables : 0 < n) (hBudget : n < budget)
    (h : Reached q hash budget state) :
    (∀ x, q.Satisfies x →
      (∃ table, x table ≤ state.join.offset table) ∨ (∃ tables, tables.map x < along state.join.root tables) →
        x ∈ state.globals.sink.handed) ∧
    (state.join.finished = true →
      (∀ x, x ∈ state.globals.sink.output ↔ q.Satisfies x) ∧ state.globals.sink.output.Nodup) := by
  have hKnown := h.known hCard hConditions hTables hBudget
  refine ⟨fun x hSatisfies hDone => ?_, fun hFinished => ⟨fun x => ?_, hKnown.nodup⟩⟩
  · rcases hDone with hOffset | ⟨tables, hBelow⟩
    · exact hKnown.done.offset x hSatisfies hOffset
    · exact hKnown.done.below tables x hSatisfies hBelow
  · rw [hKnown.output]
    exact ⟨hKnown.sound x, hKnown.done.finished hFinished x⟩

end

end

def prefixStart : PermutableState 2 Nat :=
  ⟨.initial, ⟨fun _ => .validTuple, fun _ => false⟩,
    ⟨fun _ => 0, 0, ⟨[], [], 0⟩, fun _ => -1, fun _ => -1, fun _ => none⟩⟩

/-- Two episodes of three visits each join the two tables. -/
theorem join_correct_prefixJoin : ∃ firstReward middle secondReward state,
    execute prefixJoin (.inserted 2) 3 [0, 1] prefixStart = .ok (firstReward, middle) ∧
      execute prefixJoin (.inserted 2) 3 [0, 1] middle = .ok (secondReward, state) ∧ state.join.finished = true ∧
      (∀ x, x ∈ state.globals.sink.output ↔ prefixJoin.Satisfies x) ∧ state.globals.sink.output.Nodup := by
  let order : JoinOrder 2 := ⟨[0, 1], by decide, by decide⟩
  have hStart : Reached prefixJoin (.inserted 2) 3 prefixStart := .start _ _ rfl rfl
  refine ⟨_, _, _, _, rfl, rfl, rfl, ?_⟩
  exact (join_correct (by decide) (by decide) (by decide) (by decide)
    (.episode order _ (by decide) (.episode order _ (by decide) hStart rfl) rfl)).2 rfl

end KushDB.Skinner
