import KushDB.Skinner.Hybrid
import KushDB.Skinner.Record

/-! # What an episode comes to

An episode either makes all visits of its trace or stops at the visit that uses up the budget. In the first case
its last completed tuple is the last of all tuples; in the second it is what the run has `completed`.
-/

namespace KushDB.Skinner

open Loops Odometer List

section

variable {n : Nat} {V : Type}

def resumeAt (offset : Fin n → Int) (order : List (Fin n)) (initial : Option (List Int)) : Fin n → Int :=
  fun table => max (offset table) (assign order (initial.getD (order.map fun _ => -1)) table)

/-- The progress array of an episode. -/
def Query.episodeMarks (q : Query n V) (join : JoinState n) (order : List (Fin n)) : Fin n → Int :=
  resumeAt join.offset order (join.getLastCompletedTupleIdx q.cardinality order)

/-- The loops of an order as an episode finds them. -/
def Query.episodeLevels (q : Query n V) (join : JoinState n) (order : List (Fin n)) : List (Level (Fin n)) :=
  q.levels join.offset (q.episodeMarks join order) order

def Query.episodeTrace [DecidableEq V] (q : Query n V) (join : JoinState n) (order : List (Fin n)) :
    List (Visit (Fin n)) :=
  trace (q.episodeLevels join order) (q.levelRows join.offset order) (q.levelAccepts order)
    (join.getLastCompletedTupleIdx q.cardinality order).isSome

/-- How an episode ends: the visits made with budget to spare, and the last completed tuple. -/
inductive Ends [DecidableEq V] (q : Query n V) (budget : Int) (join : JoinState n) (order : List (Fin n)) :
    List (Visit (Fin n)) → List Int → Prop
  | whole (hBudget : (q.episodeTrace join order).length < budget) :
      Ends q budget join order (q.episodeTrace join order) (high (order.map q.cardinality) [])
  | stopped (before after : List (Visit (Fin n))) (visit : Visit (Fin n))
      (hTrace : q.episodeTrace join order = before ++ visit :: after) (hBudget : budget = before.length + 1) :
      Ends q budget join order before (completed (q.episodeLevels join order) visit)

/-- The bounds that keep an order's first loop from being empty. -/
structure InBounds (q : Query n V) (join : JoinState n) : Prop where
  cardinality : ∀ table, 0 < q.cardinality table
  offset_ge : ∀ table, -1 ≤ join.offset table
  offset_le : ∀ table, join.offset table ≤ q.cardinality table - 2
  initial : ∀ (order : JoinOrder n) digits,
    join.getLastCompletedTupleIdx q.cardinality order.tables = some digits →
      InRange (order.tables.map q.cardinality) digits

theorem episodeLevels_names (q : Query n V) (join : JoinState n) (order : List (Fin n)) :
    (q.episodeLevels join order).map Level.name = order := by
  simp [Query.episodeLevels, Query.levels, Query.level, Function.comp_def]

theorem episodeLevels_bases (q : Query n V) (join : JoinState n) (order : List (Fin n)) :
    (q.episodeLevels join order).map Level.base = order.map q.cardinality := by
  simp [Query.episodeLevels, Query.levels, Query.level, Function.comp_def]

theorem episodeLevels_length (q : Query n V) (join : JoinState n) (order : JoinOrder n) :
    (q.episodeLevels join order.tables).length = n := by
  rw [Query.episodeLevels, Query.levels, length_map, order.length_eq]

variable {q : Query n V}

/-- No equality is due at the first table. -/
theorem due_first {order : JoinOrder n} {first : Fin n} {rest : List (Fin n)} (hOrder : order.tables = first :: rest) :
    ∀ condition ∈ q.due order.tables first, condition.isEquality = false := by
  intro condition hDue
  cases condition with
  | general columns holds reads => rfl
  | equality left right distinct =>
    have hTables : ∀ table ∈ (Condition.equality left right distinct : Condition n V).tables, table = first :=
      fun table hTable => (@mem_before_of_due n V rest [] first q _ (JoinOrder.split hOrder)
        (by simpa [hOrder] using hDue) table hTable).resolve_left not_mem_nil
    have hLeft := hTables left.childIdx (mem_tables_equality.mpr (Or.inl rfl))
    have hRight := hTables right.childIdx (mem_tables_equality.mpr (Or.inr rfl))
    exact absurd (hLeft.trans hRight.symm) distinct

theorem collectBuckets_of_general [DecidableEq V] {table : Fin n} {values : ColRef n → Option V}
    {conditions : List (Condition n V)} (h : ∀ condition ∈ conditions, condition.isEquality = false) :
    q.collectBuckets table values conditions = some [] := by
  induction conditions with
  | nil => rfl
  | cons condition conditions ih =>
    cases condition with
    | equality left right distinct => cases h _ mem_cons_self
    | general columns holds reads => exact ih fun other hOther => h other (mem_cons_of_mem _ hOther)

theorem levelRows_first [DecidableEq V] {q : Query n V} {offset : Fin n → Int} {order : JoinOrder n} {first : Fin n}
    {rest : List (Fin n)} (hOrder : order.tables = first :: rest) (hOffset : ∀ table, -1 ≤ offset table) :
    q.levelRows offset order.tables [] = some (scanRows 0 (q.cardinality first)) := by
  have hRows := @levelRows_eq n V _ q [] rest first [] offset rfl
  rw [nil_append, ← hOrder] at hRows
  rw [hRows, Query.searchRows, collectBuckets_of_general (due_first hOrder), firstRow_eq_zero hOffset]
  rfl

theorem scanRows_concat {start cardinality : Int} (h : start < cardinality) :
    scanRows start cardinality = scanRows start (cardinality - 1) ++ [cardinality - 1] := by
  refine eq_of_ascending (scanRows_ascending _ _) ?_ fun row => ?_
  · refine pairwise_append.mpr ⟨scanRows_ascending _ _, pairwise_singleton _ _, fun row hRow last hLast => ?_⟩
    rw [mem_scanRows] at hRow
    rw [mem_singleton.mp hLast]
    exact hRow.2
  · simp only [mem_scanRows, mem_append, mem_singleton]
    omega

end

section

variable {n : Nat} {V : Type} [DecidableEq V] {q : Query n V} {join : JoinState n} {order : JoinOrder n}
  {cursor : Cursor (Fin n) (Sink n)}

theorem final_of_stop {before after : List (Visit (Fin n))} {visit : Visit (Fin n)}
    (hTrace : q.episodeTrace join order.tables = before ++ visit :: after) :
    computeLastCompletedTuple q.cardinality order.tables visit.verdict.status visit.name
      (Function.update (before.foldl (Cursor.pass Sink.insert) cursor).idx visit.name visit.row) =
        completed (q.episodeLevels join order.tables) visit := by
  have hMem := stop_mem hTrace
  have hName := name_eq hMem
  rw [episodeLevels_names] at hName
  obtain ⟨hIndex, hGet⟩ := List.getElem?_eq_some_iff.mp hName
  have hPos := length_pos_of_ne_nil (path_ne_nil hMem)
  have hDepth : order.tables.idxOf visit.name + 1 = visit.path.length := by
    rw [← hGet, order.nodup.idxOf_getElem]
    omega
  have hPath := idx_eq_path Sink.insert (by rw [episodeLevels_names]; exact order.nodup) hTrace cursor
  rw [episodeLevels_names] at hPath
  rw [computeLastCompletedTuple, if_pos (order.complete _), hDepth, ← map_take, hPath, completed,
    episodeLevels_bases]
  cases visit.verdict <;> simp [Verdict.status]

variable {first : Fin n} {rest : List (Fin n)} {budget : Int}

omit [DecidableEq V] in
theorem start_le_last (hBounds : InBounds q join) (hOrder : order.tables = first :: rest) :
    (q.level join.offset (q.episodeMarks join order.tables) first).start
      (join.getLastCompletedTupleIdx q.cardinality order.tables).isSome ≤ q.cardinality first - 1 := by
  have hFirst := hBounds.offset_le first
  have hCard := hBounds.cardinality first
  cases hInitial : join.getLastCompletedTupleIdx q.cardinality order.tables with
  | none =>
    simp only [Query.level, Level.start, Option.isSome_none, Bool.false_eq_true, if_false]
    omega
  | some digits =>
    have hDigits := hBounds.initial order digits hInitial
    rw [hOrder] at hDigits hInitial
    cases hDigits with
    | @cons _ digit _ digits hDigit _ =>
      simp only [Query.level, Level.start, Query.episodeMarks, resumeAt, hInitial, Option.isSome_some, if_true, hOrder,
        assign, Option.getD_some, idxOf_cons_self, getD_cons_zero]
      omega

theorem final_of_whole (hBounds : InBounds q join) (hOrder : order.tables = first :: rest) {status : Int}
    (hStatus : 0 < status) :
    computeLastCompletedTuple q.cardinality order.tables status first
      ((q.episodeTrace join order.tables).foldl (Cursor.pass Sink.insert) cursor).idx =
        high (order.tables.map q.cardinality) [] := by
  have hRows := @levelRows_first n V _ q join.offset order first rest hOrder hBounds.offset_ge
  rw [scanRows_concat (hBounds.cardinality first)] at hRows
  have hLevels : q.episodeLevels join order.tables = q.level join.offset (q.episodeMarks join order.tables) first ::
      q.levels join.offset (q.episodeMarks join order.tables) rest := by
    rw [Query.episodeLevels, Query.levels, hOrder]
    rfl
  have hNames := episodeLevels_names q join order.tables
  have hIdx : ((q.episodeTrace join order.tables).foldl (Cursor.pass Sink.insert) cursor).idx first =
      q.cardinality first - 1 := by
    rw [Query.episodeTrace, hLevels]
    exact idx_of_whole Sink.insert (by rw [← hLevels, hNames]; exact order.nodup) hRows (start_le_last hBounds hOrder) cursor
  rw [computeLastCompletedTuple, if_pos (order.complete _), if_neg (by omega), hOrder]
  simp only [idxOf_cons_self, map_cons, take_succ_cons, take_zero, hOrder ▸ hIdx]
  rfl

/-- An episode from a cursor that stands at the first table of its order. -/
theorem exists_ends (hBounds : InBounds q join) {budget : Int} (hBudget : 1 ≤ budget)
    (hStopped : order.tables.head? = some cursor.stopped) :
    ∃ made, Ends q budget join order.tables made (computeLastCompletedTuple q.cardinality order.tables
        (consume Sink.insert budget (q.episodeTrace join order.tables) cursor).1
        (consume Sink.insert budget (q.episodeTrace join order.tables) cursor).2.stopped
        (consume Sink.insert budget (q.episodeTrace join order.tables) cursor).2.idx) ∧
      (consume Sink.insert budget (q.episodeTrace join order.tables) cursor).2.out =
        (handed made cursor.idx).foldl (fun out tuple => Sink.insert tuple out) cursor.out := by
  obtain ⟨rest, hOrder⟩ := head?_eq_some_iff.mp hStopped
  by_cases hLong : (q.episodeTrace join order.tables).length < budget
  · refine ⟨q.episodeTrace join order.tables, ?_, ?_⟩
    · rw [consume_of_length_lt hLong, foldl_pass_stopped, final_of_whole hBounds hOrder (by omega)]
      exact .whole hLong
    · rw [consume_of_length_lt hLong, foldl_pass_out]
  · obtain ⟨before, visit, after, hTrace, hCount⟩ := exists_stop hBudget (not_lt.mp hLong)
    refine ⟨before, ?_, ?_⟩
    · have hEnds := @Ends.stopped n V _ q budget join order.tables before after visit hTrace hCount
      rw [← @final_of_stop n V _ q join order cursor before after visit hTrace] at hEnds
      rw [hTrace, consume_of_stop hCount]
      exact hEnds
    · rw [hTrace, consume_of_stop hCount]
      exact foldl_pass_out before cursor

/-! ## Execute -/

theorem foldl_insert (tuples : List (Fin n → Int)) (sink : Sink n) :
    (tuples.foldl (fun out tuple => Sink.insert tuple out) sink).handed = sink.handed ++ tuples ∧
      (∀ x, x ∈ (tuples.foldl (fun out tuple => Sink.insert tuple out) sink).output ↔ x ∈ sink.output ∨ x ∈ tuples) ∧
      (sink.output.Nodup → (tuples.foldl (fun out tuple => Sink.insert tuple out) sink).output.Nodup) := by
  induction tuples generalizing sink with
  | nil => simp
  | cons tuple tuples ih =>
    obtain ⟨hHanded, hMem, hNodup⟩ := ih (sink.insert tuple)
    rw [foldl_cons]
    refine ⟨?_, fun x => ?_, fun h => hNodup ?_⟩
    · rw [hHanded]
      simp [Sink.insert]
    · rw [hMem]
      unfold Sink.insert
      split <;> simp <;> grind
    · unfold Sink.insert
      split
      · exact h
      · rename_i hFresh
        exact nodup_append.mpr ⟨h, by simp, by grind⟩

theorem Ends.handed_paths {made : List (Visit (Fin n))} {final : List Int}
    (h : Ends q budget join order.tables made final) (idx : Fin n → Int) :
    (handed made idx).map (fun x => order.tables.map x) = (made.filter Visit.hands).map Visit.path := by
  have hNames : ((q.episodeLevels join order.tables).map Level.name).Nodup := by
    rw [episodeLevels_names]
    exact order.nodup
  cases h with
  | whole hBudget =>
    have hPaths := Loops.handed_paths hNames (append_nil (q.episodeTrace join order.tables)).symm idx
    rwa [episodeLevels_names] at hPaths
  | stopped before after visit hTrace hBudget =>
    have hPaths := Loops.handed_paths hNames hTrace idx
    rwa [episodeLevels_names] at hPaths

/-- All an episode can come to: the flag lookup throws, or the join state is updated with the tuple
the episode ends at, and the tuples of its accepted innermost visits have been handed out. -/
theorem execute_spec {hash : HashOrder n} {state : PermutableState n V} (hBounds : InBounds q state.join)
    (hPrefix : q.prefixOrder <+: order.tables) (hTables : 0 < n) (hBudget : 1 ≤ budget) :
    (execute q hash budget order.tables state = .error .outOfRange ∧
      ∃ condition ∈ q.conditions, ∀ table ∈ condition.tables, q.prefixOrder.head? = some table) ∨
    ∃ made final, ∃ tuples : List (Fin n → Int), ∃ wiring globals,
      Ends q budget state.join order.tables made final ∧
      tuples.map (fun x => order.tables.map x) = (made.filter Visit.hands).map Visit.path ∧
      globals.sink = tuples.foldl (fun out tuple => Sink.insert tuple out)
        { state.globals.sink with numResultTuples := 0 } ∧
      execute q hash budget order.tables state =
        (state.join.update q.cardinality order.tables final).map fun join =>
          (reward q.cardinality join.offset order.tables
            ((state.join.getLastCompletedTupleIdx q.cardinality order.tables).getD (order.tables.map fun _ => -1)) final
            globals.sink.numResultTuples budget, ⟨join, wiring, globals⟩) := by
  obtain ⟨first, rest, hOrder⟩ := order.exists_cons hTables
  have hHead : order.tables.head? = some first := by rw [hOrder]; rfl
  cases hWired : wireOrder q hash order.tables state.wiring with
  | error error =>
    left
    have hSpec := @togglePredicateFlags_spec n V q hash order hPrefix state.wiring.flagArr
    unfold wireOrder at hWired
    split at hSpec
    · obtain ⟨flags, hFlags, _⟩ := hSpec
      simp [hFlags, Except.map] at hWired
    · rename_i hNot
      rw [hSpec (by simp [hOrder])] at hWired
      cases hWired
      refine ⟨?_, by simpa using hNot⟩
      rw [execute, wireOrder, hSpec (by simp [hOrder])]
      rfl
  | ok wiring =>
    right
    let initial := state.join.getLastCompletedTupleIdx q.cardinality order.tables
    let g := setResumeProgress order.tables first (initial.getD (order.tables.map fun _ => -1)) state.join.offset
      state.globals
    obtain ⟨globals, hCall, hCursor⟩ := permutableFunction_spec hPrefix hTables hWired hBudget initial.isSome g
    obtain ⟨made, hEnds, hOut⟩ := @exists_ends n V _ q state.join order g.cursor hBounds budget hBudget hHead
    generalize hFinal : computeLastCompletedTuple _ _ _ _ _ = final at hEnds
    refine ⟨made, final, handed made g.cursor.idx, wiring, globals, hEnds, hEnds.handed_paths _, ?_, ?_⟩
    · rw [show globals.sink = globals.cursor.out from rfl, hCursor]
      exact hOut
    · rw [execute, hWired, hHead]
      simp only [initial, g] at hCall
      simp only [hCall]
      rw [show globals.tableCtr = globals.cursor.stopped from rfl, show globals.idxArr = globals.cursor.idx from rfl,
        hCursor, ← hFinal]
      rfl

end

end KushDB.Skinner
