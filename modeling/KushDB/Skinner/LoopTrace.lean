import KushDB.Skinner.TableLoop

/-! # The loops of a table function walk along the trace

Whatever an engine puts into the loops, as long as it comes to the verdicts of the specification and its handler
does the same one table further in, the loops make the visits of the trace: they store, hand out and stop
as `consume` does. The predicate struct only matters for the tables joined so far.
-/

namespace KushDB.Skinner

open Loops List

section

variable {n : Nat} {V : Type}

def Globals.cursor (g : Globals n V) : Cursor (Fin n) (Sink n) := ⟨g.idxArr, g.tableCtr, g.sink⟩

/-- The cursor below a row that passes: at the last table the tuple has been handed out. -/
def Globals.entered (g : Globals n V) (leaf : Bool) : Cursor (Fin n) (Sink n) :=
  ⟨g.idxArr, g.tableCtr, if leaf then g.sink.insert g.idxArr else g.sink⟩

/-- The predicate struct holds the rows of a path, chosen for the tables joined so far. -/
structure Aligned (q : Query n V) (offset progress : Fin n → Int) (order before : List (Fin n)) (path : List Int)
    (g : Globals n V) : Prop where
  offsetArr : g.offsetArr = offset
  progressArr : g.progressArr = progress
  values : ∀ column, column.childIdx ∈ before → g.predicateStruct column = q.row (assign order path) column

variable {q : Query n V} {offset progress : Fin n → Int} {order before after : List (Fin n)} {table : Fin n}
  {path : List Int}

/-- A call that walks along some visits, and leaves the struct of the tables joined so far alone. -/
def Walks (q : Query n V) (offset progress : Fin n → Int) (order before : List (Fin n)) (path : List Int)
    (budget : Int) (visits : List (Visit (Fin n))) (cursor : Cursor (Fin n) (Sink n))
    (result : Option (Int × Globals n V)) : Prop :=
  ∃ g, result = some ((consume Sink.insert budget visits cursor).1, g) ∧
    g.cursor = (consume Sink.insert budget visits cursor).2 ∧ Aligned q offset progress order before path g

variable {g : Globals n V}

theorem Aligned.publish (h : Aligned q offset progress (before ++ table :: after) before path g)
    (hFresh : table ∉ before) (hLength : path.length = before.length) (row : Int) :
    Aligned q offset progress (before ++ table :: after) (before ++ [table]) (path ++ [row])
      (q.publish table row g) := by
  refine ⟨h.offsetArr, h.progressArr, fun column hColumn => ?_⟩
  change q.withRow table row g.predicateStruct column = _
  unfold Query.withRow
  by_cases hOwn : column.childIdx = table
  · rw [if_pos hOwn, Query.row, hOwn, assign_last hLength hFresh]
  · have hBefore : column.childIdx ∈ before := by simpa [hOwn] using hColumn
    rw [if_neg hOwn, h.values column hBefore, Query.row, Query.row, assign_append hLength hBefore]

theorem Aligned.init {row : Int} (hLength : path.length = before.length)
    (h : Aligned q offset progress (before ++ table :: after) (before ++ [table]) (path ++ [row]) g) :
    Aligned q offset progress (before ++ table :: after) before path g := by
  refine ⟨h.offsetArr, h.progressArr, fun column hColumn => ?_⟩
  rw [h.values column (by simp [hColumn]), Query.row, Query.row, assign_append hLength hColumn]

def Exit.leave {S : Type} (status : Int) (state : S) : Exit S :=
  if status < 0 then .returned status state else .finished status state

theorem Exit.leave_result {S : Type} (status : Int) (state : S) : (Exit.leave status state).result = (status, state) := by
  unfold leave
  split <;> rfl

/-- The same for a loop, which is left early exactly when the budget has run out. -/
def LoopWalks (q : Query n V) (offset progress : Fin n → Int) (order before : List (Fin n)) (path : List Int)
    (budget : Int) (visits : List (Visit (Fin n))) (cursor : Cursor (Fin n) (Sink n))
    (exit : Option (Exit (Globals n V))) : Prop :=
  ∃ g, exit = some (Exit.leave (consume Sink.insert budget visits cursor).1 g) ∧
    g.cursor = (consume Sink.insert budget visits cursor).2 ∧ Aligned q offset progress order before path g

theorem LoopWalks.walks {budget : Int} {visits : List (Visit (Fin n))} {cursor : Cursor (Fin n) (Sink n)}
    {exit : Option (Exit (Globals n V))} (h : LoopWalks q offset progress order before path budget visits cursor exit) :
    Walks q offset progress order before path budget visits cursor (exit.map Exit.result) := by
  obtain ⟨g, rfl, hCursor, hAligned⟩ := h
  exact ⟨g, by rw [Option.map_some, Exit.leave_result], hCursor, hAligned⟩

end

section

variable {n : Nat} {V : Type} {q : Query n V} {offset progress : Fin n → Int} {before after : List (Fin n)}
  {table : Fin n} {path : List Int} {passes : Globals n V → Int → Bool}
  {handler : Int → Bool → Globals n V → Option (Int × Globals n V)}
  {accepts : Int → Bool} {inner : Int → Bool → List (Visit (Fin n))} {leaf resume : Bool}

/-- What a table function is left to do below a row: the handler walks along the inner visits,
after it has handed the tuple out if there are no inner tables. -/
def HandlerWalks (q : Query n V) (offset progress : Fin n → Int) (before after : List (Fin n)) (table : Fin n)
    (path : List Int) (handler : Int → Bool → Globals n V → Option (Int × Globals n V))
    (inner : Int → Bool → List (Visit (Fin n))) (leaf : Bool) (row : Int) : Prop :=
  ∀ budget flag g, 1 ≤ budget →
    Aligned q offset progress (before ++ table :: after) (before ++ [table]) (path ++ [row]) g →
    Walks q offset progress (before ++ table :: after) (before ++ [table]) (path ++ [row]) budget (inner row flag)
      (g.entered leaf) (handler budget flag g)

/-- The rows of a loop, with the verdicts the loop comes to and what it does below them. -/
structure LoopRows (q : Query n V) (offset progress : Fin n → Int) (before after : List (Fin n)) (table : Fin n)
    (path : List Int) (passes : Globals n V → Int → Bool)
    (handler : Int → Bool → Globals n V → Option (Int × Globals n V)) (accepts : Int → Bool)
    (inner : Int → Bool → List (Visit (Fin n))) (leaf resume : Bool) (rows : List Int) : Prop where
  passes : ∀ g, Aligned q offset progress (before ++ table :: after) before path g →
    ∀ row ∈ rows, passes g row = accepts row
  handler : ∀ row ∈ rows, accepts row = true →
    HandlerWalks q offset progress before after table path handler inner leaf row
  ascending : rows.Pairwise (· < ·)
  mark : resume = true → ∀ row ∈ rows, progress table ≤ row

variable {rows : List Int}

theorem LoopRows.sublist {fewer : List Int}
    (h : LoopRows q offset progress before after table path passes handler accepts inner leaf resume rows)
    (hFewer : fewer.Sublist rows) :
    LoopRows q offset progress before after table path passes handler accepts inner leaf resume fewer :=
  ⟨fun g hg row hRow => h.passes g hg row (hFewer.subset hRow), fun row hRow => h.handler row (hFewer.subset hRow),
    h.ascending.sublist hFewer, fun hResume row hRow => h.mark hResume row (hFewer.subset hRow)⟩

variable {budget : Int} {g : Globals n V}

section

variable (hFresh : table ∉ before) (hLength : path.length = before.length)
  (hRows : LoopRows q offset progress before after table path passes handler accepts inner leaf resume rows)
include hFresh hLength hRows

theorem rowLoop_walks (hBudget : 1 ≤ budget) {flag : Bool}
    (hFlag : ∀ first, rows.head? = some first → flag = (resume && first == progress table))
    (hAligned : Aligned q offset progress (before ++ table :: after) before path g) :
    LoopWalks q offset progress (before ++ table :: after) before path budget
      (rows.flatMap fun row => rowVisits table leaf (accepts row) row (inner row (resume && row == progress table)))
      g.cursor (rowLoop q table passes handler rows budget flag g) := by
  induction rows generalizing budget flag g with
  | nil => exact ⟨g, by simp [rowLoop, consume, Exit.leave, show ¬ budget < 0 by omega], rfl, hAligned⟩
  | cons row rows ih =>
    obtain ⟨hFirst, _⟩ := pairwise_cons.mp hRows.ascending
    -- Only the first row can be the one that was resumed at.
    have hLater : ∀ first, rows.head? = some first → false = (resume && first == progress table) := by
      intro first hHead
      have hLt := hFirst first (mem_of_mem_head? hHead)
      cases resume with
      | false => rfl
      | true =>
        have hLe := hRows.mark rfl row mem_cons_self
        simp only [Bool.true_and, Bool.false_eq, beq_eq_false_iff_ne, ne_eq]
        omega
    have hNext : ∀ {nextBudget : Int} {next : Globals n V}, 1 ≤ nextBudget →
        Aligned q offset progress (before ++ table :: after) before path next → _ :=
      fun hPos hNextAligned => ih (hRows.sublist (sublist_cons_self row rows)) hPos hLater hNextAligned
    have hStored : Aligned q offset progress (before ++ table :: after) before path (g.storeIdx table row) :=
      ⟨hAligned.offsetArr, hAligned.progressArr, hAligned.values⟩
    have hStopped : Aligned q offset progress (before ++ table :: after) before path
        ((g.storeIdx table row).stopAt table) := ⟨hAligned.offsetArr, hAligned.progressArr, hAligned.values⟩
    rw [hFlag row rfl, flatMap_cons, LoopWalks, consume_append hBudget, rowLoop]
    simp only [hRows.passes _ hStored row mem_cons_self]
    cases hAccepts : accepts row with
    | false =>
      rw [consume_rowVisits_false]
      by_cases hZero : budget - 1 = 0
      · simp only [hZero, if_true, Bool.false_eq_true, if_false]
        exact ⟨_, rfl, rfl, hStopped⟩
      · simp only [hZero, if_false, Bool.false_eq_true, show ¬ budget - 1 < 0 by omega]
        exact hNext (by omega) hStored
    | true =>
      rw [consume_rowVisits_true]
      by_cases hZero : budget - 1 = 0
      · simp only [hZero, if_true]
        exact ⟨_, rfl, rfl, hStopped⟩
      · obtain ⟨next, hCall, hCursor, hInner⟩ := hRows.handler row mem_cons_self hAccepts (budget - 1)
          (resume && row == progress table) (q.publish table row (g.storeIdx table row)) (by omega)
          (hStored.publish hFresh hLength row)
        have hPass : Cursor.pass Sink.insert g.cursor ⟨table, row, [row], .accepted, leaf⟩ =
            (q.publish table row (g.storeIdx table row)).entered leaf := by
          cases leaf <;> rfl
        have hResult := @consume_result _ _ _ Sink.insert _ (show 1 ≤ budget - 1 by omega)
          (inner row (resume && row == progress table)) ((q.publish table row (g.storeIdx table row)).entered leaf)
        rw [hPass, hCall]
        simp only [hZero, if_false, if_true]
        generalize consume Sink.insert (budget - 1) (inner row (resume && row == progress table))
          ((q.publish table row (g.storeIdx table row)).entered leaf) = run at hCursor hResult ⊢
        by_cases hNegative : run.1 < 0
        · simp only [hNegative, if_true]
          exact ⟨next, by rw [Exit.leave, if_pos hNegative], hCursor, hInner.init hLength⟩
        · simp only [hNegative, if_false, ← hCursor]
          exact hNext (hResult.resolve_left hNegative) (hInner.init hLength)

theorem batchLoop_walks {batches : Nat} (hBatches : rows.length ≤ batches) (hBudget : 1 ≤ budget)
    (hAligned : Aligned q offset progress (before ++ table :: after) before path g) :
    LoopWalks q offset progress (before ++ table :: after) before path budget
      (rows.flatMap fun row => rowVisits table leaf (accepts row) row (inner row (resume && row == progress table)))
      g.cursor (batchLoop q table passes handler resume (if resume then progress table else 0) batches rows budget g) := by
  induction batches generalizing rows budget g with
  | zero =>
    rw [length_eq_zero_iff.mp (Nat.le_zero.mp hBatches)]
    exact ⟨g, by simp [batchLoop, consume, Exit.leave, show ¬ budget < 0 by omega], rfl, hAligned⟩
  | succ batches ih =>
    rw [batchLoop]
    cases hTake : rows.take 64 with
    | nil =>
      have hNil : rows = [] := by simpa using hTake
      subst hNil
      exact ⟨g, by simp [consume, Exit.leave, show ¬ budget < 0 by omega], rfl, hAligned⟩
    | cons first batch =>
      have hSplit : (first :: batch) ++ rows.drop 64 = rows := by rw [← hTake, take_append_drop]
      have hFlag : ∀ head, (first :: batch).head? = some head →
          (resume && first == if resume then progress table else 0) = (resume && head == progress table) := by
        intro head hHead
        cases hHead
        cases resume <;> rfl
      obtain ⟨next, hLoop, hCursor, hNext⟩ := rowLoop_walks hFresh hLength
        (hRows.sublist (hTake ▸ take_sublist 64 rows)) hBudget hFlag hAligned
      nth_rewrite 1 [← hSplit]
      rw [flatMap_append, LoopWalks, consume_append hBudget]
      simp only [hLoop]
      have hResult := @consume_result _ _ _ Sink.insert _ hBudget ((first :: batch).flatMap fun row =>
        rowVisits table leaf (accepts row) row (inner row (resume && row == progress table))) g.cursor
      generalize consume Sink.insert budget ((first :: batch).flatMap fun row =>
        rowVisits table leaf (accepts row) row (inner row (resume && row == progress table))) g.cursor = run
        at hCursor hResult ⊢
      by_cases hNegative : run.1 < 0
      · simp only [Exit.leave, hNegative, if_true]
        exact ⟨next, rfl, hCursor, hNext⟩
      · simp only [Exit.leave, hNegative, if_false, ← hCursor]
        refine ih (hRows.sublist (drop_sublist 64 rows)) ?_ (hResult.resolve_left hNegative) hNext
        rw [length_drop]
        omega

end

end

section

variable {n : Nat} {V : Type} [DecidableEq V] {q : Query n V} {offset progress : Fin n → Int}
  {before after : List (Fin n)} {table : Fin n} {path : List Int}

/-- The visits of the tables in `suffix`, below a path through the tables before them. -/
def Query.traceBelow (q : Query n V) (offset progress : Fin n → Int) (order suffix : List (Fin n)) (path : List Int)
    (resume : Bool) : List (Visit (Fin n)) :=
  trace (q.levels offset progress suffix) (fun rest => q.levelRows offset order (path ++ rest))
    (fun rest => q.levelAccepts order (path ++ rest)) resume

theorem traceBelow_cons (order : List (Fin n)) (resume : Bool) :
    q.traceBelow offset progress order (table :: after) path resume =
      match q.levelRows offset order path with
      | none => [⟨table, q.cardinality table - 1, [q.cardinality table - 1], .skipped, after.isEmpty⟩]
      | some found => (found.filter fun row =>
          max (offset table + 1) (if resume then progress table else 0) ≤ row).flatMap fun row =>
        rowVisits table after.isEmpty (q.levelAccepts order (path ++ [row])) row
          (q.traceBelow offset progress order after (path ++ [row]) (resume && row == progress table)) := by
  simp only [Query.traceBelow, Query.levels, map_cons, trace, append_nil, isEmpty_map,
    append_assoc, singleton_append]
  rfl

/-- A call for a table walks along the visits of the table and of those behind it. -/
abbrev WalksFrom (q : Query n V) (offset progress : Fin n → Int) (before after : List (Fin n)) (table : Fin n)
    (path : List Int) (budget : Int) (resume : Bool) (g : Globals n V) (result : Option (Int × Globals n V)) : Prop :=
  Walks q offset progress (before ++ table :: after) before path budget
    (q.traceBelow offset progress (before ++ table :: after) (table :: after) path resume) g.cursor result

/-- The handler of a table does so below every row. -/
abbrev WalksBelow (q : Query n V) (offset progress : Fin n → Int) (before after : List (Fin n)) (table : Fin n)
    (path : List Int) (handler : Int → Bool → Globals n V → Option (Int × Globals n V)) : Prop :=
  ∀ row, HandlerWalks q offset progress before after table path handler
    (fun row => q.traceBelow offset progress (before ++ table :: after) after (path ++ [row])) after.isEmpty row

variable {budget : Int} {g : Globals n V} {resume : Bool} {conditions : List (Condition n V)}

theorem leaveTable_walks {order : List (Fin n)} (hRows : q.levelRows offset order path = none)
    (hAligned : Aligned q offset progress order before path g) :
    Walks q offset progress order before path budget
      (q.traceBelow offset progress order (table :: after) path resume) g.cursor
      (some (q.leaveTable table budget g)) := by
  rw [traceBelow_cons, hRows]
  simp only [Walks, consume, Query.leaveTable]
  by_cases hZero : budget - 1 = 0
  · simp only [hZero, if_true]
    exact ⟨_, rfl, rfl, ⟨hAligned.offsetArr, hAligned.progressArr, hAligned.values⟩⟩
  · simp only [hZero, if_false]
    exact ⟨_, rfl, rfl, hAligned⟩

variable {passes : Globals n V → Int → Bool} {handler : Int → Bool → Globals n V → Option (Int × Globals n V)}

theorem loopRows_of_found {found : List Int} (resume : Bool) (hAscending : found.Pairwise (· < ·))
    (hPasses : ∀ g, Aligned q offset progress (before ++ table :: after) before path g →
      ∀ row ∈ found, passes g row = q.levelAccepts (before ++ table :: after) (path ++ [row]))
    (hHandler : WalksBelow q offset progress before after table path handler) :
    LoopRows q offset progress before after table path passes handler
      (fun row => q.levelAccepts (before ++ table :: after) (path ++ [row]))
      (fun row => q.traceBelow offset progress (before ++ table :: after) after (path ++ [row])) after.isEmpty resume
      (found.filter fun row => max (offset table + 1) (if resume then progress table else 0) ≤ row) where
  passes g hg row hRow := hPasses g hg row (mem_filter.mp hRow).1
  handler row _ _ := hHandler row
  ascending := hAscending.filter _
  mark hResume row hRow := by
    have hStart := of_decide_eq_true (mem_filter.mp hRow).2
    rw [if_pos hResume] at hStart
    omega

section

variable (hFresh : table ∉ before) (hLength : path.length = before.length)
  (hHandler : WalksBelow q offset progress before after table path handler) (hBudget : 1 ≤ budget)
  (hAligned : Aligned q offset progress (before ++ table :: after) before path g)
include hFresh hLength hHandler hBudget hAligned

theorem scanLoop_walks (hFound : q.levelRows offset (before ++ table :: after) path =
      some (scanRows (firstRow offset table) (q.cardinality table)))
    (hPasses : ∀ g, Aligned q offset progress (before ++ table :: after) before path g →
      ∀ row ∈ scanRows (firstRow offset table) (q.cardinality table),
        passes g row = q.levelAccepts (before ++ table :: after) (path ++ [row])) :
    WalksFrom q offset progress before after table path budget resume g
      ((scanLoop q table passes handler budget resume g).map Exit.result) := by
  refine LoopWalks.walks ?_
  have hRows := loopRows_of_found resume (scanRows_ascending _ _) hPasses hHandler
  have hFirst : firstRow offset table ≤ max (offset table + 1) (if resume then progress table else 0) := by
    unfold firstRow
    omega
  rw [filter_scanRows hFirst] at hRows
  rw [traceBelow_cons, hFound]
  simp only [filter_scanRows hFirst, scanLoop, initialNextTuple, hAligned.offsetArr, hAligned.progressArr]
  refine rowLoop_walks hFresh hLength hRows hBudget (fun first hHead => ?_) hAligned
  have hStart : max (offset table + 1) (if resume then progress table else 0) = first := by
    unfold scanRows at hHead
    cases hCount : (q.cardinality table - max (offset table + 1) (if resume then progress table else 0)).toNat with
    | zero => simp [hCount] at hHead
    | succ count => simpa [hCount, range_succ_eq_map] using hHead
  rw [hStart]

theorem indexLoop_walks {buckets : List (List Int)}
    (hFound : q.levelRows offset (before ++ table :: after) path = some (commonRows buckets))
    (hAscending : (commonRows buckets).Pairwise (· < ·))
    (hPasses : ∀ g, Aligned q offset progress (before ++ table :: after) before path g →
      ∀ row ∈ commonRows buckets, passes g row = q.levelAccepts (before ++ table :: after) (path ++ [row])) :
    WalksFrom q offset progress before after table path budget resume g
      ((indexLoop q table passes handler buckets budget resume g).map Exit.result) := by
  refine LoopWalks.walks ?_
  have hRows := loopRows_of_found resume hAscending hPasses hHandler
  rw [traceBelow_cons, hFound]
  simp only [indexLoop, sortedIntersection, initialNextTuple, hAligned.offsetArr, hAligned.progressArr]
  exact batchLoop_walks hFresh hLength hRows le_rfl hBudget hAligned

end

section

variable (hOrder : SplitOrder before table after) (hLength : path.length = before.length)
  (hConditions : ∀ condition, condition ∈ conditions ↔ condition ∈ q.due (before ++ table :: after) table)
include hOrder hLength hConditions

/-- The rows an engine looks up in the struct are those of the specification, in whatever order
it goes through the conditions. -/
theorem levelRows_of_aligned (hAligned : Aligned q offset progress (before ++ table :: after) before path g) :
    q.levelRows offset (before ++ table :: after) path =
      q.searchRows (firstRow offset table) table g.predicateStruct conditions := by
  rw [levelRows_eq offset hLength]
  refine searchRows_congr (firstRow_nonpos offset table) (fun condition => (hConditions condition).symm)
    (table_mem_of_due hOrder.nodup) fun condition hDue row => ?_
  rw [compute_withRow hOrder hLength hDue (fun _ _ => rfl),
    compute_withRow hOrder hLength hDue hAligned.values]

/-- Checking all due conditions against known values and the row at hand is the verdict of the specification. -/
theorem passes_eq_levelAccepts {values : ColRef n → Option V} (hValues : ∀ column, column.childIdx ∈ before →
      values column = q.row (assign (before ++ table :: after) path) column) (row : Int) :
    (conditions.all fun condition => condition.compute (q.withRow table row values) = some true) =
      q.levelAccepts (before ++ table :: after) (path ++ [row]) := by
  rw [levelAccepts_eq hLength, Bool.eq_iff_iff]
  simp only [all_eq_true, decide_eq_true_eq, hConditions]
  exact forall₂_congr fun condition hDue => by rw [compute_withRow hOrder hLength hDue hValues]

theorem tableBody_walks {useIndex : List (List Int) → Bool} {indexPasses : Globals n V → Int → Bool}
    (hAligned : Aligned q offset progress (before ++ table :: after) before path g)
    (hIndex : ∀ buckets, q.collectBuckets table g.predicateStruct conditions = some buckets →
      useIndex buckets = !buckets.isEmpty)
    (hPasses : ∀ g, Aligned q offset progress (before ++ table :: after) before path g →
      ∀ row, passes g row = q.levelAccepts (before ++ table :: after) (path ++ [row]))
    (hIndexPasses : ∀ g, Aligned q offset progress (before ++ table :: after) before path g →
      ∀ found, q.levelRows offset (before ++ table :: after) path = some found →
        ∀ row ∈ found, indexPasses g row = q.levelAccepts (before ++ table :: after) (path ++ [row]))
    (hHandler : WalksBelow q offset progress before after table path handler)
    (hBudget : 1 ≤ budget) (resume : Bool) :
    WalksFrom q offset progress before after table path budget resume g
      (q.tableBody table passes handler g.predicateStruct conditions useIndex indexPasses budget resume g) := by
  have hRows := levelRows_of_aligned hOrder hLength hConditions hAligned
  have hTables : ∀ condition ∈ conditions, table ∈ condition.tables :=
    fun condition h => table_mem_of_due hOrder.nodup condition ((hConditions condition).mp h)
  have hSpec := @searchRows_spec n V _ q _ table g.predicateStruct conditions (firstRow_nonpos offset table) hTables
  unfold Query.tableBody
  unfold Query.searchRows at hRows hSpec
  cases hCollect : q.collectBuckets table g.predicateStruct conditions with
  | none =>
    rw [hCollect] at hRows
    exact leaveTable_walks hRows hAligned
  | some buckets =>
    rw [hCollect] at hRows hSpec
    simp only [hIndex buckets hCollect]
    cases hEmpty : buckets.isEmpty with
    | true =>
      rw [Option.map_some, hEmpty, if_pos rfl] at hRows
      exact scanLoop_walks hOrder.fresh hLength hHandler hBudget hAligned hRows fun g hg row _ => hPasses g hg row
    | false =>
      rw [Option.map_some, hEmpty] at hRows hSpec
      exact indexLoop_walks hOrder.fresh hLength hHandler hBudget hAligned hRows hSpec.2.1
        fun g hg => hIndexPasses g hg _ hRows

end

end

end KushDB.Skinner
