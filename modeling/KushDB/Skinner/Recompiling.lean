import KushDB.Skinner.Permutable

/-! # The recompiling engine

`CompileJoinOrder` specialises the loops to one join order: each table function knows which conditions become
available at it and which function it calls. It reads the columns of other tables from the predicate
struct where it first needs them, and does not check the equalities again that the index has answered.
-/

namespace KushDB.Skinner

open Loops List

section

variable {n : Nat} {V : Type} [DecidableEq V]

def Condition.shouldExecute (condition : Condition n V) (table : Fin n) (availableTables : List (Fin n)) : Bool :=
  condition.tables.contains table &&
    condition.tables.all fun other => other == table || availableTables.contains other

/-- The column of another table that an equality looks up. -/
def Condition.otherColumn (table : Fin n) : Condition n V → Option (ColRef n)
  | .equality left right _ => some (if left.childIdx = table then right else left)
  | .general .. => none

variable (q : Query n V)

/-- The function compiled for the tables of `order` after those in `availableTables`. -/
def compiledFunction : List (Fin n) → List (Fin n) → Int → Bool → Globals n V → Option (Int × Globals n V)
  | _, [], budget, _, g => some (validTupleHandler budget g)
  | availableTables, table :: order, initialBudget, resumeProgress, entry =>
    let conditions := q.conditions.filter fun condition => condition.shouldExecute table availableTables
    let executed := conditions.filter Condition.isEquality
    let loadedColumns := executed.filterMap (Condition.otherColumn table)
    let loaded := fun (g : Globals n V) column =>
      if column ∈ loadedColumns then entry.predicateStruct column else g.predicateStruct column
    let passes := fun (g : Globals n V) row =>
      conditions.all fun condition => condition.compute (q.withRow table row (loaded g)) = some true
    let indexPasses := fun (g : Globals n V) row =>
      (conditions.filter fun condition => !condition.isEquality).all fun condition =>
        condition.compute (q.withRow table row (loaded g)) = some true
    q.tableBody table passes (compiledFunction (availableTables ++ [table]) order) entry.predicateStruct conditions
      (fun _ => !executed.isEmpty) indexPasses initialBudget resumeProgress entry

end

section

variable {n : Nat} {V : Type} [DecidableEq V] {q : Query n V} {offset progress : Fin n → Int}
  {before after : List (Fin n)} {table : Fin n} {path : List Int}

omit [DecidableEq V] in
theorem shouldExecute_iff {condition : Condition n V} (hOrder : SplitOrder before table after) :
    condition.shouldExecute table before = true ↔
      table ∈ condition.tables ∧ ∀ other ∈ after, other ∉ condition.tables := by
  obtain ⟨_, hTail, hDisjoint⟩ := nodup_append.mp hOrder.nodup
  have hFresh := (nodup_cons.mp hTail).1
  simp only [Condition.shouldExecute, Bool.and_eq_true, contains_iff_mem, all_eq_true, Bool.or_eq_true,
    beq_iff_eq]
  refine and_congr_right fun _ => ⟨fun h other hAfter hOther => ?_, fun h other hOther => ?_⟩
  · rcases h other hOther with rfl | hBefore
    · exact hFresh hAfter
    · exact hDisjoint _ hBefore _ (mem_cons_of_mem _ hAfter) rfl
  · have hMem := hOrder.complete other
    rw [mem_append, mem_cons] at hMem
    rcases hMem with hBefore | hEq | hAfter
    · exact Or.inr hBefore
    · exact Or.inl hEq
    · exact absurd hOther (h other hAfter)

omit [DecidableEq V] in
/-- The conditions compiled into a table function are those due at its table. -/
theorem mem_filter_shouldExecute (hOrder : SplitOrder before table after) (condition : Condition n V) :
    condition ∈ q.conditions.filter (fun condition => condition.shouldExecute table before) ↔
      condition ∈ q.due (before ++ table :: after) table := by
  rw [mem_filter, shouldExecute_iff hOrder, mem_due hOrder.nodup]

variable {conditions : List (Condition n V)} {values : ColRef n → Option V}

theorem collectBuckets_isEmpty {buckets : List (List Int)} (h : q.collectBuckets table values conditions = some buckets) :
    (conditions.filter Condition.isEquality).isEmpty = buckets.isEmpty := by
  induction conditions generalizing buckets with
  | nil =>
    cases h
    rfl
  | cons condition conditions ih =>
    cases condition with
    | general columns holds reads => exact ih h
    | equality left right distinct =>
      rw [Query.collectBuckets] at h
      split at h
      · cases h
      · obtain ⟨_, _, rfl⟩ := Option.map_eq_some_iff.mp h
        rfl

section

variable (hOrder : SplitOrder before table after) (hLength : path.length = before.length)
include hOrder hLength

/-- On a row from the index the remaining conditions decide. -/
theorem indexPasses_eq_levelAccepts (hValues : ∀ column, column.childIdx ∈ before →
      values column = q.row (assign (before ++ table :: after) path) column) {found : List Int}
    (hFound : q.levelRows offset (before ++ table :: after) path = some found) {row : Int} (hRow : row ∈ found)
    (hConditions : ∀ condition, condition ∈ conditions ↔ condition ∈ q.due (before ++ table :: after) table) :
    ((conditions.filter fun condition => !condition.isEquality).all fun condition =>
      condition.compute (q.withRow table row values) = some true) =
        q.levelAccepts (before ++ table :: after) (path ++ [row]) := by
  have hSpec := @searchRows_spec n V _ q (firstRow offset table) table (q.row (assign (before ++ table :: after) path))
    (q.due (before ++ table :: after) table) (firstRow_nonpos offset table) (table_mem_of_due hOrder.nodup)
  rw [levelRows_eq offset hLength] at hFound
  rw [hFound] at hSpec
  have hHolds := ((hSpec.2.2 row).mp hRow).2
  rw [levelAccepts_eq hLength, Bool.eq_iff_iff]
  simp only [all_eq_true, mem_filter, decide_eq_true_eq, hConditions, Bool.not_eq_true', and_imp]
  constructor
  · intro h condition hDue
    cases hEquality : condition.isEquality with
    | true =>
      rw [← compute_withRow hOrder hLength hDue (fun _ _ => rfl)]
      exact (hHolds condition hDue hEquality).2
    | false =>
      rw [← compute_withRow hOrder hLength hDue hValues]
      exact h condition hDue hEquality
  · intro h condition hDue _
    rw [compute_withRow hOrder hLength hDue hValues]
    exact h condition hDue

theorem compiledFunction_step
    (hHandler : WalksBelow q offset progress before after table path (compiledFunction q (before ++ [table]) after))
    {budget : Int} (hBudget : 1 ≤ budget) (resume : Bool) {g : Globals n V}
    (hAligned : Aligned q offset progress (before ++ table :: after) before path g) :
    WalksFrom q offset progress before after table path budget resume g
      (compiledFunction q before (table :: after) budget resume g) := by
  have hConditions := mem_filter_shouldExecute (q := q) hOrder
  have hLoaded : ∀ {next : Globals n V} {columns : List (ColRef n)},
      Aligned q offset progress (before ++ table :: after) before path next →
      ∀ column, column.childIdx ∈ before →
        (if column ∈ columns then g.predicateStruct column else next.predicateStruct column) =
          q.row (assign (before ++ table :: after) path) column := by
    intro next columns hNext column hColumn
    split
    · exact hAligned.values column hColumn
    · exact hNext.values column hColumn
  rw [compiledFunction]
  exact tableBody_walks hOrder hLength hConditions hAligned
    (fun buckets hBuckets => by rw [collectBuckets_isEmpty hBuckets])
    (fun next hNext => passes_eq_levelAccepts hOrder hLength hConditions (hLoaded hNext))
    (fun next hNext found hFound row hRow =>
      indexPasses_eq_levelAccepts hOrder hLength (hLoaded hNext) hFound hRow hConditions)
    hHandler hBudget resume

end

/-- The compiled functions walk along the trace of their join order. -/
theorem compiledFunction_walks (hOrder : SplitOrder before table after) (hLength : path.length = before.length)
    {budget : Int} (hBudget : 1 ≤ budget) (resume : Bool) {g : Globals n V}
    (hAligned : Aligned q offset progress (before ++ table :: after) before path g) :
    WalksFrom q offset progress before after table path budget resume g
      (compiledFunction q before (table :: after) budget resume g) := by
  induction after generalizing before table path budget resume g with
  | nil =>
    exact compiledFunction_step hOrder hLength (fun row budget flag g _ hg => validTuple_walks flag budget hg)
      hBudget resume hAligned
  | cons next after ih =>
    refine compiledFunction_step hOrder hLength (fun row budget flag g hPos hg => ?_) hBudget resume hAligned
    have hSplit : before ++ table :: next :: after = (before ++ [table]) ++ next :: after := by simp
    have hNext := @ih (before ++ [table]) next (path ++ [row]) ⟨hSplit ▸ hOrder.nodup, hSplit ▸ hOrder.complete⟩
      (by simp [hLength]) budget hPos flag g (hSplit ▸ hg)
    rw [WalksFrom, ← hSplit] at hNext
    exact hNext

end

end KushDB.Skinner
