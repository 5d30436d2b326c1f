import KushDB.Library.Fallible
import KushDB.Planner.ProjectedJoin

/-! # Early projection

Where every scan is left with a column, a projected tree hands out the rows of the original one, each with the kept
columns only.
-/

namespace KushDB.Planner

open Fallible Plan Selection Choices List

variable {F : Type}

theorem value_rewriteColumnReferences {refs : List (Nat × Nat)} {widths : List Nat} {choice : List (Row F)}
    (hWidths : HasWidths choice widths) {column : SchemaColumn} (hColumn : column.reference ∈ refs) :
    (column.rewriteColumnReferences (columnRewrites refs widths)).value (projectedChoice refs choice) =
      column.value choice := by
  have hValue := valueIn_projectedChoice hWidths hColumn
  rw [moved] at hValue
  rw [SchemaColumn.rewriteColumnReferences]
  cases hRewrite : columnRewrites refs widths column.reference with
  | none =>
    rw [hRewrite] at hValue
    exact hValue
  | some found =>
    rw [hRewrite] at hValue
    exact hValue

theorem name_rewriteColumnReferences (rewrites : Nat × Nat → Option (Nat × Nat)) (column : SchemaColumn) :
    (column.rewriteColumnReferences rewrites).name = column.name := by
  rw [SchemaColumn.rewriteColumnReferences]
  split
  · rfl
  · rfl

section

variable {session : Session F} {aggregator : AggregateType → List (Option (Value F)) → Option (Value F)}

/-! ## Rows of one child -/

theorem hasWidths_single {op : Operator F} {rows : List (Row F)} (h : op.rows session aggregator = some rows)
    {row : Row F} (hRow : row ∈ rows) : HasWidths [row] [op.numColumns] := by
  intro childIdx
  cases childIdx with
  | zero => exact length_of_mem_rows h hRow
  | succ childIdx => rfl

/-! ## Joins -/

variable {children : List (Operator F)} {projected : Operator F} {refs : List (Nat × Nat)} {schema : List SchemaColumn}

theorem hasWidths_of_mem_sections {inputs : List (List (Row F))}
    (h : inputRows session aggregator children = some inputs) {choice : List (Row F)}
    (hChoice : choice ∈ inputs.sections) : HasWidths choice (children.map Operator.numColumns) := by
  induction children generalizing inputs choice with
  | nil =>
    cases h
    rw [mem_singleton.mp hChoice]
    exact fun _ => rfl
  | cons child children ih =>
    rw [inputRows] at h
    obtain ⟨rows, hRows, hRest⟩ := Option.bind_eq_some_iff.mp h
    obtain ⟨others, hOthers, rfl⟩ := Option.map_eq_some_iff.mp hRest
    rw [List.sections, mem_flatMap] at hChoice
    obtain ⟨rest, hMem, hChoice⟩ := hChoice
    obtain ⟨row, hRow, rfl⟩ := mem_map.mp hChoice
    intro childIdx
    cases childIdx with
    | zero => exact length_of_mem_rows hRows hRow
    | succ childIdx => exact ih hOthers hMem childIdx

/-- The rows of the inputs have the columns of their children. -/
theorem length_of_mem_inputRows {inputs : List (List (Row F))} (h : inputRows session aggregator children = some inputs) :
    ∀ childIdx, ∀ row ∈ inputs.getD childIdx [], row.length = (children.map Operator.numColumns).getD childIdx 0 := by
  induction children generalizing inputs with
  | nil =>
    cases h
    exact fun childIdx row hRow => absurd hRow not_mem_nil
  | cons child children ih =>
    rw [inputRows] at h
    obtain ⟨rows, hRows, hRest⟩ := Option.bind_eq_some_iff.mp h
    obtain ⟨others, hOthers, rfl⟩ := Option.map_eq_some_iff.mp hRest
    intro childIdx row hRow
    cases childIdx with
    | zero => exact length_of_mem_rows hRows hRow
    | succ childIdx => exact ih hOthers childIdx row hRow

/-! ## Indexes -/

theorem length_columnNames (op : Operator F) : op.columnNames.length = op.numColumns := by
  cases op <;> exact length_map _

theorem index_earlyProjection {op : Operator F} {kept : Nat → Bool} (h : earlyProjection kept op = .ok projected)
    (childIdx : Nat) {columnIdx newIdx : Nat} (hName : (keep kept op.columnNames)[newIdx]? = op.columnNames[columnIdx]?) :
    projected.index session childIdx newIdx = op.index session childIdx columnIdx := by
  have hNames : ∀ (rewrites : Nat × Nat → Option (Nat × Nat)) (schema : List SchemaColumn),
      ((keep kept schema).map (SchemaColumn.rewriteColumnReferences rewrites)).map SchemaColumn.name =
        keep kept (schema.map SchemaColumn.name) := by
    intro rewrites schema
    rw [map_map, keep_map]
    exact map_congr_left fun column _ => name_rewriteColumnReferences rewrites column
  cases op with
  | scan schema relation =>
    cases h
    rw [Operator.columnNames, keep_map] at hName
    rw [Operator.index, Operator.index, Operator.columnNames, hName]
    rfl
  | select schema child expr | skinnerJoin schema children conditions =>
    obtain ⟨found, -, ⟨⟩⟩ := bind_eq_ok.mp h
    rw [Operator.columnNames] at hName
    rw [Operator.index, Operator.index, Operator.columnNames, hNames, hName]
    rfl
  | scanSelect selectSchema scanSchema relation filters => cases h
  | aggregate schema child aggExprs =>
    obtain ⟨found, -, ⟨⟩⟩ := bind_eq_ok.mp h
    rw [Operator.columnNames, keep_map] at hName
    rw [Operator.index, Operator.index, Operator.columnNames, hName]
    rfl

theorem getElem?_earlyProjections {projected : List (Operator F)} {first : Nat}
    (h : earlyProjections refs first children = .ok projected) (childIdx : Nat) :
    (children[childIdx]? = none ∧ projected[childIdx]? = none) ∨ ∃ child found, children[childIdx]? = some child ∧
      projected[childIdx]? = some found ∧ earlyProjection (fun i => refs.contains (first + childIdx, i)) child = .ok found := by
  induction children generalizing first projected childIdx with
  | nil =>
    cases h
    exact .inl ⟨rfl, rfl⟩
  | cons child children ih =>
    obtain ⟨found, hFound, hBind⟩ := bind_eq_ok.mp h
    obtain ⟨others, hOthers, ⟨⟩⟩ := bind_eq_ok.mp hBind
    cases childIdx with
    | zero => exact .inr ⟨child, found, rfl, rfl, hFound⟩
    | succ childIdx =>
      have hAt := ih hOthers childIdx
      rwa [Nat.add_assoc, Nat.add_comm 1] at hAt

theorem projectsIndexes {projected : List (Operator F)} (h : earlyProjections refs 0 children = .ok projected) :
    ProjectsIndexes refs (children.map Operator.numColumns) (indexOf session children) (indexOf session projected) where
  same reference hReference := by
    rw [indexOf, indexOf, moved_child]
    rcases getElem?_earlyProjections h reference.1 with ⟨hChild, hFound⟩ | ⟨child, found, hChild, hFound, hProjection⟩
    · rw [hChild, hFound]
      rfl
    · rw [hChild, hFound, Option.bind_some, Option.bind_some]
      refine index_earlyProjection hProjection _ ?_
      rw [Nat.zero_add]
      refine getElem?_keep_moved hReference ?_
      rw [length_columnNames, getD_eq_getElem?_getD, getElem?_map, hChild]
      rfl
  inside reference hSome := by
    rw [indexOf] at hSome
    obtain ⟨index, hIndex⟩ := Option.isSome_iff_exists.mp hSome
    obtain ⟨child, hChild, hAt⟩ := Option.bind_eq_some_iff.mp hIndex
    obtain ⟨name, hName, -⟩ := Option.bind_eq_some_iff.mp hAt
    obtain ⟨hLt, -⟩ := List.getElem?_eq_some_iff.mp hName
    rw [length_columnNames] at hLt
    rwa [getD_eq_getElem?_getD, getElem?_map, hChild]

/-! ## Trees -/

section

variable (hSchema : schema.map SchemaColumn.reference ⊆ refs)
include hSchema

theorem map_value_projected {widths : List Nat} {choice : List (Row F)} (hWidths : HasWidths choice widths) :
    (schema.map (SchemaColumn.rewriteColumnReferences (columnRewrites refs widths))).map
        (SchemaColumn.value (projectedChoice refs choice)) =
      schema.map (SchemaColumn.value choice) := by
  rw [map_map]
  refine map_congr_left fun column hColumn => ?_
  exact value_rewriteColumnReferences hWidths (hSchema (mem_map_of_mem hColumn))

theorem rows_select_projected {child : Operator F} {expr : Expression F} (hExpr : expr.references ⊆ refs)
    (hRows : projected.rows session aggregator =
      (child.rows session aggregator).map fun rows => rows.map (keep fun i => refs.contains (0, i))) :
    (Operator.select (schema.map (SchemaColumn.rewriteColumnReferences (columnRewrites refs [child.numColumns])))
        projected (expr.rewriteColumnReferences (columnRewrites refs [child.numColumns]))).rows session aggregator =
      (Operator.select schema child expr).rows session aggregator := by
  rw [Operator.rows, Operator.rows, Expression.isPredicate_rewrite, hRows, Option.map_map]
  split
  · cases hChild : child.rows session aggregator with
    | none => rfl
    | some rows =>
      rw [Option.map_some, Option.map_some, Function.comp_apply, filter_map, map_map]
      have hFilter : rows.filter ((fun row =>
            session.holds [row] (expr.rewriteColumnReferences (columnRewrites refs [child.numColumns]))) ∘
              keep fun i => refs.contains (0, i)) =
          rows.filter fun row => session.holds [row] expr := by
        refine filter_congr fun row hRow => ?_
        exact holds_projectedChoice (hasWidths_single hChild hRow) hExpr
      rw [hFilter]
      congr 1
      refine map_congr_left fun row hRow => ?_
      exact map_value_projected hSchema (hasWidths_single hChild (mem_filter.mp hRow).1)
  · rfl

theorem rows_skinnerJoin_projected {projected : List (Operator F)} {conditions : List (Expression F)}
    (hConditions : ∀ condition ∈ conditions, condition.references ⊆ refs)
    (hProjected : earlyProjections refs 0 children = .ok projected)
    (hRows : inputRows session aggregator projected = (inputRows session aggregator children).map (projectedInputs refs)) :
    (Operator.skinnerJoin (schema.map (SchemaColumn.rewriteColumnReferences
        (columnRewrites refs (children.map Operator.numColumns)))) projected (conditions.map
          (Expression.rewriteColumnReferences (columnRewrites refs (children.map Operator.numColumns))))).rows session
            aggregator =
      (Operator.skinnerJoin schema children conditions).rows session aggregator := by
  rw [Operator.rows, Operator.rows, hRows]
  cases hChildren : inputRows session aggregator children with
  | none => rfl
  | some inputs =>
    have hWidths : ∀ choice ∈ inputs.sections, HasWidths choice (children.map Operator.numColumns) :=
      fun choice hChoice => hasWidths_of_mem_sections hChildren hChoice
    rw [Option.map_some, Option.bind_some, Option.bind_some, skinnerJoinChoices_projectedInputs
      (projectsIndexes hProjected) hConditions (length_of_mem_inputRows hChildren) hWidths, Option.map_map]
    cases hJoin : skinnerJoinChoices session (indexOf session children) inputs conditions with
    | none => rfl
    | some choices =>
      obtain ⟨-, -, rfl⟩ := skinnerJoinChoices_eq_some.mp hJoin
      rw [Option.map_some, Option.map_some, Function.comp_apply, map_map]
      congr 1
      refine map_congr_left fun choice hChoice => ?_
      exact map_value_projected hSchema (hWidths choice (mem_filter.mp hChoice).1)

end

theorem rows_aggregate_projected {schema : List VirtualColumn} {child : Operator F} {aggExprs : List (Aggregate F)}
    (hAggs : ∀ agg ∈ aggExprs, agg.child.references ⊆ refs) (hRows : projected.rows session aggregator =
      (child.rows session aggregator).map fun rows => rows.map (keep fun i => refs.contains (0, i))) :
    (Operator.aggregate schema projected (aggExprs.map fun agg => { agg with
        child := agg.child.rewriteColumnReferences (columnRewrites refs [child.numColumns]) })).rows session aggregator =
      (Operator.aggregate schema child aggExprs).rows session aggregator := by
  rw [Operator.rows, Operator.rows, all_map, hRows, Option.map_map]
  simp only [Function.comp_def, Expression.accepted_rewrite]
  split
  · cases hChild : child.rows session aggregator with
    | none => rfl
    | some rows =>
      rw [Option.map_some, Option.map_some, aggregateRow, aggregateRow, map_map]
      simp only [map_eq_nil_iff]
      congr 5
      funext column
      congr 2
      refine map_congr_left fun agg hAgg => ?_
      rw [Function.comp_apply, map_map]
      congr 1
      refine map_congr_left fun row hRow => ?_
      exact compute_projectedChoice (hasWidths_single hChild hRow) (hAggs agg hAgg)
  · rfl

/-- Removing columns of an operator without touching its children. -/
theorem rows_keep_select (kept : Nat → Bool) (schema : List SchemaColumn) (child : Operator F) (expr : Expression F) :
    (Operator.select (keep kept schema) child expr).rows session aggregator =
      ((Operator.select schema child expr).rows session aggregator).map fun rows =>
        rows.map (keep kept) := by
  rw [Operator.rows, Operator.rows]
  split
  · rw [Option.map_map]
    congr 1
    funext rows
    rw [Function.comp_apply, map_map]
    exact map_congr_left fun row _ => (keep_map kept _ schema).symm
  · rfl

theorem rows_keep_skinnerJoin (kept : Nat → Bool) (schema : List SchemaColumn) (children : List (Operator F))
    (conditions : List (Expression F)) :
    (Operator.skinnerJoin (keep kept schema) children conditions).rows session aggregator =
      ((Operator.skinnerJoin schema children conditions).rows session aggregator).map fun rows =>
        rows.map (keep kept) := by
  rw [Operator.rows, Operator.rows, Option.map_bind]
  congr 1
  funext inputs
  rw [Function.comp_apply, Option.map_map]
  congr 1
  funext choices
  rw [Function.comp_apply, map_map]
  exact map_congr_left fun choice _ => (keep_map kept _ schema).symm

theorem rows_keep_aggregate (kept : Nat → Bool) (schema : List VirtualColumn) (child : Operator F)
    (aggExprs : List (Aggregate F)) :
    (Operator.aggregate (keep kept schema) child aggExprs).rows session aggregator =
      ((Operator.aggregate schema child aggExprs).rows session aggregator).map fun rows =>
        rows.map (keep kept) := by
  rw [Operator.rows, Operator.rows]
  split
  · rw [Option.map_map]
    congr 1
    funext rows
    rw [Function.comp_apply, map_singleton, aggregateRow, aggregateRow, keep_map]
  · rfl

theorem rows_keep_scan {kept : Nat → Bool} {relation : Catalog.Table} (h : keep kept schema ≠ []) :
    (Operator.scan (keep kept schema) relation).rows session aggregator =
      ((Operator.scan schema relation).rows session aggregator).map fun rows =>
        rows.map (keep kept) := by
  have hSchema : schema ≠ [] := by
    rintro rfl
    exact h rfl
  rw [Operator.rows, Operator.rows, scanRows, scanRows, if_neg h, if_neg hSchema, Option.map_some, map_map]
  congr 1
  exact map_congr_left fun row _ => (keep_map kept _ schema).symm

mutual

theorem rows_earlyProjection (op : Operator F) {kept : Nat → Bool} {projected : Operator F}
    (h : earlyProjection kept op = .ok projected) (hScans : projected.hasEmptyScan = false) :
    projected.rows session aggregator =
      (op.rows session aggregator).map fun rows => rows.map (keep kept) := by
  cases op with
  | scan schema relation =>
    cases h
    exact rows_keep_scan (of_decide_eq_false hScans)
  | select schema child expr =>
    obtain ⟨found, hFound, ⟨⟩⟩ := bind_eq_ok.mp h
    rw [← rows_keep_select]
    exact rows_select_projected (subset_append_left _ _) (subset_append_right _ _)
      (rows_earlyProjection child hFound hScans)
  | scanSelect selectSchema scanSchema relation filters => cases h
  | skinnerJoin schema children conditions =>
    obtain ⟨found, hFound, ⟨⟩⟩ := bind_eq_ok.mp h
    rw [← rows_keep_skinnerJoin]
    have hRows := inputRows_earlyProjections children hFound hScans
    simp only [Nat.zero_add] at hRows
    refine rows_skinnerJoin_projected (subset_append_left _ _) (fun condition hCondition => ?_) hFound hRows
    exact fun reference hReference =>
      mem_append_right _ (mem_flatMap.mpr ⟨condition, hCondition, hReference⟩)
  | aggregate schema child aggExprs =>
    obtain ⟨found, hFound, ⟨⟩⟩ := bind_eq_ok.mp h
    rw [← rows_keep_aggregate]
    refine rows_aggregate_projected (fun agg hAgg => ?_) (rows_earlyProjection child hFound hScans)
    exact fun reference hReference => mem_flatMap.mpr ⟨agg, hAgg, hReference⟩

theorem inputRows_earlyProjections (children : List (Operator F)) {refs : List (Nat × Nat)} {childIdx : Nat}
    {projected : List (Operator F)} (h : earlyProjections refs childIdx children = .ok projected)
    (hScans : anyEmptyScan projected = false) :
    inputRows session aggregator projected =
      (inputRows session aggregator children).map fun inputs =>
        inputs.mapIdx fun i rows => rows.map (keep fun j => refs.contains (childIdx + i, j)) := by
  cases children with
  | nil =>
    cases h
    rfl
  | cons child children =>
    obtain ⟨found, hFound, hBind⟩ := bind_eq_ok.mp h
    obtain ⟨others, hOthers, ⟨⟩⟩ := bind_eq_ok.mp hBind
    rw [anyEmptyScan, Bool.or_eq_false_iff] at hScans
    rw [inputRows, inputRows, rows_earlyProjection child hFound hScans.1,
      inputRows_earlyProjections children hOthers hScans.2]
    cases child.rows session aggregator with
    | none => rfl
    | some rows =>
      cases inputRows session aggregator children with
      | none => rfl
      | some inputs =>
        simp only [Option.map_some, Option.bind_some, mapIdx_cons, Nat.add_zero, Nat.add_assoc, Nat.add_comm 1]

end

end

end KushDB.Planner
