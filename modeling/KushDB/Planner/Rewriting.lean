import KushDB.Planner.PlannedInputs
import KushDB.Planner.ScanSelect
import KushDB.Planner.WhereCorrectness

/-! # Whether rewriting a tree preserves its rows

A table that is scanned without a filter keeps the columns that the aggregates or the conditions of the join refer to.
If there is one for every such table, the rewritten tree of a statement has the rows of the original one. If one of them
keeps none, no code can be generated for the rewritten tree.
-/

namespace KushDB.Planner

open Fallible Plan Selection List

variable {F : Type}

/-- The columns of the tables that the aggregates, by the columns of the source, and the conditions of the join refer to. -/
def Source.references (aggregated : List (Nat × Nat)) : Source F → List (Nat × Nat)
  | .single _ => aggregated
  | .skinnerJoin children conditions =>
    keep (fun i => aggregated.contains (0, i)) ((joinSchema 0 children).map SchemaColumn.reference) ++
      conditions.flatMap Expression.references

def SelectPlan.references (plan : SelectPlan F) : List (Nat × Nat) :=
  plan.source.references (plan.aggregates.flatMap fun agg => agg.child.references)

/-- A table is scanned without a filter and none of its columns is referred to. -/
def SelectPlan.LosesTable (plan : SelectPlan F) : Prop :=
  ∃ (childIdx : Nat) (table : Catalog.Table), plan.source.inputs[childIdx]? = some (.scan table) ∧
    ∀ columnIdx < table.columns.length, (childIdx, columnIdx) ∉ plan.references

/-! ## Projected inputs -/

theorem length_addGeneratedColumns (table : Catalog.Table) :
    (addGeneratedColumns table).length = table.columns.length :=
  length_mapIdx

theorem contains_eq_false {refs : List (Nat × Nat)} {reference : Nat × Nat} :
    refs.contains reference = false ↔ reference ∉ refs := by
  rw [Bool.eq_false_iff, Ne, contains_iff_mem]

variable {input : Input F} {inputs : List (Input F)} {plan : SelectPlan F}

theorem earlyProjection_input (h : input.RefersToScan) (kept : Nat → Bool) :
    ∃ projected, earlyProjection kept input.operator = .ok projected ∧
      (projected.hasEmptyScan = true ↔
        ∃ table, input = .scan table ∧ ∀ columnIdx < table.columns.length, kept columnIdx = false) := by
  cases input with
  | scan table =>
    refine ⟨_, rfl, ?_⟩
    rw [Operator.hasEmptyScan, decide_eq_true_iff, keep_eq_nil_iff, length_addGeneratedColumns]
    constructor
    · exact fun hNone => ⟨table, rfl, hNone⟩
    · rintro ⟨_, ⟨⟩, hNone⟩
      exact hNone
  | select table expr =>
    obtain ⟨_, columnIdx, hColumn, hReference⟩ := h
    refine ⟨_, rfl, ?_⟩
    rw [Operator.hasEmptyScan, Operator.hasEmptyScan, decide_eq_true_iff, keep_eq_nil_iff, length_addGeneratedColumns]
    constructor
    · intro hNone
      have hUnused := contains_eq_false.mp (hNone columnIdx hColumn)
      exact absurd (mem_append_right _ hReference) hUnused
    · rintro ⟨_, ⟨⟩, _⟩

theorem earlyProjections_inputs (h : ∀ input ∈ inputs, input.RefersToScan) (refs : List (Nat × Nat)) (childIdx : Nat) :
    ∃ projected, earlyProjections refs childIdx (inputs.map Input.operator) = .ok projected ∧
      (anyEmptyScan projected = true ↔ ∃ (i : Nat) (table : Catalog.Table), inputs[i]? = some (.scan table) ∧
        ∀ columnIdx < table.columns.length, (childIdx + i, columnIdx) ∉ refs) := by
  induction inputs generalizing childIdx with
  | nil => exact ⟨[], rfl, by simp [anyEmptyScan]⟩
  | cons input inputs ih =>
    obtain ⟨first, hFirst, hFirstEmpty⟩ := earlyProjection_input (h input mem_cons_self)
      fun i => refs.contains (childIdx, i)
    obtain ⟨rest, hRest, hRestEmpty⟩ := ih (fun other hOther => h other (mem_cons_of_mem _ hOther)) (childIdx + 1)
    refine ⟨first :: rest, ?_, ?_⟩
    · rw [map_cons, earlyProjections, hFirst, hRest]
      rfl
    · rw [anyEmptyScan, Bool.or_eq_true, hFirstEmpty, hRestEmpty]
      constructor
      · rintro (⟨table, rfl, hNone⟩ | ⟨i, table, hInput, hNone⟩)
        · exact ⟨0, table, rfl, fun columnIdx hColumn => contains_eq_false.mp (hNone columnIdx hColumn)⟩
        · refine ⟨i + 1, table, hInput, fun columnIdx hColumn => ?_⟩
          rw [← Nat.add_assoc, Nat.add_right_comm]
          exact hNone columnIdx hColumn
      · rintro ⟨i, table, hInput, hNone⟩
        cases i with
        | zero =>
          exact Or.inl ⟨table, Option.some.inj hInput,
            fun columnIdx hColumn => contains_eq_false.mpr (hNone columnIdx hColumn)⟩
        | succ i =>
          refine Or.inr ⟨i, table, hInput, fun columnIdx hColumn => ?_⟩
          rw [Nat.add_right_comm, Nat.add_assoc]
          exact hNone columnIdx hColumn

theorem earlyProjection_source {source : Source F} (h : ∀ input ∈ source.inputs, input.RefersToScan)
    (aggregated : List (Nat × Nat)) :
    ∃ projected, earlyProjection (fun i => aggregated.contains (0, i)) source.operator = .ok projected ∧
      (projected.hasEmptyScan = true ↔ ∃ (childIdx : Nat) (table : Catalog.Table),
        source.inputs[childIdx]? = some (.scan table) ∧
          ∀ columnIdx < table.columns.length, (childIdx, columnIdx) ∉ source.references aggregated) := by
  cases source with
  | single input =>
    obtain ⟨projected, hProjected, hEmpty⟩ := earlyProjection_input (h input mem_cons_self)
      fun i => aggregated.contains (0, i)
    refine ⟨projected, hProjected, hEmpty.trans ?_⟩
    constructor
    · rintro ⟨table, rfl, hNone⟩
      exact ⟨0, table, rfl, fun columnIdx hColumn => contains_eq_false.mp (hNone columnIdx hColumn)⟩
    · rintro ⟨childIdx, table, hInput, hNone⟩
      cases childIdx with
      | zero =>
        exact ⟨table, Option.some.inj hInput, fun columnIdx hColumn => contains_eq_false.mpr (hNone columnIdx hColumn)⟩
      | succ childIdx => cases hInput
  | skinnerJoin children conditions =>
    obtain ⟨projected, hProjected, hEmpty⟩ := earlyProjections_inputs h
      ((keep (fun i => aggregated.contains (0, i)) (joinSchema 0 children)).map SchemaColumn.reference ++
        conditions.flatMap Expression.references) 0
    refine ⟨_, by rw [Source.operator, earlyProjection]; exact bind_eq_ok.mpr ⟨projected, hProjected, rfl⟩, ?_⟩
    rw [Operator.hasEmptyScan, hEmpty, Source.references, keep_map]
    simp only [Nat.zero_add]

theorem earlyProjection_plan (h : ∀ input ∈ plan.source.inputs, input.RefersToScan) :
    ∃ projected, earlyProjection (fun _ => true) plan.operator.child = .ok projected ∧
      (projected.hasEmptyScan = true ↔ plan.LosesTable) := by
  obtain ⟨projected, hProjected, hEmpty⟩ := earlyProjection_source h
    (plan.aggregates.flatMap fun agg => agg.child.references)
  refine ⟨_, by rw [SelectPlan.operator, earlyProjection]; exact bind_eq_ok.mpr ⟨projected, hProjected, rfl⟩, ?_⟩
  rw [Operator.hasEmptyScan, hEmpty]
  rfl

/-! ## Selections of the plan -/

theorem onFirstChild_input (h : input.RefersToScan) : input.operator.OnFirstChild := by
  cases input with
  | scan table => exact trivial
  | select table expr =>
    refine ⟨fun column hColumn => ?_, h.1, trivial⟩
    obtain ⟨i, _, rfl⟩ := mem_mapIdx.mp hColumn
    rfl

theorem allOnFirstChild_inputs (h : ∀ input ∈ inputs, input.RefersToScan) :
    AllOnFirstChild (inputs.map Input.operator) := by
  induction inputs with
  | nil => exact trivial
  | cons input inputs ih =>
    exact ⟨onFirstChild_input (h input mem_cons_self),
      ih fun other hOther => h other (mem_cons_of_mem _ hOther)⟩

theorem onFirstChild_plan (h : ∀ input ∈ plan.source.inputs, input.RefersToScan) :
    plan.operator.child.OnFirstChild := by
  obtain ⟨source, aggregates⟩ := plan
  cases source with
  | single input => exact onFirstChild_input (h input mem_cons_self)
  | skinnerJoin children conditions => exact allOnFirstChild_inputs h

/-! ## Rows of the rewritten tree -/

/-- The planner can rewrite the tree, and the rewritten tree has the rows of the original one. -/
def PreservesRows (session : Session F) (aggregator : AggregateType → List (Option (Value F)) → Option (Value F))
    (op : OutputOperator F) : Prop :=
  ∃ rewritten, op.rewrite = .ok rewritten ∧ rewritten.rows session aggregator = op.rows session aggregator

section

variable {enums : EnumManager} {database : List Catalog.Table} {statement : SelectStatement F} {plan : SelectPlan F}

theorem rows_rewrite (session : Session F)
    (aggregator : AggregateType → List (Option (Value F)) → Option (Value F))
    (h : ∀ input ∈ plan.source.inputs, input.RefersToScan) :
    ∃ rewritten, plan.operator.rewrite = .ok rewritten ∧
      (plan.LosesTable → rewritten.rows session aggregator = none) ∧
      (¬ plan.LosesTable → rewritten.rows session aggregator = plan.operator.rows session aggregator) := by
  obtain ⟨projected, hProjected, hEmpty⟩ := earlyProjection_plan h
  have hChild := onFirstChild_earlyProjection _ hProjected (onFirstChild_plan h)
  refine ⟨⟨adaptiveScanSelect projected⟩, bind_eq_ok.mpr ⟨projected, hProjected, rfl⟩, fun hLost => ?_, fun hKept => ?_⟩
  · rw [OutputOperator.rows, rows_adaptiveScanSelect projected hChild]
    exact rows_of_hasEmptyScan projected (hEmpty.mpr hLost)
  · have hScans : projected.hasEmptyScan = false := Bool.eq_false_iff.mpr fun hTrue => hKept (hEmpty.mp hTrue)
    rw [OutputOperator.rows, OutputOperator.rows, rows_adaptiveScanSelect projected hChild,
      rows_earlyProjection _ hProjected hScans]
    have hAll : (fun rows : List (Row F) => rows.map (keep fun _ => true)) = id :=
      funext fun rows => (map_congr_left fun row _ => keep_all row).trans (map_id rows)
    rw [hAll, Option.map_id_fun, id]

theorem preservesRows_iff (session : Session F)
    (aggregator : AggregateType → List (Option (Value F)) → Option (Value F))
    (hPlan : planSelect enums database statement = .ok plan) :
    PreservesRows session aggregator plan.operator ↔
      (∀ (childIdx : Nat) (table : Catalog.Table), plan.source.inputs[childIdx]? = some (.scan table) →
        ∃ columnIdx < table.columns.length, (childIdx, columnIdx) ∈ plan.references) ∨
      plan.operator.rows session aggregator = none := by
  obtain ⟨rewritten, hRewrite, hLost, hKept⟩ := rows_rewrite session aggregator (planSelect_refersToScan hPlan)
  have hLoses : ¬ plan.LosesTable ↔ ∀ (childIdx : Nat) (table : Catalog.Table),
      plan.source.inputs[childIdx]? = some (.scan table) →
        ∃ columnIdx < table.columns.length, (childIdx, columnIdx) ∈ plan.references := by
    simp only [SelectPlan.LosesTable, not_exists, not_and, not_forall, not_not, exists_prop]
  rw [← hLoses]
  constructor
  · rintro ⟨other, hOther, hRows⟩
    obtain rfl : rewritten = other := Except.ok.inj (hRewrite.symm.trans hOther)
    by_cases hTable : plan.LosesTable
    · exact .inr (hRows.symm.trans (hLost hTable))
    · exact .inl hTable
  · intro h
    refine ⟨rewritten, hRewrite, ?_⟩
    by_cases hTable : plan.LosesTable
    · rw [hLost hTable]
      rcases h with hNot | hNone
      · exact absurd hTable hNot
      · exact hNone.symm
    · exact hKept hTable

end

theorem preservesRows_redTins : ∃ plan, planSelect colours [paints, tins] redTins = .ok plan ∧
    PreservesRows paintSession (fun _ _ => none) plan.operator := by
  refine ⟨_, rfl, ?_⟩
  refine (@preservesRows_iff Rat colours [paints, tins] redTins _ paintSession (fun _ _ => none) rfl).mpr
    (.inl fun childIdx table hInput => ?_)
  rcases childIdx with _ | _ | childIdx
  · cases hInput
  · cases hInput
    exact ⟨0, by decide, by decide⟩
  · cases hInput

/-- The tins are only there to be counted with every paint. -/
def countedPaints : SelectStatement Rat where
  selects := [(.count, .columnRef "paints" "tin")]
  tables := .crossProduct [⟨"paints", ""⟩, ⟨"tins", ""⟩]
  condition := .binary .eq (.columnRef "paints" "tin") (.literal (.int 7))

theorem not_preservesRows_countedPaints : ∃ plan, planSelect colours [paints, tins] countedPaints = .ok plan ∧
    plan.operator.rows paintSession (fun _ values => some (.int values.length)) = some [[some (.int 2)]] ∧
    ¬ PreservesRows paintSession (fun _ values => some (.int values.length)) plan.operator := by
  refine ⟨_, rfl, rfl, ?_⟩
  rintro ⟨rewritten, hRewrite, hRows⟩
  cases hRewrite
  cases hRows

end KushDB.Planner
