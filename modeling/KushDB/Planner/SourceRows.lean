import KushDB.Planner.EarlyProjection
import KushDB.Planner.PlannedInputs
import KushDB.Planner.WhereCorrectness

/-! # The rows of a planned source

The operator tree of a source, before it is rewritten, hands out the rows of the source: a scan reads all columns of its
table, and a selection or a join passes all columns of its children on.
-/

namespace KushDB.Planner

open Plan List

variable {F : Type}

def Input.table : Input F → Catalog.Table
  | .scan table => table
  | .select table _ => table

/-- The table has columns, of different names, and each of its rows has a value for every column. -/
structure Stored (contents : String → List (Row F)) (table : Catalog.Table) : Prop where
  nonempty : table.columns ≠ []
  names : (table.columns.map Catalog.Column.name).Nodup
  widths : ∀ row ∈ contents table.name, row.length = table.columns.length

section

variable {session : Session F} {aggregator : AggregateType → List (Option (Value F)) → Option (Value F)}
variable {table : Catalog.Table} {row : Row F}

theorem findIdx_name (hNames : (table.columns.map Catalog.Column.name).Nodup) {columnIdx : Nat}
    {column : Catalog.Column} (hColumn : table.columns[columnIdx]? = some column) :
    (table.columns.findIdx? fun other => other.name = column.name) = some columnIdx := by
  obtain ⟨hLt, rfl⟩ := List.getElem?_eq_some_iff.mp hColumn
  refine findIdx?_eq_some_iff_getElem.mpr ⟨hLt, decide_eq_true rfl, fun other hOther hSame => ?_⟩
  have hNameOf := of_decide_eq_true hSame
  have hLtOther : other < (table.columns.map Catalog.Column.name).length := by
    rw [length_map]
    exact hOther.trans hLt
  have hIndex : other = columnIdx := by
    refine (getElem?_inj hLtOther hNames).mp ?_
    rw [getElem?_map, getElem?_map, hColumn, getElem?_eq_getElem (hOther.trans hLt), Option.map_some,
      Option.map_some, hNameOf]
  exact absurd hIndex (Nat.ne_of_lt hOther)

theorem map_mapIdx_eq_row {α : Type} {columns : List α} {schemaColumn : Nat → α → SchemaColumn}
    {value : SchemaColumn → Option (Value F)} (hWidth : row.length = columns.length)
    (h : ∀ i column, columns[i]? = some column → value (schemaColumn i column) = row.getD i none) :
    (columns.mapIdx schemaColumn).map value = row := by
  apply ext_getElem (by rw [length_map, length_mapIdx, hWidth])
  intro i hLeft hRight
  rw [getElem_map, getElem_mapIdx, h i _ (getElem?_eq_getElem (hWidth ▸ hRight)), getD_eq_getElem _ _ hRight]

theorem passthrough_row (schema : List SchemaColumn) (childIdx : Nat) {choice : List (Row F)}
    (hRow : choice.getD childIdx [] = row) (hWidth : row.length = schema.length) :
    (addPassthroughColumns schema childIdx).map (SchemaColumn.value choice) = row :=
  map_mapIdx_eq_row hWidth fun i _ _ => congrArg (List.getD · i none) hRow

theorem scanRows_addGeneratedColumns (h : Stored session.contents table) :
    scanRows session (addGeneratedColumns table) table = some (session.contents table.name) := by
  have hColumns : addGeneratedColumns table ≠ [] := fun hNil => h.nonempty (mapIdx_eq_nil_iff.mp hNil)
  rw [scanRows, if_neg hColumns]
  congr 1
  refine (map_congr_left fun row hRow => ?_).trans (map_id _)
  refine map_mapIdx_eq_row (h.widths row hRow) fun i column hColumn => ?_
  rw [columnValue, findIdx_name h.names hColumn]
  rfl

theorem rows_inputOperator {input : Input F} (h : Stored session.contents input.table) :
    input.operator.rows session aggregator = input.rows session := by
  cases input with
  | scan table => exact scanRows_addGeneratedColumns h
  | select table expr =>
    have hTable : Stored session.contents table := h
    rw [Input.operator, Operator.rows, Operator.rows, scanRows_addGeneratedColumns hTable, Input.rows, Option.map_some]
    split
    · congr 1
      refine (map_congr_left fun row hRow => ?_).trans (map_id _)
      refine passthrough_row _ 0 rfl ?_
      rw [id, hTable.widths row (mem_filter.mp hRow).1, addGeneratedColumns, length_mapIdx]
    · rfl

theorem inputRows_operators {inputs : List (Input F)} (h : ∀ input ∈ inputs, Stored session.contents input.table) :
    inputRows session aggregator (inputs.map Input.operator) =
      inputs.mapM (Input.rows session) := by
  induction inputs with
  | nil => rfl
  | cons input inputs ih =>
    rw [map_cons, inputRows, rows_inputOperator (h input mem_cons_self),
      ih fun other hOther => h other (mem_cons_of_mem _ hOther), mapM_cons]
    cases input.rows session with
    | none => rfl
    | some rows =>
      cases inputs.mapM (Input.rows session) with
      | none => rfl
      | some others => rfl

theorem length_inputRows {children : List (Operator F)} {inputs : List (List (Row F))}
    (h : inputRows session aggregator children = some inputs) : inputs.length = children.length := by
  induction children generalizing inputs with
  | nil =>
    cases h
    rfl
  | cons child children ih =>
    rw [inputRows] at h
    obtain ⟨rows, _, hRest⟩ := Option.bind_eq_some_iff.mp h
    obtain ⟨others, hOthers, rfl⟩ := Option.map_eq_some_iff.mp hRest
    rw [length_cons, length_cons, ih hOthers]

theorem numColumns_inputOperator (input : Input F) : input.operator.numColumns = input.schema.length := by
  cases input with
  | scan table => rfl
  | select table expr => rfl

theorem joinSchema_choice {inputs : List (Input F)} {choice before : List (Row F)} (hLength : choice.length = inputs.length)
    (hWidths : HasWidths choice ((inputs.map Input.operator).map Operator.numColumns)) :
    (joinSchema before.length inputs).map (SchemaColumn.value (before ++ choice)) = choice.flatten := by
  induction inputs generalizing before choice with
  | nil =>
    rw [eq_nil_of_length_eq_zero hLength]
    rfl
  | cons input inputs ih =>
    cases choice with
    | nil => cases hLength
    | cons row choice =>
      have hRow : (before ++ row :: choice).getD before.length [] = row := by simp
      have hWidth : row.length = input.schema.length := (hWidths 0).trans (numColumns_inputOperator input)
      have hRest := @ih choice (before ++ [row]) (Nat.succ.inj hLength) fun childIdx => hWidths (childIdx + 1)
      rw [length_append, length_singleton, append_assoc, singleton_append] at hRest
      rw [joinSchema, map_append, passthrough_row _ _ hRow hWidth, hRest, flatten_cons]

/-- Before it is rewritten, the tree of a source hands out the rows of the source. -/
theorem rows_sourceOperator {source : Source F} (h : ∀ input ∈ source.inputs, Stored session.contents input.table) :
    source.operator.rows session aggregator = source.rows session := by
  cases source with
  | single input => exact rows_inputOperator (h input mem_cons_self)
  | skinnerJoin children conditions =>
    have hRows : inputRows session aggregator (children.map Input.operator) =
        children.mapM (Input.rows session) := inputRows_operators h
    rw [Source.operator, Operator.rows, Source.rows, ← hRows]
    cases hInputs : inputRows session aggregator (children.map Input.operator) with
    | none => rfl
    | some inputs =>
      rw [Option.bind_some, Option.bind_some]
      cases hJoin : skinnerJoinChoices session (indexOf session (children.map Input.operator)) inputs conditions with
      | none => rfl
      | some choices =>
        obtain ⟨-, -, rfl⟩ := skinnerJoinChoices_eq_some.mp hJoin
        rw [Option.map_some, Option.map_some]
        congr 1
        refine map_congr_left fun choice hChoice => ?_
        have hMem := (mem_filter.mp hChoice).1
        have hWidths := hasWidths_of_mem_sections hInputs hMem
        have hLength : choice.length = children.length := by
          rw [(mem_sections.mp hMem).length_eq, length_inputRows hInputs, length_map]
        exact @joinSchema_choice F children choice [] hLength hWidths

end

theorem rows_sourceOperator_tins : (Source.skinnerJoin [.scan paints, .scan tins]
    [.binary .eq (.columnRef .int false 0 1) (.columnRef .int false 1 0)]).operator.rows paintSession (fun _ _ => none) =
      some [[some (.enum 1 0), some (.int 7), some (.int 7)]] := by
  refine (rows_sourceOperator ?_).trans (by rfl)
  simp only [Source.inputs, forall_mem_cons]
  exact ⟨⟨by decide, by decide, by decide⟩, ⟨by decide, by decide, by decide⟩, by simp⟩

end KushDB.Planner
