import KushDB.Planner.JoinRows

/-! # The rows of an operator tree

The translators of the operators hand rows from the children to the parents. The number of rows of a scan is the size of
the first column that it reads, and without columns the generation of code fails. The rows of a join are given as a bag.
An aggregation initialises its aggregators with the first row and updates them with the others, and hands out one row;
its columns are NULL if there was no row. What an aggregator computes from the values of its argument is left open.
-/

namespace KushDB.Planner

open Plan List

variable {F : Type}

def virtualValuesIn (row : Row F) : SchemaValues F where
  schemaValues _ _ := none
  virtualSchemaValues columnIdx := row.getD columnIdx none

def columnValue (relation : Catalog.Table) (row : Row F) (name : String) : Option (Value F) :=
  match relation.columns.findIdx? fun column => column.name = name with
  | some columnIdx => row.getD columnIdx none
  | none => none

def SchemaColumn.value (choice : List (Row F)) (column : SchemaColumn) : Option (Value F) :=
  valueIn choice column.reference

section

variable (session : Session F) (aggregator : AggregateType → List (Option (Value F)) → Option (Value F))

def scanRows (schema : List SchemaColumn) (relation : Catalog.Table) : Option (List (Row F)) :=
  if schema = [] then none
  else some ((session.contents relation.name).map fun row => schema.map fun column => columnValue relation row column.name)

def aggregateRow (schema : List VirtualColumn) (aggExprs : List (Aggregate F)) (rows : List (Row F)) : Row F :=
  let results := aggExprs.map fun agg =>
    aggregator agg.type (rows.map fun row => session.compute [row] agg.child)
  schema.map fun column => if rows = [] then none else results.getD column.columnIdx none

mutual

def Operator.rows : Operator F → Option (List (Row F))
  | .scan schema relation => scanRows session schema relation
  | .select schema child expr =>
    if expr.isPredicate then
      child.rows.map fun rows => (rows.filter fun row => session.holds [row] expr).map fun row =>
        schema.map (SchemaColumn.value [row])
    else none
  | .scanSelect selectSchema scanSchema relation filters =>
    if filters.all Expression.isPredicate then
      (scanRows session scanSchema relation).map fun rows =>
        (rows.filter fun row => filters.all fun filter =>
          filter.holds session.f64 session.enums session.re2 (virtualValuesIn row)).map fun row =>
          selectSchema.map fun column => row.getD column.columnIdx none
    else none
  | .skinnerJoin schema children conditions =>
    (inputRows children).bind fun inputs =>
      (skinnerJoinChoices session (indexOf session children) inputs conditions).map fun choices =>
        choices.map fun choice => schema.map (SchemaColumn.value choice)
  | .aggregate schema child aggExprs =>
    if aggExprs.all fun agg => agg.child.accepted then
      child.rows.map fun rows => [aggregateRow session aggregator schema aggExprs rows]
    else none

def inputRows : List (Operator F) → Option (List (List (Row F)))
  | [] => some []
  | child :: children => child.rows.bind fun rows => (inputRows children).map fun others => rows :: others

end

def OutputOperator.rows (op : OutputOperator F) : Option (List (Row F)) :=
  op.child.rows session aggregator

end

section

variable {session : Session F} {aggregator : AggregateType → List (Option (Value F)) → Option (Value F)}

theorem length_of_mem_rows {op : Operator F} {rows : List (Row F)} (h : op.rows session aggregator = some rows)
    {row : Row F} (hRow : row ∈ rows) : row.length = op.numColumns := by
  cases op with
  | scan schema relation =>
    rw [Operator.rows, scanRows] at h
    split at h
    · cases h
    · cases h
      obtain ⟨source, _, rfl⟩ := mem_map.mp hRow
      exact length_map _
  | select schema child expr | scanSelect selectSchema scanSchema relation filters =>
    rw [Operator.rows] at h
    split at h
    · obtain ⟨found, _, rfl⟩ := Option.map_eq_some_iff.mp h
      obtain ⟨source, _, rfl⟩ := mem_map.mp hRow
      exact length_map _
    · cases h
  | skinnerJoin schema children conditions =>
    rw [Operator.rows] at h
    obtain ⟨inputs, _, hJoin⟩ := Option.bind_eq_some_iff.mp h
    obtain ⟨choices, _, rfl⟩ := Option.map_eq_some_iff.mp hJoin
    obtain ⟨choice, _, rfl⟩ := mem_map.mp hRow
    exact length_map _
  | aggregate schema child aggExprs =>
    rw [Operator.rows] at h
    split at h
    · obtain ⟨found, _, rfl⟩ := Option.map_eq_some_iff.mp h
      rw [mem_singleton.mp hRow]
      exact length_map _
    · cases h

/-! ## Scans without columns -/

mutual

def Operator.hasEmptyScan : Operator F → Bool
  | .scan schema _ => schema = []
  | .select _ child _ => child.hasEmptyScan
  | .scanSelect _ scanSchema _ _ => scanSchema = []
  | .skinnerJoin _ children _ => anyEmptyScan children
  | .aggregate _ child _ => child.hasEmptyScan

def anyEmptyScan : List (Operator F) → Bool
  | [] => false
  | child :: children => child.hasEmptyScan || anyEmptyScan children

end

mutual

theorem rows_of_hasEmptyScan (op : Operator F) (h : op.hasEmptyScan = true) :
    op.rows session aggregator = none := by
  cases op with
  | scan schema relation => rw [Operator.rows, scanRows, if_pos (of_decide_eq_true h)]
  | select schema child expr =>
    rw [Operator.rows, rows_of_hasEmptyScan child h]
    split
    · rfl
    · rfl
  | scanSelect selectSchema scanSchema relation filters =>
    rw [Operator.rows, scanRows, if_pos (of_decide_eq_true h)]
    split
    · rfl
    · rfl
  | skinnerJoin schema children conditions => rw [Operator.rows, inputRows_of_anyEmptyScan children h, Option.bind_none]
  | aggregate schema child aggExprs =>
    rw [Operator.rows, rows_of_hasEmptyScan child h]
    split
    · rfl
    · rfl

theorem inputRows_of_anyEmptyScan (children : List (Operator F)) (h : anyEmptyScan children = true) :
    inputRows session aggregator children = none := by
  cases children with
  | nil => cases h
  | cons child children =>
    rw [anyEmptyScan, Bool.or_eq_true] at h
    rw [inputRows]
    rcases h with hChild | hChildren
    · rw [rows_of_hasEmptyScan child hChild, Option.bind_none]
    · rw [inputRows_of_anyEmptyScan children hChildren]
      cases child.rows session aggregator with
      | none => rfl
      | some rows => rfl

end

end

end KushDB.Planner
