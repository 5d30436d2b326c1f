import KushDB.Library.Selection
import KushDB.Planner.Select

/-! # Operator trees and their rewriting

The planner returns a tree of operators, each with the schema of the rows that it hands out. Before a tree is executed,
columns that nobody refers to are removed from top to bottom, and the references are moved to where their columns then
are. After that a selection over a scan becomes one operator, whose expressions refer to the columns of the scan as
virtual columns and whose filters are the conjuncts of the selection.

The columns of a scan, a selection or a join are references to columns of a child; those of the other operators are
virtual references.
-/

namespace KushDB.Planner

open Plan Selection

/-- A column of a schema with the column of a child that it refers to. A scan looks its columns up by the name. -/
structure SchemaColumn where
  name : String
  childIdx : Nat
  columnIdx : Nat
deriving DecidableEq, Repr

structure VirtualColumn where
  name : String
  columnIdx : Nat
deriving DecidableEq, Repr

variable {F : Type}

inductive Operator (F : Type)
  | scan (schema : List SchemaColumn) (relation : Catalog.Table)
  | select (schema : List SchemaColumn) (child : Operator F) (expr : Expression F)
  | scanSelect (selectSchema : List VirtualColumn) (scanSchema : List SchemaColumn) (relation : Catalog.Table)
    (filters : List (Expression F))
  | skinnerJoin (schema : List SchemaColumn) (children : List (Operator F)) (conditions : List (Expression F))
  | aggregate (schema : List VirtualColumn) (child : Operator F) (aggExprs : List (Aggregate F))

/-- The root of every tree. -/
structure OutputOperator (F : Type) where
  child : Operator F

def Operator.numColumns : Operator F → Nat
  | scan schema _ => schema.length
  | select schema _ _ => schema.length
  | scanSelect selectSchema _ _ _ => selectSchema.length
  | skinnerJoin schema _ _ => schema.length
  | aggregate schema _ _ => schema.length

/-! ## The tree of a statement -/

def addGeneratedColumns (table : Catalog.Table) : List SchemaColumn :=
  table.columns.mapIdx fun idx column => ⟨column.name, 0, idx⟩

def addPassthroughColumns (schema : List SchemaColumn) (childIdx : Nat) : List SchemaColumn :=
  schema.mapIdx fun idx column => ⟨column.name, childIdx, idx⟩

def Input.schema : Input F → List SchemaColumn
  | .scan table => addGeneratedColumns table
  | .select table _ => addPassthroughColumns (addGeneratedColumns table) 0

def Input.operator : Input F → Operator F
  | .scan table => .scan (addGeneratedColumns table) table
  | .select table expr =>
    .select (addPassthroughColumns (addGeneratedColumns table) 0) (.scan (addGeneratedColumns table) table) expr

def joinSchema : Nat → List (Input F) → List SchemaColumn
  | _, [] => []
  | childIdx, input :: inputs => addPassthroughColumns input.schema childIdx ++ joinSchema (childIdx + 1) inputs

def Source.operator : Source F → Operator F
  | .single input => input.operator
  | .skinnerJoin children conditions => .skinnerJoin (joinSchema 0 children) (children.map Input.operator) conditions

def SelectPlan.operator (plan : SelectPlan F) : OutputOperator F where
  child := .aggregate (plan.aggregates.mapIdx fun idx _ => ⟨toString idx, idx⟩) plan.source.operator plan.aggregates

/-! ## Early projection -/

/-- The new positions of the referenced columns of the children, whose numbers of columns are given. -/
def columnRewrites (refs : List (Nat × Nat)) (widths : List Nat) (reference : Nat × Nat) : Option (Nat × Nat) :=
  if reference.2 < widths.getD reference.1 0 ∧ refs.contains reference then
    some (reference.1, offset (fun i => refs.contains (reference.1, i)) reference.2)
  else none

def SchemaColumn.reference (column : SchemaColumn) : Nat × Nat :=
  (column.childIdx, column.columnIdx)

def SchemaColumn.rewriteColumnReferences (rewrites : Nat × Nat → Option (Nat × Nat)) (column : SchemaColumn) :
    SchemaColumn :=
  match rewrites column.reference with
  | some (childIdx, columnIdx) => { column with childIdx, columnIdx }
  | none => column

mutual

/-- Removes the columns of the operator that its parent does not keep, and then those that it does not refer to itself
from its children. -/
def earlyProjection (kept : Nat → Bool) : Operator F → Except String (Operator F)
  | .aggregate schema child aggExprs => do
    let refs := aggExprs.flatMap fun agg => agg.child.references
    let rewrites := columnRewrites refs [child.numColumns]
    let projected ← earlyProjection (fun i => refs.contains (0, i)) child
    return .aggregate (keep kept schema) projected
      (aggExprs.map fun agg => { agg with child := agg.child.rewriteColumnReferences rewrites })
  | .skinnerJoin schema children conditions => do
    let refs := (keep kept schema).map SchemaColumn.reference ++ conditions.flatMap Expression.references
    let rewrites := columnRewrites refs (children.map Operator.numColumns)
    let projected ← earlyProjections refs 0 children
    return .skinnerJoin ((keep kept schema).map (SchemaColumn.rewriteColumnReferences rewrites)) projected
      (conditions.map (Expression.rewriteColumnReferences rewrites))
  | .select schema child expr => do
    let refs := (keep kept schema).map SchemaColumn.reference ++ expr.references
    let rewrites := columnRewrites refs [child.numColumns]
    let projected ← earlyProjection (fun i => refs.contains (0, i)) child
    return .select ((keep kept schema).map (SchemaColumn.rewriteColumnReferences rewrites)) projected
      (expr.rewriteColumnReferences rewrites)
  | .scan schema relation => return .scan (keep kept schema) relation
  | .scanSelect _ _ _ _ => .error "Not supported."

def earlyProjections (refs : List (Nat × Nat)) : Nat → List (Operator F) → Except String (List (Operator F))
  | _, [] => return []
  | childIdx, child :: children => do
    let projected ← earlyProjection (fun i => refs.contains (childIdx, i)) child
    return projected :: (← earlyProjections refs (childIdx + 1) children)

end

/-! ## Scans with filters -/

def rewriteColRefToVirtColRef : Expression F → Expression F :=
  Expression.mapColumnRefs fun type nullable _ columnIdx => .virtualColumnRef type nullable columnIdx

def SchemaColumn.virtual (column : SchemaColumn) : VirtualColumn :=
  ⟨column.name, column.columnIdx⟩

mutual

def adaptiveScanSelect : Operator F → Operator F
  | .select schema (.scan scanSchema relation) expr =>
    .scanSelect (schema.map SchemaColumn.virtual) scanSchema relation ((decompose expr).map rewriteColRefToVirtColRef)
  | .select schema child expr => .select schema (adaptiveScanSelect child) expr
  | .skinnerJoin schema children conditions => .skinnerJoin schema (adaptiveScanSelects children) conditions
  | .aggregate schema child aggExprs => .aggregate schema (adaptiveScanSelect child) aggExprs
  | .scan schema relation => .scan schema relation
  | .scanSelect selectSchema scanSchema relation filters => .scanSelect selectSchema scanSchema relation filters

def adaptiveScanSelects : List (Operator F) → List (Operator F)
  | [] => []
  | child :: children => adaptiveScanSelect child :: adaptiveScanSelects children

end

/-- What the planner does with the tree of a statement before it returns it. -/
def OutputOperator.rewrite (op : OutputOperator F) : Except String (OutputOperator F) := do
  let projected ← earlyProjection (fun _ => true) op.child
  return ⟨adaptiveScanSelect projected⟩

end KushDB.Planner
