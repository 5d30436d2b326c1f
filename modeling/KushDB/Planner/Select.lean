import KushDB.Planner.Statement

/-! # Planning a SELECT statement

The planner splits the WHERE expression at its conjunctions. What mentions one table filters the scan of that table,
and everything else becomes a condition of a Skinner join of all tables; where there is only one table, there is no
join. The aggregates are planned over the columns of all tables put side by side.
-/

namespace KushDB.Catalog

structure Column where
  name : String
  type : Plan.SqlType
  nullable : Bool
  hasIndex : Bool

structure Table where
  name : String
  columns : List Column

end KushDB.Catalog

namespace KushDB.Planner

open Plan

set_option autoImplicit false

variable {F : Type}

/-- A statement that selects aggregates. -/
structure SelectStatement (F : Type) where
  selects : List (AggregateType × Parse.Expression F)
  tables : Parse.Table
  condition : Parse.Expression F

/-- A scan of a table, or a `SelectOperator` over it whose expression refers to the scan as its child 0. -/
inductive Input (F : Type)
  | scan (table : Catalog.Table)
  | select (table : Catalog.Table) (expr : Expression F)

inductive Source (F : Type)
  | single (input : Input F)
  | skinnerJoin (children : List (Input F)) (conditions : List (Expression F))

structure Aggregate (F : Type) where
  type : AggregateType
  child : Expression F

structure SelectPlan (F : Type) where
  source : Source F
  aggregates : List (Aggregate F)

/-! ## Tables -/

section

variable (database : List Catalog.Table)

def addColumns (aliasName : String) (childIdx : Nat) : List Catalog.Column → Nat → ColumnInfos → ColumnInfos
  | [], _, infos => infos
  | column :: columns, colIdx, infos =>
    addColumns aliasName childIdx columns (colIdx + 1)
      (((aliasName, column.name), ⟨childIdx, colIdx, column.type, column.nullable⟩) :: infos)

def planBaseTable (table : Parse.BaseTable) (childIdx : Nat) (infos : ColumnInfos) :
    Except String (ColumnInfos × Catalog.Table) :=
  match database.find? fun found => found.name = table.name with
  | none => .error ("Unknown table " ++ table.name)
  | some found =>
    let aliasName := if table.aliasName.isEmpty then found.name else table.aliasName
    .ok (addColumns aliasName childIdx found.columns 0 infos, found)

def planBaseTables : List Parse.BaseTable → Nat → ColumnInfos → Except String (ColumnInfos × List Catalog.Table)
  | [], _, infos => .ok (infos, [])
  | table :: tables, childIdx, infos => do
    let (infos, found) ← planBaseTable database table childIdx infos
    let (infos, rest) ← planBaseTables tables (childIdx + 1) infos
    return (infos, found :: rest)

def planTable : Parse.Table → Except String (ColumnInfos × List Catalog.Table)
  | .base table => planBaseTables database [table] 0 []
  | .crossProduct tables => planBaseTables database tables 0 []

end

/-! ## The WHERE expression -/

def decompose : Expression F → List (Expression F)
  | .binary .and left right => decompose left ++ decompose right
  | expr => [expr]

structure Predicates (F : Type) where
  unaryPredsPerTable : List (List (Expression F))
  joinPreds : List (Expression F)

def addPredicate (preds : Predicates F) (expr : Expression F) : Predicates F :=
  match expr.referencedChildren with
  | [table] => { preds with unaryPredsPerTable := preds.unaryPredsPerTable.modify table (· ++ [expr]) }
  | _ => { preds with joinPreds := preds.joinPreds ++ [expr] }

def splitPredicates (numTables : Nat) (exprs : List (Expression F)) : Predicates F :=
  exprs.foldl addPredicate ⟨List.replicate numTables [], []⟩

/-- The conjunction of a table's predicates, built from the last one on. -/
def conjoin (first : Expression F) : List (Expression F) → Except String (Expression F)
  | [] => .ok first
  | second :: rest => do binaryArithmeticExpression .and first (← conjoin second rest)

def planInput (table : Catalog.Table) : List (Expression F) → Except String (Input F)
  | [] => .ok (.scan table)
  | first :: rest => do
    let filter ← conjoin first rest
    let rewrites := fun reference => if filter.references.contains reference then some (0, reference.2) else none
    return .select table (filter.rewriteColumnReferences rewrites)

def planInputs : List Catalog.Table → List (List (Expression F)) → Except String (List (Input F))
  | table :: tables, preds :: unaryPreds => do
    let input ← planInput table preds
    return input :: (← planInputs tables unaryPreds)
  | _, _ => .ok []

def planSource (tables : List Catalog.Table) (condition : Expression F) : Except String (Source F) := do
  let preds := splitPredicates tables.length (decompose condition)
  match ← planInputs tables preds.unaryPredsPerTable with
  | [input] => return .single input
  | inputs => return .skinnerJoin inputs preds.joinPreds

/-! ## Aggregates -/

/-- The columns of all tables in the order of the output. -/
def outputColumns (tables : List Catalog.Table) : List (Nat × Nat) :=
  tables.zipIdx.flatMap fun (table, childIdx) => (List.range table.columns.length).map fun colIdx => (childIdx, colIdx)

def rewriteInfos (tables : List Catalog.Table) (infos : ColumnInfos) : Except String ColumnInfos :=
  infos.mapM fun (key, info) =>
    match (outputColumns tables).idxOf? (info.childIdx, info.colIdx) with
    | some colIdx => .ok (key, { info with childIdx := 0, colIdx := colIdx })
    | none => .error "flat_hash_map::at"

section

variable (enums : EnumManager) (database : List Catalog.Table)

def planAggregate (infos : ColumnInfos) (select : AggregateType × Parse.Expression F) : Except String (Aggregate F) := do
  let child ← planExpression enums infos select.2
  let _ ← calculateAggTypeId select.1 child.type
  return ⟨select.1, child⟩

def planSelect (statement : SelectStatement F) : Except String (SelectPlan F) := do
  let (infos, tables) ← planTable database statement.tables
  let condition ← planExpression enums infos statement.condition
  let source ← planSource tables condition
  let infos ← rewriteInfos tables infos
  let aggregates ← statement.selects.mapM (planAggregate enums infos)
  return ⟨source, aggregates⟩

end

end KushDB.Planner
