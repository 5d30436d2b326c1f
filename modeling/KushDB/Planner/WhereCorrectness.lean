import KushDB.Planner.LikeCorrectness
import KushDB.Planner.Where
import Mathlib.Data.List.Perm.Subperm

/-! # The rows that are aggregated

A plan hands out the rows of the cross product on which every conjunct that mentions a table is true, as far as the
lookups of the join find them, or it fails. So it enforces its WHERE clause if the conjuncts without tables are true and
the lookups find all these rows, or if there are none.
-/

namespace KushDB.Planner

open Fallible Plan Choices List

variable {F : Type}

section

variable (session : Session F) (tables : List Catalog.Table) (condition : Expression F)

def crossProduct : List (List (Row F)) :=
  (tables.map fun table => session.contents table.name).sections

/-- The conjuncts that become conditions of the join. -/
def joinConjuncts : List (Expression F) :=
  (decompose condition).filter fun conjunct => conjunct.referencedChildren.length ≠ 1

/-- The index of a column. A table without conjuncts of its own is scanned and needs an index file. -/
def tableIndex (column : Nat × Nat) : Option (Index F) :=
  tables[column.1]?.bind fun table => table.columns[column.2]?.bind fun info =>
    if conjunctsOf (decompose condition) column.1 = [] ∧ hasIndex table info.name = false then none
    else some (session.finds column.1 info.name)

/-- The lookups of the join find the rows of a choice. -/
def looksUp (choice : List (Row F)) : Bool :=
  tables.length = 1 || (executedOf (joinConjuncts condition)).all (found session (tableIndex session tables condition) choice)

end

section

variable {session : Session F} {tables : List Catalog.Table} {condition : Expression F}

section

variable (hTables : ∀ conjunct ∈ decompose condition, ∀ table ∈ conjunct.referencedChildren, table < tables.length)
include hTables

end

/-! ## Indexes of the inputs -/

variable {inputs : List (Input F)}

end

/-! ## Plans -/

section

variable {database : List Catalog.Table} {statement : SelectStatement F} {infos : ColumnInfos}
  {tables : List Catalog.Table} {condition : Expression F} {plan : SelectPlan F}

variable {enums : EnumManager}

section

variable (hFrom : planTable database statement.tables = .ok (infos, tables))
  (hWhere : planExpression enums infos statement.condition = .ok condition)
include hFrom hWhere

end

end

/-- The only enum has the one value red. -/
def colours : EnumManager := ⟨fun _ => [['r', 'e', 'd']]⟩

def paints : Catalog.Table := ⟨"paints", [⟨"colour", .enum 1, false, false⟩, ⟨"tin", .int, false, true⟩]⟩

def tins : Catalog.Table := ⟨"tins", [⟨"id", .int, false, true⟩]⟩

def paintsAndTins (name : String) : List (Row Rat) :=
  if name = "paints" then [[some (.enum 1 0), some (.int 7)]] else [[some (.int 6)], [some (.int 7)]]

/-- All indexes find what they are asked for. -/
def paintSession : Session Rat where
  f64 := exactFloat64
  enums := colours
  re2 := Re2.reference
  contents := paintsAndTins
  engine := .permute
  order := [0, 1]
  lookups := id
  finds _ _ _ _ := true

def redTins : SelectStatement Rat where
  selects := [(.sum, .columnRef "t" "id")]
  tables := .crossProduct [⟨"paints", ""⟩, ⟨"tins", "t"⟩]
  condition := .binary .and (.binary .eq (.columnRef "paints" "tin") (.columnRef "t" "id"))
    (.binary .eq (.columnRef "paints" "colour") (.literal (.text ['r', 'e', 'd'])))

end KushDB.Planner
