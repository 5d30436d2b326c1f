import KushDB.Library.Choices
import KushDB.Planner.Operator

/-! # The rows of a Skinner join

A join goes through its tables in some order and executes a condition with the last of its tables. An equality of two
columns is looked up in the index of the column of that table: the function of the table pushes the bucket of each key
to an array with a place for every predicate column, and nothing checks whether the places are enough. A scan needs an
index file for every column that the conditions mention; the rows of the other operators are indexed in memory.
-/

namespace KushDB.Planner

open Plan

variable {F : Type}

inductive Engine
  | permute
  | recompile
  | hybrid
deriving DecidableEq, Repr

/-- Whether an index that is asked for the first key finds the rows of the second one. -/
abbrev Index (F : Type) := Value F → Value F → Bool

/-- What a query is executed with. -/
structure Session (F : Type) where
  f64 : Float64 F
  enums : EnumManager
  re2 : Re2
  contents : String → List (Row F)
  engine : Engine
  /-- The order of the tables of a join. -/
  order : List Nat
  /-- The order in which the functions of the tables go through the conditions, which are given by their numbers. -/
  lookups : List Nat → List Nat
  /-- The indexes of the columns of an input of a join. Two doubles that are equal may have different hashes, and a file
  may have lost a key. -/
  finds : Nat → String → Index F

def valuesIn (choice : List (Row F)) : SchemaValues F where
  schemaValues childIdx columnIdx := (choice.getD childIdx []).getD columnIdx none
  virtualSchemaValues _ := none

/-- The value of a column that a choice of one row for each child gives. -/
def valueIn (choice : List (Row F)) (column : Nat × Nat) : Option (Value F) :=
  (valuesIn choice).schemaValues column.1 column.2

section

variable (session : Session F)

def Session.compute (choice : List (Row F)) (expr : Expression F) : Option (Value F) :=
  expr.compute session.f64 session.enums session.re2 (valuesIn choice)

def Session.holds (choice : List (Row F)) (expr : Expression F) : Bool :=
  expr.holds session.f64 session.enums session.re2 (valuesIn choice)

def Session.equal (key value : Value F) : Bool :=
  match evaluateBinary session.f64 session.enums .eq key value with
  | some (.boolean result) => result
  | _ => false

/-! ## Indexes -/

def Operator.columnNames : Operator F → List String
  | .scan schema _ | .select schema _ _ | .skinnerJoin schema _ _ => schema.map SchemaColumn.name
  | .scanSelect schema _ _ _ | .aggregate schema _ _ => schema.map VirtualColumn.name

def hasIndex (relation : Catalog.Table) (name : String) : Bool :=
  (relation.columns.find? fun column => column.name = name).any Catalog.Column.hasIndex

/-- The index of a column of a child. There is none for a scan without an index file. -/
def Operator.index (childIdx columnIdx : Nat) (op : Operator F) : Option (Index F) :=
  op.columnNames[columnIdx]?.bind fun name =>
    match op with
    | .scan _ relation => if hasIndex relation name then some (session.finds childIdx name) else none
    | _ => some (session.finds childIdx name)

def indexOf (children : List (Operator F)) (column : Nat × Nat) : Option (Index F) :=
  children[column.1]?.bind (Operator.index session column.1 column.2)

/-! ## Equalities -/

/-- `IsEqualityPredicate`, with the two columns. -/
def equalityColumns : Expression F → Option ((Nat × Nat) × Nat × Nat)
  | .binary .eq left right => left.reference.bind fun left => right.reference.map fun right => (left, right)
  | _ => none

variable {columns : (Nat × Nat) × Nat × Nat} {condition : Expression F}

theorem eq_of_equalityColumns (h : equalityColumns condition = some columns) :
    ∃ leftType leftNullable rightType rightNullable,
      condition = .binary .eq (.columnRef leftType leftNullable columns.1.1 columns.1.2)
        (.columnRef rightType rightNullable columns.2.1 columns.2.2) := by
  unfold equalityColumns at h
  split at h
  · rename_i left right
    obtain ⟨leftColumn, hLeft, hRest⟩ := Option.bind_eq_some_iff.mp h
    obtain ⟨rightColumn, hRight, rfl⟩ := Option.map_eq_some_iff.mp hRest
    cases left <;> cases hLeft
    cases right <;> cases hRight
    exact ⟨_, _, _, _, rfl⟩
  · cases h

theorem references_of_equalityColumns (h : equalityColumns condition = some columns) :
    condition.references = [columns.1, columns.2] := by
  obtain ⟨leftType, leftNullable, rightType, rightNullable, rfl⟩ := eq_of_equalityColumns h
  rfl

theorem compute_of_equalityColumns (choice : List (Row F)) (h : equalityColumns condition = some columns) :
    session.compute choice condition =
      (valueIn choice columns.1).bind fun left => (valueIn choice columns.2).bind fun right =>
        evaluateBinary session.f64 session.enums .eq left right := by
  obtain ⟨leftType, leftNullable, rightType, rightNullable, rfl⟩ := eq_of_equalityColumns h
  refine Expression.compute_binary ?_ ?_ _ _
  · exact BinaryArithmeticExpressionType.noConfusion
  · exact BinaryArithmeticExpressionType.noConfusion

/-- The column of the table itself, and the one whose value is looked up. -/
def sidesAt (table : Nat) (columns : (Nat × Nat) × Nat × Nat) : (Nat × Nat) × Nat × Nat :=
  if columns.1.1 = table then columns else columns.swap

/-- The last of the two tables in the order. -/
def lastOf (order : List Nat) (columns : (Nat × Nat) × Nat × Nat) : Nat :=
  if order.idxOf columns.1.1 < order.idxOf columns.2.1 then columns.2.1 else columns.1.1

section

variable (index : Nat × Nat → Option (Index F)) (inputs : List (List (Row F))) (conditions : List (Expression F))

/-- The lookup of an equality finds the row that was chosen. -/
def found (choice : List (Row F)) (condition : Expression F) : Bool :=
  match equalityColumns condition with
  | none => true
  | some columns =>
    let (own, other) := sidesAt (lastOf session.order columns) columns
    match index own, valueIn choice other, valueIn choice own with
    | some finds, some key, some value => finds key value
    | _, _, _ => false

/-- The function of the last of its tables lets the row that was chosen pass a condition. -/
def passesCondition (choice : List (Row F)) (condition : Expression F) : Bool :=
  session.holds choice condition && found session index choice condition

/-- The index has a bucket for the key. -/
def hasBucket (own : Nat × Nat) (key : Value F) : Bool :=
  (inputs.getD own.1 []).any fun row =>
    match index own, row.getD own.2 none with
    | some finds, some value => finds key value && session.equal key value
    | _, _ => false

/-- The number of buckets that the function of a table pushes. It returns at a value that is NULL, and after the push of
a bucket that does not exist. -/
def pushedBuckets (table : Nat) (choice : List (Row F)) : List (Expression F) → Nat
  | [] => 0
  | condition :: conditions =>
    match equalityColumns condition with
    | none => pushedBuckets table choice conditions
    | some columns =>
      let (own, other) := sidesAt table columns
      match valueIn choice other with
      | none => 0
      | some key => if hasBucket session index inputs own key then pushedBuckets table choice conditions + 1 else 1

def shouldExecute (table : Nat) (before : List Nat) (condition : Expression F) : Bool :=
  table ∈ condition.referencedChildren ∧ ∀ other ∈ condition.referencedChildren, other = table ∨ other ∈ before

/-- With some rows of the first tables, which have passed their conditions, the function of the next table pushes more
buckets than there are predicate columns. -/
def overflows : Bool :=
  (List.range session.order.length).any fun position =>
    let before := session.order.take position
    let table := session.order.getD position 0
    let due := ((session.lookups (List.range conditions.length)).filterMap (conditions[·]?)).filter
      (shouldExecute table before)
    inputs.sections.any fun choice =>
      (conditions.all fun condition =>
        condition.referencedChildren.any (· ∉ before) || condition.referencedChildren = [] ||
          passesCondition session index choice condition) &&
      decide ((conditions.flatMap Expression.references).dedup.length < pushedBuckets session index inputs table choice due)

/-- The conditions that mention a table. -/
def executedOf : List (Expression F) :=
  conditions.filter fun condition => condition.referencedChildren ≠ []

/-- The join can be translated. There is no translation for a column without an index. Nothing is said about an equality
within one table, which is looked up with the value of an earlier row: the planner makes no condition of a join of it. -/
def translates : Bool :=
  ((conditions.flatMap Expression.references).all fun column => (index column).isSome) &&
    (executedOf conditions).all fun condition =>
      condition.isPredicate && (equalityColumns condition).all fun columns => columns.1.1 ≠ columns.2.1

/-- The choices of a row of each input that a Skinner join hands to its parent. An empty input ends the join before it
starts. A condition without tables is never executed by the compiled functions, and the permutable functions fail to
find a flag for it, which the hybrid translator uses for the first episodes of an order. -/
def skinnerJoinChoices : Option (List (List (Row F))) :=
  if translates index conditions then
    if inputs.any List.isEmpty then some []
    else if session.engine ≠ .recompile ∧ (executedOf conditions).length < conditions.length then none
    else if overflows session index inputs conditions then none
    else some (inputs.sections.filter fun choice => (executedOf conditions).all (passesCondition session index choice))
  else none

end

/-- What a Skinner join that runs hands out. -/
theorem skinnerJoinChoices_eq_some {session : Session F} {index : Nat × Nat → Option (Index F)}
    {inputs choices : List (List (Row F))} {conditions : List (Expression F)} :
    skinnerJoinChoices session index inputs conditions = some choices ↔
      translates index conditions = true ∧
      ([] ∈ inputs ∨ (session.engine = .recompile ∨ conditions.length ≤ (executedOf conditions).length) ∧
        overflows session index inputs conditions = false) ∧
      choices = inputs.sections.filter fun choice =>
        (executedOf conditions).all (passesCondition session index choice) := by
  have hEmpty : inputs.any List.isEmpty = true ↔ [] ∈ inputs := by simp [List.any_eq_true]
  rw [skinnerJoinChoices]
  split
  · rename_i hTranslates
    rw [eq_true hTranslates, true_and]
    split
    · rename_i hNil
      rw [Choices.sections_of_nil_mem (hEmpty.mp hNil), List.filter_nil, Option.some.injEq, eq_comm (a := [])]
      exact (and_iff_right (.inl (hEmpty.mp hNil))).symm
    · rename_i hNil
      rw [hEmpty] at hNil
      split
      · rename_i hFlags
        refine iff_of_false nofun ?_
        rintro ⟨hNone | ⟨hEngine | hLength, -⟩, -⟩
        · exact hNil hNone
        · exact hFlags.1 hEngine
        · exact absurd hFlags.2 (Nat.not_lt.mpr hLength)
      · rename_i hFlags
        have hReady : session.engine = .recompile ∨ conditions.length ≤ (executedOf conditions).length := by
          by_contra hNot
          rw [not_or, Nat.not_le] at hNot
          exact hFlags hNot
        split
        · rename_i hOverflows
          refine iff_of_false nofun ?_
          rintro ⟨hNone | ⟨-, hRoom⟩, -⟩
          · exact hNil hNone
          · rw [hRoom] at hOverflows
            cases hOverflows
        · rename_i hRoom
          rw [Option.some.injEq, eq_comm]
          exact (and_iff_right (.inr ⟨hReady, eq_false_of_ne_true hRoom⟩)).symm
  · rename_i hTranslates
    exact iff_of_false nofun fun h => hTranslates h.1

/-! ## The rows of a planned source -/

def Input.rows : Input F → Option (List (Row F))
  | .scan table => some (session.contents table.name)
  | .select table expr =>
    if expr.isPredicate then some ((session.contents table.name).filter fun row => session.holds [row] expr) else none

def Source.rows : Source F → Option (List (Row F))
  | .single input => input.rows session
  | .skinnerJoin children conditions =>
    (children.mapM (Input.rows session)).bind fun inputs =>
      (skinnerJoinChoices session (indexOf session (children.map Input.operator)) inputs conditions).map fun choices =>
        choices.map List.flatten

end

end KushDB.Planner
