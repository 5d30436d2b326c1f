import KushDB.Compile.LessThan
import KushDB.Compile.Struct

/-! # Aggregators

An aggregate without groups keeps one entry for each aggregate expression. The first row initialises the entries and
every later one updates them; a flag tells whether there was a row at all. SUM, MIN, MAX and AVG may be NULL, COUNT
has a field without a flag for NULL. AVG keeps the mean of the values so far and how many they were.
-/

namespace KushDB.Plan

open Compile

variable {F : Type}

def AggregateType.nullable (aggType : AggregateType) : Bool := aggType ≠ .count

/-- The fields of one aggregate; only AVG uses the second one. -/
structure AggregateEntry (F : Type) where
  value : StructField (Value F)
  count : StructField (Value F)
deriving Repr

/-- The fields as `AddFields` adds them; what they hold at first is arbitrary. -/
structure AggregateEntry.For (aggType : AggregateType) (entry : AggregateEntry F) : Prop where
  value : entry.value.nullable = aggType.nullable
  count : entry.count.nullable = false

section

variable (f64 : Float64 F) (enums : EnumManager) (placeholder : Value F)

def toFloat : Value F → F
  | .real value => value
  | .smallInt value | .int value | .bigInt value => f64.ofInt value
  -- the constructor of the aggregate has thrown on every other type
  | _ => f64.zero

/-- Integers of the type of the column wrap around. -/
def sumValues : Value F → Value F → Value F
  | .smallInt left, .smallInt right => .smallInt ((left + right).bmod (2 ^ 16))
  | .int left, .int right => .int ((left + right).bmod (2 ^ 32))
  | .bigInt left, .bigInt right => .bigInt ((left + right).bmod (2 ^ 64))
  | .real left, .real right => .real (f64.add left right)
  | left, _ => left

def storeNext (entry : AggregateEntry F) (next : Option (Value F)) : AggregateEntry F :=
  { entry with value := entry.value.update placeholder next }

/-- A NULL changes nothing, the first value is stored, and any other is combined with the current one. -/
def updateWith (combine : Value F → Value F → AggregateEntry F) (entry : AggregateEntry F)
    (next : Option (Value F)) : AggregateEntry F :=
  match next, entry.value.get with
  | none, _ => entry
  | some value, none => storeNext placeholder entry (some value)
  | some value, some current => combine current value

variable {entry : AggregateEntry F}

theorem updateWith_first (combine : Value F → Value F → AggregateEntry F) (value : Value F) (h : entry.value.get = none) :
    updateWith placeholder combine entry (some value) = storeNext placeholder entry (some value) := by
  simp [updateWith, h]

theorem updateWith_later (combine : Value F → Value F → AggregateEntry F) (value : Value F) {current : Value F}
    (h : entry.value.get = some current) :
    updateWith placeholder combine entry (some value) = combine current value := by
  simp [updateWith, h]

def SumAggregator.update (entry : AggregateEntry F) (next : Option (Value F)) : AggregateEntry F :=
  updateWith placeholder (fun current value => storeNext placeholder entry (some (sumValues f64 current value))) entry
    next

def MinMaxAggregator.update (min : Bool) (entry : AggregateEntry F) (next : Option (Value F)) : AggregateEntry F :=
  updateWith placeholder
    (fun current value =>
      if (if min then lessThanValue f64 enums value current else lessThanValue f64 enums current value) then
        storeNext placeholder entry (some value)
      else entry)
    entry next

def AverageAggregator.initialise (entry : AggregateEntry F) (next : Option (Value F)) : AggregateEntry F where
  value := entry.value.update placeholder (next.map fun value => .real (toFloat f64 value))
  count := entry.count.update placeholder (some (.real (f64.ofInt 1)))

def AverageAggregator.update (entry : AggregateEntry F) (next : Option (Value F)) : AggregateEntry F :=
  updateWith placeholder
    (fun current value =>
      let cma := toFloat f64 current
      let nextRecordCount := f64.add (toFloat f64 entry.count.value) (f64.ofInt 1)
      let nextCma := f64.add cma (f64.div (f64.sub (toFloat f64 value) cma) nextRecordCount)
      { value := entry.value.update placeholder (some (.real nextCma))
        count := entry.count.update placeholder (some (.real nextRecordCount)) })
    entry (next.map fun value => .real (toFloat f64 value))

/-- The first row is counted whatever its value is. -/
def CountAggregator.initialise (entry : AggregateEntry F) : AggregateEntry F :=
  storeNext placeholder entry (some (.bigInt 1))

def CountAggregator.update (entry : AggregateEntry F) (next : Option (Value F)) : AggregateEntry F :=
  match next with
  | none => entry
  | some _ => storeNext placeholder entry (some (.bigInt ((entry.value.value.number + 1).bmod (2 ^ 64))))

def AggregateType.initialise (aggType : AggregateType) (entry : AggregateEntry F) (next : Option (Value F)) :
    AggregateEntry F :=
  match aggType with
  | .sum | .min | .max => storeNext placeholder entry next
  | .avg => AverageAggregator.initialise f64 placeholder entry next
  | .count => CountAggregator.initialise placeholder entry

def AggregateType.update (aggType : AggregateType) (entry : AggregateEntry F) (next : Option (Value F)) :
    AggregateEntry F :=
  match aggType with
  | .sum => SumAggregator.update f64 placeholder entry next
  | .min => MinMaxAggregator.update f64 enums placeholder true entry next
  | .max => MinMaxAggregator.update f64 enums placeholder false entry next
  | .avg => AverageAggregator.update f64 placeholder entry next
  | .count => CountAggregator.update placeholder entry next

/-- The value after the first row and the others. -/
def AggregateType.fold (aggType : AggregateType) (entry : AggregateEntry F) (first : Option (Value F))
    (rest : List (Option (Value F))) : Option (Value F) :=
  (rest.foldl (aggType.update f64 enums placeholder) (aggType.initialise f64 placeholder entry first)).value.get

/-! ## The aggregate operator -/

variable {Row : Type}

structure AggregateExpression (F Row : Type) where
  aggType : AggregateType
  child : Row → Option (Value F)

structure AggregateState (F : Type) where
  empty : Int
  entries : List (AggregateEntry F)

def AggregateTranslator.consume (aggregators : List (AggregateExpression F Row)) (state : AggregateState F)
    (row : Row) : AggregateState F :=
  if state.empty = 0 then
    ⟨1, List.zipWith (fun agg entry => agg.aggType.initialise f64 placeholder entry (agg.child row)) aggregators
      state.entries⟩
  else
    ⟨state.empty, List.zipWith (fun agg entry => agg.aggType.update f64 enums placeholder entry (agg.child row))
      aggregators state.entries⟩

/-- The virtual columns of the result, one for each aggregate. Without a row all columns are NULL. -/
def AggregateTranslator.produce (aggregators : List (AggregateExpression F Row)) (entries : List (AggregateEntry F))
    (rows : List Row) : List (Option (Value F)) :=
  let state := rows.foldl (consume f64 enums placeholder aggregators) ⟨0, entries⟩
  if state.empty = 0 then aggregators.map fun _ => none else state.entries.map fun entry => entry.value.get

end

end KushDB.Plan
