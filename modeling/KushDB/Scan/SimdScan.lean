import KushDB.Execution.SplitPipeline
import KushDB.Library.Lanes
import KushDB.Library.While
import KushDB.Plan.Expression

/-! # The SIMD scan

A `SimdScanSelectOperator` filters the columns of a table by comparisons with literals. Its translator emits a loop
that fills a buffer with the numbers of the rows to select and then hands them out: eight rows at a time through a
mask while eight rows are left and fit into the buffer, and one at a time within the last eight rows.
-/

namespace KushDB.Scan

open Execution Lanes Plan While

structure PlanFilter (F : Type) where
  op : BinaryArithmeticExpressionType
  literal : Value F
  null : Bool

structure PlanColumn (F : Type) where
  type : SqlType
  nullable : Bool
  filters : List (PlanFilter F)
  data : List Int

inductive CompType
  | eq
  | ne
  | lt
  | le
  | gt
  | ge
deriving DecidableEq, Repr

structure Filter where
  comp : CompType
  value : Int
deriving DecidableEq, Repr

/-- A column's content, encoded in 32 bits, and what it is compared with. -/
structure Column where
  data : List Int
  filters : List Filter

/-! ## Translation -/

section Translation

variable {F : Type}

def checkColumn (column : PlanColumn F) : Except String Unit :=
  if column.filters.isEmpty then .ok ()
  else match column.type with
    | .int | .date => if column.nullable then .error "Invalid null column type for SIMD Scan" else .ok ()
    | .enum _ => .ok ()
    | _ => .error "Invalid column type for SIMD Scan"

def literalValue (literal : Value F) (null : Bool) : Except String Int :=
  match literal with
  | .int value | .date value | .enum _ value =>
    if null then .error "Invalid literal for SIMD Select" else .ok value
  | _ => .error "Invalid literal for SIMD Select"

def compType : BinaryArithmeticExpressionType → Except String CompType
  | .eq => .ok .eq
  | .neq => .ok .ne
  | .lt => .ok .lt
  | .leq => .ok .le
  | .gt => .ok .gt
  | .geq => .ok .ge
  | _ => .error "Invalid filter type for SIMD Scan/Select"

def translateFilter (filter : PlanFilter F) : Except String Filter := do
  let value ← literalValue filter.literal filter.null
  let comp ← compType filter.op
  return ⟨comp, value⟩

def translateColumn (column : PlanColumn F) : Except String Column :=
  (column.filters.mapM translateFilter).map (Column.mk column.data)

def translate (columns : List (PlanColumn F)) : Except String (List Column) := do
  columns.forM checkColumn
  let translated ← columns.mapM translateColumn
  if translated.all (·.filters.isEmpty) then throw "bad optional access" else return translated

end Translation

/-! ## One row and eight rows -/

def CompType.compare : CompType → Int → Int → Bool
  | .eq, left, right => left = right
  | .ne, left, right => left ≠ right
  | .lt, left, right => left < right
  | .le, left, right => left ≤ right
  | .gt, left, right => right < left
  | .ge, left, right => right ≤ left

def Filter.holds (filter : Filter) (data : Int) : Bool := filter.comp.compare data filter.value

/-- An element of a column. There is nothing to load outside of it. -/
def load (data : List Int) (idx : Int) : Option Int := if idx < 0 then none else data[idx.toNat]?

def simdLoad (data : List Int) (idx : Int) : Option (Fin 8 → Int) :=
  if ∀ lane : Fin 8, (load data (idx + lane)).isSome then some fun lane => (load data (idx + lane)).getD 0 else none

/-- Whether a row passes every filter, whichever way the filters are to be combined. -/
def passes : List Column → Int → Option Bool
  | [], _ => some true
  | column :: columns, tupleIdx =>
    if column.filters.isEmpty then passes columns tupleIdx
    else (load column.data tupleIdx).bind fun data =>
      if column.filters.all (·.holds data) then passes columns tupleIdx else some false

def combine (conjunction : Bool) (mask : Option (Fin 8 → Bool)) (filterMask : Fin 8 → Bool) : Option (Fin 8 → Bool) :=
  match mask with
  | none => some filterMask
  | some mask => some fun lane => if conjunction then mask lane && filterMask lane else mask lane || filterMask lane

def simdMask (conjunction : Bool) (tupleIdx : Int) :
    List Column → Option (Fin 8 → Bool) → Option (Option (Fin 8 → Bool))
  | [], mask => some mask
  | column :: columns, mask =>
    if column.filters.isEmpty then simdMask conjunction tupleIdx columns mask
    else (simdLoad column.data tupleIdx).bind fun data =>
      simdMask conjunction tupleIdx columns
        (column.filters.foldl (fun mask filter => combine conjunction mask fun lane => filter.holds (data lane)) mask)

/-! ## The loops -/

def bufferSize : Nat := 64

/-- The loop variables of the inner loops, and the buffer they fill. -/
structure Fill where
  tupleIdx : Int
  size : Nat
  buffer : Vector Int bufferSize

def manualStep (columns : List Column) (fill : Fill) : Option Fill :=
  (passes columns fill.tupleIdx).bind fun pass =>
    if pass then
      (storeAll fill.buffer fill.size [fill.tupleIdx]).map fun buffer => ⟨int32 (fill.tupleIdx + 1), fill.size + 1, buffer⟩
    else some { fill with tupleIdx := int32 (fill.tupleIdx + 1) }

def manualLoop (columns : List Column) (last : Int) (rounds : Nat) (fill : Fill) : Option Fill :=
  whileLoop (fun fill => fill.tupleIdx ≤ last) (manualStep columns) rounds fill

def simdStep (conjunction : Bool) (columns : List Column) (fill : Fill) : Option Fill :=
  (simdMask conjunction fill.tupleIdx columns none).bind fun mask =>
    mask.bind fun mask =>
      let extractedMask := Nat.ofBits mask
      let popcount := popcount 64 extractedMask
      let idx := fun lane : Fin 8 => int32 (fill.tupleIdx + lane)
      (maskStore fill.buffer fill.size ((tableEntry 8 extractedMask).map idx) popcount).map fun buffer =>
        ⟨int32 (fill.tupleIdx + 8), fill.size + popcount, buffer⟩

def simdLoop (conjunction : Bool) (columns : List Column) (last : Int) (rounds : Nat) (fill : Fill) : Option Fill :=
  whileLoop (fun fill => fill.size ≤ bufferSize - 8 ∧ fill.tupleIdx ≤ int32 (last - 7)) (simdStep conjunction columns)
    rounds fill

/-- The output loop hands out what the buffer was filled with. -/
def outputLoop (fill : Fill) (rounds : Nat) : Option (Nat × List Int) :=
  whileLoop (fun (bufferIdx, _) => bufferIdx < fill.size)
    (fun (bufferIdx, emitted) => fill.buffer[bufferIdx]?.map fun tupleIdx => (bufferIdx + 1, emitted ++ [tupleIdx]))
    rounds (0, [])

structure ScanState where
  tupleIdx : Int
  buffer : Vector Int bufferSize
  emitted : List Int

def scanStep (conjunction : Bool) (columns : List Column) (last : Int) (rounds : Nat) (state : ScanState) :
    Option ScanState := do
  let start : Fill := ⟨state.tupleIdx, 0, state.buffer⟩
  let fill ← if int32 (last - 7) ≤ state.tupleIdx then manualLoop columns last rounds start
    else simdLoop conjunction columns last rounds start
  let (_, output) ← outputLoop fill rounds
  return ⟨fill.tupleIdx, fill.buffer, state.emitted ++ output⟩

/-- The rows that the scan of a chunk hands to its parent, each loop being given a number of rounds. -/
def produce (conjunction : Bool) (columns : List Column) (start last : Int) (buffer : Vector Int bufferSize)
    (rounds : Nat) : Option (List Int) :=
  (whileLoop (fun state : ScanState => state.tupleIdx ≤ last) (scanStep conjunction columns last rounds) rounds
    ⟨start, buffer, []⟩).map ScanState.emitted

end KushDB.Scan
