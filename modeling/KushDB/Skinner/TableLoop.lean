import KushDB.Skinner.Levels
import Mathlib.Data.Fintype.Pi

/-! # The loops of a table function

The permutable, the recompiling and the hybrid translator emit the same loops for a table; they differ in
how they find the conditions to check and the function to call for a row that passes.
`rowLoop`, `scanLoop` and `indexLoop` take these two as arguments. A table function returns the budget it
has left, -1 when the budget ran out at a row that does not pass and -2 when it ran out at one that does.
-/

namespace KushDB.Skinner

open Loops

/-- What the valid-tuple handler was called with, what it passed on to the parent operator after
`TupleIdxTable::Insert`, and how often it was called in this episode. -/
structure Sink (n : Nat) where
  handed : List (Fin n → Int)
  output : List (Fin n → Int)
  numResultTuples : Int

/-- The globals of the generated program. Columns that no condition mentions are in no predicate struct,
and nothing reads them here. -/
structure Globals (n : Nat) (V : Type) where
  idxArr : Fin n → Int
  tableCtr : Fin n
  sink : Sink n
  progressArr : Fin n → Int
  offsetArr : Fin n → Int
  predicateStruct : ColRef n → Option V

inductive Exit (S : Type)
  | returned (status : Int) (state : S)
  | finished (budget : Int) (state : S)

def Exit.result {S : Type} : Exit S → Int × S
  | .returned status state => (status, state)
  | .finished budget state => (budget, state)

section

variable {n : Nat} {V : Type}

def Sink.insert (tuple : Fin n → Int) (sink : Sink n) : Sink n where
  handed := sink.handed ++ [tuple]
  output := if tuple ∈ sink.output then sink.output else sink.output ++ [tuple]
  numResultTuples := sink.numResultTuples + 1

def validTupleHandler (budget : Int) (g : Globals n V) : Int × Globals n V :=
  (budget, { g with sink := g.sink.insert g.idxArr })

/-- The row is read into the predicate struct before the next table is called. -/
def Query.publish (q : Query n V) (table : Fin n) (row : Int) (g : Globals n V) : Globals n V :=
  { g with predicateStruct := q.withRow table row g.predicateStruct }

def Globals.storeIdx (g : Globals n V) (table : Fin n) (row : Int) : Globals n V :=
  { g with idxArr := Function.update g.idxArr table row }

def Globals.stopAt (g : Globals n V) (table : Fin n) : Globals n V := { g with tableCtr := table }

def initialNextTuple (table : Fin n) (resumeProgress : Bool) (g : Globals n V) : Int :=
  max (g.offsetArr table + 1) (if resumeProgress then g.progressArr table else 0)

/-- The way out when an equality has no rows. -/
def Query.leaveTable (q : Query n V) (table : Fin n) (initialBudget : Int) (g : Globals n V) : Int × Globals n V :=
  let budget := initialBudget - 1
  if budget = 0 then
    (-1, (g.storeIdx table (q.cardinality table - 1)).stopAt table)
  else (budget, g)

variable (q : Query n V) (table : Fin n) (passes : Globals n V → Int → Bool)
  (handler : Int → Bool → Globals n V → Option (Int × Globals n V))

def rowLoop : List Int → Int → Bool → Globals n V → Option (Exit (Globals n V))
  | [], budget, _, g => some (.finished budget g)
  | nextTuple :: rows, lastBudget, resumeProgress, g =>
    let budget := lastBudget - 1
    let g := g.storeIdx table nextTuple
    if passes g nextTuple then
      if budget = 0 then some (.returned (-2) (g.stopAt table))
      else
        match handler budget resumeProgress (q.publish table nextTuple g) with
        | none => none
        | some (nextBudget, g) =>
          if nextBudget < 0 then some (.returned nextBudget g) else rowLoop rows nextBudget false g
    else if budget = 0 then some (.returned (-1) (g.stopAt table))
    else rowLoop rows budget false g

def scanLoop (initialBudget : Int) (resumeProgress : Bool) (g : Globals n V) : Option (Exit (Globals n V)) :=
  let start := initialNextTuple table resumeProgress g
  rowLoop q table passes handler (scanRows start (q.cardinality table)) initialBudget
    (resumeProgress && start == g.progressArr table) g

/-- One batch of at most 64 rows after the other. There are never more batches than rows. -/
def batchLoop (resumeProgress : Bool) (progressNextTuple : Int) :
    Nat → List Int → Int → Globals n V → Option (Exit (Globals n V))
  | 0, _, budget, g => some (.finished budget g)
  | batches + 1, rows, budget, g =>
    match rows.take 64 with
    | [] => some (.finished budget g)
    | first :: batch =>
      match rowLoop q table passes handler (first :: batch) budget
        (resumeProgress && first == progressNextTuple) g with
      | some (.finished budget g) => batchLoop resumeProgress progressNextTuple batches (rows.drop 64) budget g
      | exit => exit

def indexLoop (buckets : List (List Int)) (initialBudget : Int) (resumeProgress : Bool) (g : Globals n V) :
    Option (Exit (Globals n V)) :=
  let rows := sortedIntersection buckets (initialNextTuple table resumeProgress g)
  batchLoop q table passes handler resumeProgress (if resumeProgress then g.progressArr table else 0)
    rows.length rows initialBudget g

/-- The body of a table function: look up the equalities, then loop over the common rows of their buckets
or over all rows. -/
def Query.tableBody [DecidableEq V] (values : ColRef n → Option V) (conditions : List (Condition n V))
    (useIndex : List (List Int) → Bool) (indexPasses : Globals n V → Int → Bool) (initialBudget : Int)
    (resumeProgress : Bool) (g : Globals n V) : Option (Int × Globals n V) :=
  match q.collectBuckets table values conditions with
  | none => some (q.leaveTable table initialBudget g)
  | some buckets =>
    (if useIndex buckets then indexLoop q table indexPasses handler buckets initialBudget resumeProgress g
      else scanLoop q table passes handler initialBudget resumeProgress g).map Exit.result

end

end KushDB.Skinner
