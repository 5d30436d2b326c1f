import KushDB.Skinner.JoinState
import KushDB.Skinner.Permutable
import Mathlib.Data.Rat.Defs

/-! # Episodes

`PermutableJoinEnvironment::Execute` runs one join order on a budget: it resumes where the join state says the order
stands, calls the wired table functions, works out the last completed tuple from where they stopped and
updates the join state with it. Any sequence of join orders that start with the `PrefixOrder` may be executed.
-/

namespace KushDB.Skinner

open Loops Odometer

section

variable {n : Nat}

/-- The tuple up to the table the functions stopped at, completed by the last rows of the other tables or,
if they stopped at a row that passes, stepped back from its first completion. -/
def computeLastCompletedTuple (cardinality : Fin n → Int) (order : List (Fin n)) (status : Int) (tableCtr : Fin n)
    (idxArr : Fin n → Int) : List Int :=
  let reached := (order.map idxArr).take (if tableCtr ∈ order then order.idxOf tableCtr + 1 else 0)
  let shouldDecrement := status = -2
  if shouldDecrement then (back (order.map cardinality) (low (order.map cardinality) reached)).1
  else high (order.map cardinality) reached

def rewardProgress (cardinality offset : Fin n → Int) : List (Fin n × Int × Int) → Rat → Rat
  | [], _ => 0
  | (table, initial, final) :: rest, outerWeight =>
    let weight := outerWeight * (1 / ((cardinality table - offset table : Int) : Rat))
    let start := max (offset table) initial
    let last := max (offset table) final
    ((last - start : Int) : Rat) * weight + rewardProgress cardinality offset rest weight

def reward (cardinality offset : Fin n → Int) (order : List (Fin n)) (initial final : List Int)
    (numResultTuples budgetPerEpisode : Int) : Rat :=
  1 / 2 * rewardProgress cardinality offset (order.zip (initial.zip final)) 1 +
    1 / 2 * (numResultTuples : Rat) / (budgetPerEpisode : Rat)

variable {V : Type}

def setResumeProgress (order : List (Fin n)) (firstTable : Fin n) (lastCompletedTuple : List Int)
    (offset : Fin n → Int) (g : Globals n V) : Globals n V :=
  { g with
    progressArr := fun table => max (offset table) (assign order lastCompletedTuple table)
    offsetArr := offset
    tableCtr := firstTable
    sink := { g.sink with numResultTuples := 0 } }

structure PermutableState (n : Nat) (V : Type) where
  join : JoinState n
  wiring : Wiring n
  globals : Globals n V

variable [DecidableEq V] (q : Query n V) (hash : HashOrder n) (budgetPerEpisode : Int)

/-- The reward is computed with the offsets as they are after the update. -/
def execute (order : List (Fin n)) (state : PermutableState n V) : Except JoinError (Rat × PermutableState n V) :=
  let initial := state.join.getLastCompletedTupleIdx q.cardinality order
  let initialTuple := initial.getD (order.map fun _ => -1)
  match wireOrder q hash order state.wiring, order.head? with
  | .error error, _ => .error error
  | .ok _, none => .error .stuck
  | .ok wiring, some firstTable =>
    let globals := setResumeProgress order firstTable initialTuple state.join.offset state.globals
    match permutableFunction q hash wiring order budgetPerEpisode initial.isSome globals with
    | none => .error .stuck
    | some (status, globals) =>
      let final := computeLastCompletedTuple q.cardinality order status globals.tableCtr globals.idxArr
      (state.join.update q.cardinality order final).map fun join =>
        (reward q.cardinality join.offset order initialTuple final globals.sink.numResultTuples budgetPerEpisode,
          ⟨join, wiring, globals⟩)

/-- The states that sequences of episodes reach without an exception. -/
inductive Reached : PermutableState n V → Prop
  | start (wiring : Wiring n) (globals : Globals n V) (hHanded : globals.sink.handed = [])
      (hOutput : globals.sink.output = []) : Reached ⟨.initial, wiring, globals⟩
  | episode {state next : PermutableState n V} (order : JoinOrder n) (episodeReward : Rat)
      (hPrefix : q.prefixOrder <+: order.tables) (hState : Reached state)
      (hExecute : execute q hash budgetPerEpisode order.tables state = .ok (episodeReward, next)) : Reached next

end

end KushDB.Skinner
