import Mathlib.Algebra.Order.Field.Basic
import Mathlib.Data.List.Perm.Subperm
import Mathlib.Data.List.Range

/-! # The UCT agent

`UctJoinAgent` grows a tree of join order prefixes. A node hands out each of its recommended actions once before it
scores them, and the part of an order below the tree is played out at random. Random numbers, shuffles and rewards
are inputs of a turn: the nodes of one walk down the tree draw at most one number each, and at most one of them shuffles.
-/

namespace KushDB.Skinner

open List

/-- Where the agent cannot go on. Dividing by a number of tries that is zero counts as an error here, and so does a
counter that overflows. -/
inductive AgentError
  | noRecommendedActions
  | divisionByZero
  | noBestAction
  | tooDeep
  | counterOverflow
deriving DecidableEq, Repr

/-- The largest `int`. -/
def maxInt : Nat := 2 ^ 31 - 1

/-- `EXPLORATION_WEIGHT_` and the exploration term for a number of visits and tries. -/
structure Scoring (K : Type) [Field K] [LinearOrder K] where
  weight : K
  exploration : Nat → Nat → K
  nonneg : ∀ visits tries, 1 ≤ visits → 1 ≤ tries → 0 ≤ weight * exploration visits tries

/-- What one turn of the agent meets: the number that the node at each tree level draws, the shuffle of a playout
and the reward of the episode. -/
structure Turn (K : Type) [Field K] [LinearOrder K] where
  number : Nat → Nat
  shuffle : List Nat → List Nat
  reward : K
  shuffle_perm : ∀ tables, (shuffle tables).Perm tables
  reward_nonneg : 0 ≤ reward

/-- The visits and the tries are counted in `int`s, and are checked where they are incremented. -/
structure NodeStats (K : Type) where
  createdIn : Nat
  numActions : Nat
  priorityActions : List Nat
  numVisits : Nat
  numTriesPerAction : Nat → Nat
  accRewardPerAction : Nat → K
  joinedTables : List Nat
  recommendedActions : List Nat
  unjoinedTables : List Nat
  tablePerAction : List Nat

inductive UctNode (K : Type)
  | null
  | node (stats : NodeStats K) (childNodes : Nat → UctNode K)

section

variable {K : Type} [Field K] [LinearOrder K]

/-- The connections of an environment, seen from a set of joined tables. -/
def isConnected (connections : Nat → Nat → Bool) (joinedTables : List Nat) (table : Nat) : Bool :=
  joinedTables.any fun joined => connections joined table

def NodeStats.root (roundCtr numTables : Nat) (alreadyJoined : List Nat) : NodeStats K :=
  let numActions := numTables - alreadyJoined.length
  let joinedTables := alreadyJoined.foldl (fun joined table => joined.insert table) []
  let unjoinedTables := (List.range numTables).filter fun table => table ∉ joinedTables
  { createdIn := roundCtr
    numActions := numActions
    priorityActions := List.range numActions
    numVisits := 0
    numTriesPerAction := fun _ => 0
    accRewardPerAction := fun _ => 0
    joinedTables := joinedTables
    recommendedActions := List.range numActions
    unjoinedTables := unjoinedTables
    tablePerAction := unjoinedTables }

def NodeStats.child (connections : Nat → Nat → Bool) (roundCtr : Nat) (parent : NodeStats K) (joinedTable : Nat) :
    NodeStats K :=
  let numActions := parent.numActions - 1
  let joinedTables := parent.joinedTables.insert joinedTable
  let unjoinedTables := parent.unjoinedTables.erase joinedTable
  let connected := (List.range numActions).filter fun action =>
    isConnected connections joinedTables (unjoinedTables.getD action 0)
  let recommendedActions := if connected.isEmpty then List.range numActions else connected
  { createdIn := roundCtr
    numActions := numActions
    priorityActions := (List.range numActions).filter fun action => action ∈ recommendedActions
    numVisits := 0
    numTriesPerAction := fun _ => 0
    accRewardPerAction := fun _ => 0
    joinedTables := joinedTables
    recommendedActions := recommendedActions
    unjoinedTables := unjoinedTables
    tablePerAction := unjoinedTables }

/-- One round of the loop over the actions, with the best action so far and its quality. -/
def scoreAction (scoring : Scoring K) (stats : NodeStats K) (offset : Nat) (best : Option Nat × K) (actionIdx : Nat) :
    Except AgentError (Option Nat × K) :=
  let action := (offset + actionIdx) % stats.numActions
  if stats.recommendedActions.isEmpty then .error .noRecommendedActions
  else if action ∉ stats.recommendedActions then .ok best
  else if stats.numTriesPerAction action = 0 then .error .divisionByZero
  else
    let meanReward := stats.accRewardPerAction action / (stats.numTriesPerAction action : K)
    let quality := meanReward + scoring.weight * scoring.exploration stats.numVisits (stats.numTriesPerAction action)
    if best.2 < quality then .ok (some action, quality) else .ok best

def selectAction (scoring : Scoring K) (number : Nat) (stats : NodeStats K) : Except AgentError (Nat × NodeStats K) :=
  if stats.priorityActions ≠ [] then
    let actionIdx := number % stats.priorityActions.length
    .ok (stats.priorityActions.getD actionIdx 0,
      { stats with priorityActions := stats.priorityActions.eraseIdx actionIdx })
  else do
    let offset := number % stats.numActions
    let best ← (List.range stats.numActions).foldlM (scoreAction scoring stats offset) (none, -1)
    match best.1 with
    | none => .error .noBestAction
    | some action => .ok (action, stats)

def countersFull (action : Nat) (stats : NodeStats K) : Bool :=
  maxInt ≤ stats.numVisits ∨ maxInt ≤ stats.numTriesPerAction action

/-- The statistics after a reward, as long as the counters are not full. -/
def updateStatistics (action : Nat) (reward : K) (stats : NodeStats K) : NodeStats K :=
  { stats with
    numVisits := stats.numVisits + 1
    numTriesPerAction := Function.update stats.numTriesPerAction action (stats.numTriesPerAction action + 1)
    accRewardPerAction := Function.update stats.accRewardPerAction action (stats.accRewardPerAction action + reward) }

/-- The first table of the shuffled ones that is connected to the joined tables, or else the first unjoined one. -/
def nextTable (connections : Nat → Nat → Bool) (unjoined joined : List Nat) : Option Nat :=
  match unjoined.find? fun table => table ∉ joined ∧ isConnected connections joined table with
  | some table => some table
  | none => unjoined.find? fun table => table ∉ joined

/-- The positions that remain from `pos` on. -/
def playoutLoop (connections : Nat → Nat → Bool) (unjoined : List Nat) :
    Nat → Nat → List Nat → List Nat → List Nat
  | 0, _, _, order => order
  | remaining + 1, pos, joined, order =>
    match nextTable connections unjoined joined with
    | none => playoutLoop connections unjoined remaining (pos + 1) joined order
    | some table => playoutLoop connections unjoined remaining (pos + 1) (joined.insert table) (order.set pos table)

def playout (connections : Nat → Nat → Bool) (numTables : Nat) (shuffle : List Nat → List Nat) (stats : NodeStats K)
    (order : List Nat) : List Nat :=
  let pos := stats.joinedTables.length
  let lastTable := order.getD pos 0
  let unjoined := (List.range numTables).filter fun table => table ∉ stats.joinedTables ∧ table ≠ lastTable
  playoutLoop connections (shuffle unjoined) (numTables - (pos + 1)) (pos + 1) (stats.joinedTables.insert lastTable)
    order

/-- The order is returned as it is when the environment executes it. `depth` bounds the levels of the tree. -/
def sample (connections : Nat → Nat → Bool) (numTables : Nat) (scoring : Scoring K) (turn : Turn K) (roundCtr : Nat) :
    Nat → NodeStats K → (Nat → UctNode K) → List Nat → Except AgentError (UctNode K × List Nat)
  | 0, _, _, _ => .error .tooDeep
  | depth + 1, stats, childNodes, order =>
    if stats.numActions = 0 then .ok (.node stats childNodes, order)
    else do
      let (action, stats) ← selectAction scoring (turn.number stats.joinedTables.length) stats
      let table := stats.tablePerAction.getD action 0
      let order := order.set stats.joinedTables.length table
      let (childNodes, order) ← match childNodes action with
        | .node child grandChildNodes =>
          (sample connections numTables scoring turn roundCtr depth child grandChildNodes order).map fun (child, order) =>
            (Function.update childNodes action child, order)
        | .null =>
          let canExpand := stats.createdIn ≠ roundCtr
          if canExpand then
            let child := NodeStats.child connections roundCtr stats table
            (sample connections numTables scoring turn roundCtr depth child (fun _ => .null) order).map fun (child, order) =>
              (Function.update childNodes action child, order)
          else .ok (childNodes, playout connections numTables turn.shuffle stats order)
      if countersFull action stats then .error .counterOverflow
      else .ok (.node (updateStatistics action turn.reward stats) childNodes, order)

structure UctAgent (K : Type) where
  roundCtr : Nat
  nextForget : Nat
  root : UctNode K
  order : List Nat

def UctAgent.start (numTables : Nat) (joined : List Nat) : UctAgent K where
  roundCtr := 0
  nextForget := 10
  root := .node (.root 0 numTables joined) fun _ => .null
  order := joined ++ List.replicate (numTables - joined.length) 0

/-- The order executed and the agent afterwards. -/
def UctAgent.act (connections : Nat → Nat → Bool) (numTables : Nat) (scoring : Scoring K) (shouldForget : Bool)
    (joined : List Nat) (agent : UctAgent K) (turn : Turn K) : Except AgentError (List Nat × UctAgent K) :=
  let roundCtr := agent.roundCtr + 1
  if maxInt < roundCtr then .error .counterOverflow
  else match agent.root with
  | .null => .error .tooDeep
  | .node stats childNodes => do
    let (root, order) ← sample connections numTables scoring turn roundCtr (numTables + 1) stats childNodes agent.order
    -- Consider memory loss.
    if shouldForget ∧ roundCtr = agent.nextForget then
      .ok (order, ⟨roundCtr, agent.nextForget * 10, .node (.root roundCtr numTables joined) fun _ => .null, order⟩)
    else .ok (order, ⟨roundCtr, agent.nextForget, root, order⟩)

/-- The orders that a sequence of turns executes. -/
def UctAgent.acts (connections : Nat → Nat → Bool) (numTables : Nat) (scoring : Scoring K) (shouldForget : Bool)
    (joined : List Nat) : UctAgent K → List (Turn K) → Except AgentError (List (List Nat))
  | _, [] => .ok []
  | agent, turn :: turns => do
    let (order, next) ← agent.act connections numTables scoring shouldForget joined turn
    let orders ← UctAgent.acts connections numTables scoring shouldForget joined next turns
    .ok (order :: orders)

end

end KushDB.Skinner
