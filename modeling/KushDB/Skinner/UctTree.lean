import KushDB.Library.Fallible
import KushDB.Skinner.UctOrders
import Mathlib.Analysis.SpecialFunctions.Log.Basic
import Mathlib.Analysis.SpecialFunctions.Sqrt
import Mathlib.Tactic.Linarith

/-! # The agent only runs legal orders

A node of the tree stands for the tables joined on the way down to it. Its recommended actions are the connected ones,
and one that is no longer among the priority actions has been tried; so every walk down the tree
gets through, and the order it returns is complete and connected as far as it can be. No node is visited more often than
there were rounds, so the counter of the rounds is the first one to overflow.
-/

namespace KushDB.Skinner

open List

theorem getD_eq_getElem {actions : List Nat} {action : Nat} (h : action < actions.length) :
    actions.getD action 0 = actions[action] := by
  rw [getD_eq_getElem?_getD, getElem?_eq_getElem h, Option.getD_some]

section

variable {K : Type} [Field K] [LinearOrder K]

/-- What a node knows of its path, and what is known of its actions. From position `start` on, the recommended
actions follow the connections. -/
structure Sound (connections : Nat → Nat → Bool) (numTables start : Nat) (path : List Nat) (stats : NodeStats K) :
    Prop where
  joined : ∀ table, table ∈ stats.joinedTables ↔ table ∈ path
  joined_length : stats.joinedTables.length = path.length
  nodup : stats.unjoinedTables.Nodup
  unjoined : ∀ table, table ∈ stats.unjoinedTables ↔ table < numTables ∧ table ∉ path
  tablePerAction : stats.tablePerAction = stats.unjoinedTables
  numActions : stats.numActions = stats.unjoinedTables.length
  recommended_lt : ∀ action ∈ stats.recommendedActions, action < stats.numActions
  recommended_ne : 0 < stats.numActions → stats.recommendedActions ≠ []
  recommended_follows : start ≤ path.length → ∀ action ∈ stats.recommendedActions,
    (∃ other, other < numTables ∧ other ∉ path ∧ isConnected connections path other = true) →
      isConnected connections path (stats.tablePerAction.getD action 0) = true
  priority : ∀ action ∈ stats.priorityActions, action ∈ stats.recommendedActions
  tried : ∀ action ∈ stats.recommendedActions, action ∈ stats.priorityActions ∨ 1 ≤ stats.numTriesPerAction action
  tries_le : ∀ action, stats.numTriesPerAction action ≤ stats.numVisits
  reward_nonneg : ∀ action, 0 ≤ stats.accRewardPerAction action

variable {connections : Nat → Nat → Bool} {numTables start : Nat} {path : List Nat} {stats : NodeStats K}

theorem foldl_insert_reverse {tables acc : List Nat} (hNodup : tables.Nodup) (hFresh : ∀ table ∈ tables, table ∉ acc) :
    tables.foldl (fun joined table => joined.insert table) acc = tables.reverse ++ acc := by
  induction tables generalizing acc with
  | nil => rfl
  | cons table tables ih =>
    obtain ⟨hTable, hRest⟩ := nodup_cons.mp hNodup
    rw [foldl_cons, insert_of_not_mem (hFresh table mem_cons_self), ih hRest]
    · simp
    · intro other hOther hIn
      rcases mem_cons.mp hIn with rfl | hOld
      · exact hTable hOther
      · exact hFresh other (mem_cons_of_mem _ hOther) hOld

omit [LinearOrder K] in
theorem root_joined (hNodup : path.Nodup) (roundCtr : Nat) :
    (NodeStats.root roundCtr numTables path : NodeStats K).joinedTables = path.reverse := by
  exact (foldl_insert_reverse hNodup (by simp)).trans (append_nil _)

theorem sound_root (hPath : JoinedPath numTables path) (roundCtr : Nat) (hStart : path.length < start) :
    Sound connections numTables start path (NodeStats.root roundCtr numTables path : NodeStats K) := by
  have hJoined := @root_joined K _ numTables path hPath.nodup roundCtr
  have hUnjoined : (NodeStats.root roundCtr numTables path : NodeStats K).unjoinedTables =
      (List.range numTables).filter (· ∉ path) := by
    rw [show (NodeStats.root roundCtr numTables path : NodeStats K).unjoinedTables = (List.range numTables).filter
      (· ∉ (NodeStats.root roundCtr numTables path : NodeStats K).joinedTables) from rfl, hJoined]
    simp
  have hCount : numTables - path.length = ((List.range numTables).filter (· ∉ path)).length := by
    have hSplit := length_eq_length_filter_add (l := List.range numTables) (· ∈ path)
    have hPerm : ((List.range numTables).filter (· ∈ path)).Perm path :=
      (perm_ext_iff_of_nodup (nodup_range.filter _) hPath.nodup).mpr fun table => by
        simpa using hPath.lt table
    rw [length_range, hPerm.length_eq] at hSplit
    simp only [decide_not] at hSplit ⊢
    omega
  refine ⟨fun table => by rw [hJoined, mem_reverse], by rw [hJoined, length_reverse],
    by rw [hUnjoined]; exact nodup_range.filter _, fun table => by rw [hUnjoined]; simp, rfl,
    by rw [hUnjoined]; exact hCount, fun action hAction => mem_range.mp hAction, fun hActions => ?_,
    fun hLe => absurd hLe (by omega), fun action hAction => hAction, fun action hAction => Or.inl hAction,
    fun action => le_rfl, fun action => le_rfl⟩
  exact ne_nil_of_mem (mem_range.mpr hActions)

omit [LinearOrder K] in
/-- A child takes over nothing that the selection has changed. -/
theorem child_of_selected (roundCtr joinedTable : Nat) (rest : List Nat) :
    NodeStats.child connections roundCtr { stats with priorityActions := rest } joinedTable =
      NodeStats.child connections roundCtr stats joinedTable := rfl

variable {joinedTable roundCtr : Nat} {parent : NodeStats K}

omit [LinearOrder K] in
/-- The recommended actions of a child are its connected ones, or all of them if none is. -/
theorem recommended_child {action : Nat} :
    action ∈ (NodeStats.child connections roundCtr parent joinedTable).recommendedActions ↔
      action < parent.numActions - 1 ∧
        ((∃ other < parent.numActions - 1, isConnected connections (parent.joinedTables.insert joinedTable)
            ((parent.unjoinedTables.erase joinedTable).getD other 0) = true) →
          isConnected connections (parent.joinedTables.insert joinedTable)
            ((parent.unjoinedTables.erase joinedTable).getD action 0) = true) := by
  simp only [NodeStats.child]
  split
  · rename_i hNone
    rw [List.isEmpty_iff, filter_eq_nil_iff] at hNone
    simp only [mem_range] at hNone ⊢
    refine ⟨fun hLt => ⟨hLt, ?_⟩, fun h => h.1⟩
    rintro ⟨other, hOther, hConnected⟩
    exact absurd hConnected (hNone other hOther)
  · rename_i hSome
    obtain ⟨other, hOther⟩ := exists_mem_of_ne_nil _ fun hNil => hSome (List.isEmpty_iff.mpr hNil)
    simp only [mem_filter, mem_range] at hOther ⊢
    exact ⟨fun h => ⟨h.1, fun _ => h.2⟩, fun h => ⟨h.1, h.2 ⟨other, hOther⟩⟩⟩

omit [LinearOrder K] in
theorem recommended_child_ne (hActions : 0 < parent.numActions - 1) :
    (NodeStats.child connections roundCtr parent joinedTable).recommendedActions ≠ [] := by
  simp only [NodeStats.child]
  split
  · exact ne_nil_of_mem (mem_range.mpr hActions)
  · rename_i hSome
    exact fun hNil => hSome (List.isEmpty_iff.mpr hNil)

section

variable {action : Nat} (h : Sound connections numTables start path stats) (hAction : action < stats.numActions)

include h hAction

theorem Sound.table_mem : stats.tablePerAction.getD action 0 ∈ stats.unjoinedTables := by
  rw [h.numActions] at hAction
  rw [h.tablePerAction, getD_eq_getElem hAction]
  exact getElem_mem hAction

/-- A child joins the table of the action it hangs from. -/
theorem Sound.child (roundCtr : Nat) : Sound connections numTables start (path ++ [stats.tablePerAction.getD action 0])
    (NodeStats.child connections roundCtr stats (stats.tablePerAction.getD action 0)) := by
  have hMem := h.table_mem hAction
  generalize stats.tablePerAction.getD action 0 = table at hMem
  have hTable := (h.unjoined table).mp hMem
  have hJoined : ∀ other, other ∈ stats.joinedTables.insert table ↔ other ∈ path ++ [table] := fun other => by
    simp [h.joined, or_comm]
  have hUnjoined : ∀ other, other ∈ stats.unjoinedTables.erase table ↔ other < numTables ∧ other ∉ path ++ [table] := by
    intro other
    rw [h.nodup.mem_erase_iff, h.unjoined, mem_append, mem_singleton]
    tauto
  have hCount : stats.numActions - 1 = (stats.unjoinedTables.erase table).length := by
    rw [length_erase_of_mem hMem, h.numActions]
  refine ⟨hJoined, ?_, h.nodup.erase table, hUnjoined, rfl, hCount, fun other hOther => (recommended_child.mp hOther).1,
    recommended_child_ne, ?_, fun other hOther => ?_, fun other hOther => ?_, fun _ => le_rfl, fun _ => le_rfl⟩
  · rw [length_append, length_singleton, ← h.joined_length]
    exact length_insert_of_not_mem fun hIn => hTable.2 ((h.joined table).mp hIn)
  · rintro - other hOther ⟨fresh, hLt, hFresh, hConnected⟩
    obtain ⟨index, hIndex, rfl⟩ := getElem_of_mem ((hUnjoined fresh).mpr ⟨hLt, hFresh⟩)
    rw [← isConnected_congr hJoined]
    refine (recommended_child.mp hOther).2 ⟨index, by omega, ?_⟩
    rwa [getD_eq_getElem hIndex, isConnected_congr hJoined]
  · exact of_decide_eq_true (mem_filter.mp hOther).2
  · exact Or.inl (mem_filter.mpr ⟨mem_range.mpr (recommended_child.mp hOther).1, decide_eq_true hOther⟩)

end

end

/-! ## Selecting an action -/

section

variable {K : Type} [Field K] [LinearOrder K] [IsStrictOrderedRing K] {connections : Nat → Nat → Bool}
  {numTables start : Nat} {path : List Nat} {stats : NodeStats K} {scoring : Scoring K}

/-- The best action so far is a recommended one, or there is none yet and the quality to beat is -1. -/
def BestSoFar (stats : NodeStats K) (best : Option Nat × K) : Prop :=
  (best.1 = none → best.2 = -1) ∧ ∀ action, best.1 = some action → action ∈ stats.recommendedActions

theorem scoreAction_spec (h : Sound connections numTables start path stats) (hPriority : stats.priorityActions = [])
    (hActions : 0 < stats.numActions) {best : Option Nat × K} (hBest : BestSoFar stats best) (offset actionIdx : Nat) :
    ∃ next, scoreAction scoring stats offset best actionIdx = .ok next ∧ BestSoFar stats next ∧
      (best.1 ≠ none ∨ (offset + actionIdx) % stats.numActions ∈ stats.recommendedActions → next.1 ≠ none) := by
  have hNonempty : stats.recommendedActions.isEmpty = false := by
    simpa using h.recommended_ne hActions
  unfold scoreAction
  simp only [hNonempty, Bool.false_eq_true, if_false]
  generalize (offset + actionIdx) % stats.numActions = action
  by_cases hIn : action ∈ stats.recommendedActions
  · have hTried : 1 ≤ stats.numTriesPerAction action := (h.tried action hIn).resolve_left (by simp [hPriority])
    have hVisits := hTried.trans (h.tries_le action)
    have hMean : 0 ≤ stats.accRewardPerAction action / (stats.numTriesPerAction action : K) :=
      div_nonneg (h.reward_nonneg action) (Nat.cast_nonneg _)
    have hExplore := scoring.nonneg _ _ hVisits hTried
    rw [if_neg (not_not.mpr hIn), if_neg (by omega)]
    split
    · exact ⟨_, rfl, ⟨nofun, fun other hOther => by cases hOther; exact hIn⟩, fun _ => nofun⟩
    · rename_i hNot
      refine ⟨best, rfl, hBest, fun _ hNone => hNot ?_⟩
      rw [hBest.1 hNone]
      linarith
  · rw [if_pos hIn]
    exact ⟨best, rfl, hBest, fun hOr => hOr.resolve_right hIn⟩

theorem scoreActions_spec (h : Sound connections numTables start path stats) (hPriority : stats.priorityActions = [])
    (hActions : 0 < stats.numActions) (offset : Nat) (actions : List Nat) {best : Option Nat × K}
    (hBest : BestSoFar stats best) :
    ∃ last, actions.foldlM (scoreAction scoring stats offset) best = .ok last ∧ BestSoFar stats last ∧
      (best.1 ≠ none ∨ (∃ actionIdx ∈ actions, (offset + actionIdx) % stats.numActions ∈ stats.recommendedActions) →
        last.1 ≠ none) := by
  induction actions generalizing best with
  | nil => exact ⟨best, rfl, hBest, fun hOr => hOr.resolve_right (by simp)⟩
  | cons actionIdx actions ih =>
    obtain ⟨next, hNext, hSoFar, hSome⟩ :=
      @scoreAction_spec K _ _ _ connections numTables start path stats scoring h hPriority hActions best hBest offset
        actionIdx
    obtain ⟨last, hLast, hLastSoFar, hLastSome⟩ := ih hSoFar
    refine ⟨last, by rw [foldlM_cons, hNext]; exact hLast, hLastSoFar, fun hOr => hLastSome ?_⟩
    rcases hOr with hOld | ⟨other, hOther, hIn⟩
    · exact Or.inl (hSome (Or.inl hOld))
    · rcases mem_cons.mp hOther with rfl | hRest
      · exact Or.inl (hSome (Or.inr hIn))
      · exact Or.inr ⟨other, hRest, hIn⟩

variable {action : Nat} {agent : UctAgent K}

/-- Starting from any offset, the loop comes past every action. -/
theorem exists_actionIdx {numActions : Nat} (hAction : action < numActions) (number : Nat) :
    ∃ actionIdx ∈ List.range numActions, (number % numActions + actionIdx) % numActions = action := by
  have hOffset : number % numActions < numActions := Nat.mod_lt _ (by omega)
  refine ⟨(action + numActions - number % numActions) % numActions, mem_range.mpr (Nat.mod_lt _ (by omega)), ?_⟩
  rw [Nat.add_mod_mod, show number % numActions + (action + numActions - number % numActions) = action + numActions by
    omega, Nat.add_mod_right, Nat.mod_eq_of_lt hAction]

/-- The statistics of the selected action are updated before the node is looked at again. -/
theorem Sound.updated (h : Sound connections numTables start path stats) {rest : List Nat}
    (hRest : ∀ other ∈ rest, other ∈ stats.priorityActions)
    (hOthers : ∀ other ∈ stats.priorityActions, other = action ∨ other ∈ rest) {reward : K} (hReward : 0 ≤ reward) :
    Sound connections numTables start path (updateStatistics action reward { stats with priorityActions := rest }) := by
  refine ⟨h.joined, h.joined_length, h.nodup, h.unjoined, h.tablePerAction, h.numActions, h.recommended_lt,
    h.recommended_ne, h.recommended_follows, fun other hOther => h.priority other (hRest other hOther),
    fun other hOther => ?_, fun other => ?_, fun other => ?_⟩
  all_goals
    simp only [updateStatistics, Function.update_apply]
    split
  · right
    omega
  · rename_i hNe
    exact (h.tried other hOther).imp_left fun hIn => (hOthers other hIn).resolve_left hNe
  · rename_i hEq
    exact Nat.succ_le_succ (h.tries_le action)
  · exact (h.tries_le other).trans (Nat.le_succ _)
  · exact add_nonneg (h.reward_nonneg action) hReward
  · exact h.reward_nonneg other

theorem selectAction_spec (h : Sound connections numTables start path stats) (hActions : 0 < stats.numActions)
    (number : Nat) :
    ∃ action rest, selectAction scoring number stats = .ok (action, { stats with priorityActions := rest }) ∧
      action ∈ stats.recommendedActions ∧ ∀ reward : K, 0 ≤ reward → Sound connections numTables start path
        (updateStatistics action reward { stats with priorityActions := rest }) := by
  by_cases hPriority : stats.priorityActions = []
  · obtain ⟨best, hBest, hSoFar, hSome⟩ := @scoreActions_spec K _ _ _ connections numTables start path stats scoring h
      hPriority hActions (number % stats.numActions) (List.range stats.numActions) (none, -1) ⟨fun _ => rfl, nofun⟩
    obtain ⟨known, hKnown⟩ := exists_mem_of_ne_nil _ (h.recommended_ne hActions)
    obtain ⟨actionIdx, hIdx, hEq⟩ := exists_actionIdx (h.recommended_lt known hKnown) number
    obtain ⟨action, hAction⟩ := Option.ne_none_iff_exists'.mp (hSome (Or.inr ⟨actionIdx, hIdx, hEq ▸ hKnown⟩))
    refine ⟨action, stats.priorityActions, ?_, hSoFar.2 action hAction, fun reward hReward =>
      h.updated (fun _ hOther => hOther) (fun _ hOther => Or.inr hOther) hReward⟩
    rw [selectAction, if_neg (not_not.mpr hPriority)]
    simp only [hBest, Except.bind, bind, hAction]
  · have hIdx : number % stats.priorityActions.length < stats.priorityActions.length :=
      Nat.mod_lt _ (length_pos_of_ne_nil hPriority)
    refine ⟨_, _, by rw [selectAction, if_pos hPriority], ?_, fun reward hReward => h.updated ?_ ?_ hReward⟩
    · rw [getD_eq_getElem hIdx]
      exact h.priority _ (getElem_mem hIdx)
    · exact fun other hOther => mem_of_mem_eraseIdx hOther
    · intro other hOther
      rw [getD_eq_getElem hIdx]
      exact mem_cons.mp ((getElem_cons_eraseIdx_perm hIdx).mem_iff.mpr hOther)

/-! ## A walk down the tree -/

def WellFormed (connections : Nat → Nat → Bool) (numTables start : Nat) : UctNode K → List Nat → Prop
  | .null, _ => True
  | .node stats childNodes, path => Sound connections numTables start path stats ∧
      ∀ action < stats.numActions, WellFormed connections numTables start (childNodes action)
        (path ++ [stats.tablePerAction.getD action 0])

variable {child : UctNode K} {childNodes : Nat → UctNode K} {order : List Nat} {rounds : Nat} {turns : List (Turn K)}
  {shouldForget : Bool}

omit [IsStrictOrderedRing K] in
theorem WellFormed.update (h : WellFormed connections numTables start (.node stats childNodes) path)
    {next : NodeStats K} (hSound : Sound connections numTables start path next)
    (hTables : next.tablePerAction = stats.tablePerAction) (hActions : next.numActions = stats.numActions)
    (hChild : WellFormed connections numTables start child (path ++ [stats.tablePerAction.getD action 0])) :
    WellFormed connections numTables start (.node next (Function.update childNodes action child)) path := by
  refine ⟨hSound, fun other hOther => ?_⟩
  rw [hTables, Function.update_apply]
  rw [hActions] at hOther
  split
  · rename_i hEq
    rw [hEq]
    exact hChild
  · exact h.2 other hOther

omit [IsStrictOrderedRing K] in
theorem Sound.full (h : Sound connections numTables start path stats) (hPath : JoinedPath numTables path)
    (hNone : stats.numActions = 0) : path.length = numTables := by
  by_contra hNe
  have hLe := hPath.length_le
  obtain ⟨fresh, hLt, hFresh⟩ := JoinedPath.exists_fresh (show path.length < numTables by omega)
  have hMem := (h.unjoined fresh).mpr ⟨hLt, hFresh⟩
  rw [length_eq_zero_iff.mp (h.numActions.symm.trans hNone)] at hMem
  cases hMem

omit [IsStrictOrderedRing K] in
theorem Sound.playout_completes (h : Sound connections numTables start path stats) {table : Nat}
    (hPath : JoinedPath numTables (path ++ [table])) (hStarts : path ++ [table] <+: order)
    (hLength : order.length = numTables) (turn : Turn K) :
    Completes connections numTables start (path ++ [table])
      (playout connections numTables turn.shuffle stats order) := by
  have hLast : order.getD path.length 0 = table := by
    obtain ⟨rest, rfl⟩ := hStarts
    simp
  have hCount := hPath.length_le
  have hUnjoined : ∀ other, other ∈ turn.shuffle ((List.range numTables).filter fun other =>
      other ∉ stats.joinedTables ∧ other ≠ table) ↔ other < numTables ∧ other ∉ path ++ [table] := by
    intro other
    rw [(turn.shuffle_perm _).mem_iff]
    simp [h.joined]
  rw [length_append, length_singleton] at hCount
  rw [playout, h.joined_length, hLast]
  have hLoop := @playoutLoop_completes connections numTables (path ++ [table]) order _ (stats.joinedTables.insert table)
    hPath (fun other => by simp [h.joined, or_comm]) (fun other hLt hFresh => (hUnjoined other).mpr ⟨hLt, hFresh⟩)
    (fun other hOther => ((hUnjoined other).mp hOther).1) hStarts hLength (numTables - (path.length + 1))
    (by rw [length_append, length_singleton]; omega) start
  rwa [length_append, length_singleton] at hLoop

/-- No node has been visited more often than that. -/
def VisitedAtMost (rounds : Nat) : UctNode K → Prop
  | .null => True
  | .node stats childNodes => stats.numVisits ≤ rounds ∧ ∀ action, VisitedAtMost rounds (childNodes action)

omit [Field K] [LinearOrder K] [IsStrictOrderedRing K] in
theorem VisitedAtMost.mono {later : Nat} (h : rounds ≤ later) {node : UctNode K} (hNode : VisitedAtMost rounds node) :
    VisitedAtMost later node := by
  induction node with
  | null => trivial
  | node stats childNodes ih => exact ⟨hNode.1.trans h, fun action => ih action (hNode.2 action)⟩

omit [LinearOrder K] [IsStrictOrderedRing K] in
theorem VisitedAtMost.update (h : VisitedAtMost rounds (.node stats childNodes))
    (hChild : VisitedAtMost (rounds + 1) child) (reward : K) (rest : List Nat) :
    VisitedAtMost (rounds + 1) (.node (updateStatistics action reward { stats with priorityActions := rest })
      (Function.update childNodes action child)) := by
  refine ⟨Nat.succ_le_succ h.1, fun other => ?_⟩
  rw [Function.update_apply]
  split
  · exact hChild
  · exact (h.2 other).mono (Nat.le_succ rounds)

omit [IsStrictOrderedRing K] in
theorem Sound.countersFull (h : Sound connections numTables start path stats) {rounds : Nat}
    (hVisits : stats.numVisits ≤ rounds) (hRounds : rounds < maxInt) (action : Nat) (rest : List Nat) :
    countersFull action { stats with priorityActions := rest } = false := by
  have hTries := h.tries_le action
  rw [KushDB.Skinner.countersFull, decide_eq_false_iff_not, not_or, not_le, not_le]
  dsimp only
  omega

/-- A walk down the tree returns, keeps the tree well-formed and completes the order it was given. -/
theorem sample_spec (turn : Turn K) (roundCtr : Nat) {rounds depth : Nat} {childNodes : Nat → UctNode K}
    {order : List Nat} (hPath : JoinedPath numTables path)
    (hTree : WellFormed connections numTables start (.node stats childNodes) path)
    (hVisited : VisitedAtMost rounds (.node stats childNodes)) (hRounds : rounds < maxInt)
    (hStarts : path <+: order) (hLength : order.length = numTables) (hDepth : numTables < path.length + depth) :
    ∃ next nextNodes last,
      sample connections numTables scoring turn roundCtr depth stats childNodes order =
        .ok (.node next nextNodes, last) ∧
      WellFormed connections numTables start (.node next nextNodes) path ∧
      VisitedAtMost (rounds + 1) (.node next nextNodes) ∧ Completes connections numTables start path last := by
  induction depth generalizing stats childNodes order path with
  | zero =>
    have hLe := hPath.length_le
    omega
  | succ depth ih =>
    have hSound := hTree.1
    by_cases hNone : stats.numActions = 0
    · refine ⟨stats, childNodes, order, by rw [sample, if_pos hNone], hTree, hVisited.mono (Nat.le_succ rounds), ?_⟩
      exact completes_of_length hPath hStarts hLength (hSound.full hPath hNone) start
    · obtain ⟨action, rest, hSelect, hIn, hUpdated⟩ := @selectAction_spec K _ _ _ connections numTables start path stats
        scoring hSound (by omega) (turn.number stats.joinedTables.length)
      have hAction := hSound.recommended_lt action hIn
      have hTable := (hSound.unjoined _).mp (hSound.table_mem hAction)
      have hNextPath := hPath.concat hTable.1 hTable.2
      have hNextStarts := concat_prefix_set hStarts (by
        have hLe := hNextPath.length_le
        rw [length_append, length_singleton] at hLe
        omega) (stats.tablePerAction.getD action 0)
      have hNextDepth : numTables < (path ++ [stats.tablePerAction.getD action 0]).length + depth := by
        rw [length_append, length_singleton]
        omega
      have hNext := hUpdated turn.reward turn.reward_nonneg
      have hFollows := fun hStart => hSound.recommended_follows hStart action hIn
      rw [← hSound.joined_length] at hNextStarts
      have hNextLength : (order.set stats.joinedTables.length (stats.tablePerAction.getD action 0)).length = numTables := by
        rw [length_set, hLength]
      have hRoom := hSound.countersFull hVisited.1 hRounds action rest
      simp only [sample, if_neg hNone, hSelect, bind, Except.bind]
      cases hChild : childNodes action with
      | node child grandChildNodes =>
        have hBelow := hTree.2 action hAction
        have hVisitedBelow := hVisited.2 action
        rw [hChild] at hBelow hVisitedBelow
        obtain ⟨next, nextNodes, last, hSample, hWell, hVisits, hCompletes⟩ :=
          ih hNextPath hBelow hVisitedBelow hNextStarts hNextLength hNextDepth
        simp only [hSample, Except.map, hRoom, Bool.false_eq_true, if_false]
        exact ⟨_, _, last, rfl, hTree.update hNext rfl rfl hWell, hVisited.update hVisits _ _,
          hCompletes.of_concat hFollows⟩
      | null =>
        by_cases hExpand : stats.createdIn ≠ roundCtr
        · have hFresh : WellFormed connections numTables start (.node (NodeStats.child connections roundCtr stats
              (stats.tablePerAction.getD action 0)) fun _ => .null) _ := ⟨hSound.child hAction roundCtr, fun _ _ => trivial⟩
          have hUnvisited : VisitedAtMost rounds (.node (NodeStats.child connections roundCtr stats
              (stats.tablePerAction.getD action 0)) fun _ => .null) := ⟨Nat.zero_le _, fun _ => trivial⟩
          obtain ⟨next, nextNodes, last, hSample, hWell, hVisits, hCompletes⟩ :=
            ih hNextPath hFresh hUnvisited hNextStarts hNextLength hNextDepth
          simp only [if_pos hExpand, child_of_selected, hSample, Except.map, hRoom, Bool.false_eq_true, if_false]
          exact ⟨_, _, last, rfl, hTree.update hNext rfl rfl hWell, hVisited.update hVisits _ _,
            hCompletes.of_concat hFollows⟩
        · have hCompletes := hSound.playout_completes hNextPath hNextStarts hNextLength turn
          simp only [if_neg hExpand, hRoom, Bool.false_eq_true, if_false]
          refine ⟨_, _, _, rfl, ⟨hNext, hTree.2⟩, ⟨Nat.succ_le_succ hVisited.1, fun other => ?_⟩,
            hCompletes.of_concat hFollows⟩
          exact (hVisited.2 other).mono (Nat.le_succ rounds)

/-! ## Turn after turn -/

/-- An agent between turns. -/
structure Ready (connections : Nat → Nat → Bool) (numTables : Nat) (joined : List Nat) (agent : UctAgent K) : Prop where
  root : ∃ stats childNodes, agent.root = .node stats childNodes
  tree : WellFormed connections numTables (joined.length + 1) agent.root joined
  visited : VisitedAtMost agent.roundCtr agent.root
  starts : joined <+: agent.order
  length_eq : agent.order.length = numTables

variable {joined : List Nat}

omit [IsStrictOrderedRing K] in
theorem ready_start (hJoined : JoinedPath numTables joined) :
    Ready connections numTables joined (UctAgent.start numTables joined : UctAgent K) where
  root := ⟨_, _, rfl⟩
  tree := ⟨sound_root hJoined 0 (Nat.lt_succ_self _), fun _ _ => trivial⟩
  visited := ⟨Nat.le_refl 0, fun _ => trivial⟩
  starts := prefix_append _ _
  length_eq := by
    have hLe := hJoined.length_le
    simp only [UctAgent.start, length_append, length_replicate]
    omega

theorem Ready.act (hJoined : JoinedPath numTables joined) {agent : UctAgent K}
    (h : Ready connections numTables joined agent) (hRounds : agent.roundCtr < maxInt) (shouldForget : Bool)
    (turn : Turn K) :
    ∃ order next, agent.act connections numTables scoring shouldForget joined turn = .ok (order, next) ∧
      LegalOrder connections numTables joined order ∧ Ready connections numTables joined next ∧
        next.roundCtr = agent.roundCtr + 1 := by
  obtain ⟨stats, childNodes, hRoot⟩ := h.root
  have hTree := h.tree
  have hVisited := h.visited
  rw [hRoot] at hTree hVisited
  obtain ⟨next, nextNodes, last, hSample, hWell, hVisits, hCompletes⟩ :=
    @sample_spec K _ _ _ connections numTables (joined.length + 1) joined stats scoring turn (agent.roundCtr + 1)
      agent.roundCtr (numTables + 1) childNodes agent.order hJoined hTree hVisited hRounds h.starts h.length_eq (by omega)
  have hLegal : LegalOrder connections numTables joined last :=
    ⟨hCompletes.perm, hCompletes.starts, fun pos hPos hLt => hCompletes.follows pos hPos (by omega) hLt⟩
  have hLength : last.length = numTables := by simpa using hCompletes.perm.length_eq
  unfold UctAgent.act
  simp only [if_neg (Nat.not_lt.mpr hRounds), hRoot, hSample, bind, Except.bind]
  split
  · exact ⟨last, _, rfl, hLegal, ⟨⟨_, _, rfl⟩, ⟨sound_root hJoined _ (Nat.lt_succ_self _), fun _ _ => trivial⟩,
      ⟨Nat.zero_le _, fun _ => trivial⟩, hLegal.starts, hLength⟩, rfl⟩
  · exact ⟨last, _, rfl, hLegal, ⟨⟨_, _, rfl⟩, hWell, hVisits, hLegal.starts, hLength⟩, rfl⟩

theorem Ready.acts (hJoined : JoinedPath numTables joined) (h : Ready connections numTables joined agent)
    (shouldForget : Bool) (hRounds : agent.roundCtr + turns.length ≤ maxInt) :
    ∃ orders, agent.acts connections numTables scoring shouldForget joined turns = .ok orders ∧
      orders.length = turns.length ∧ ∀ order ∈ orders, LegalOrder connections numTables joined order := by
  induction turns generalizing agent with
  | nil => exact ⟨[], rfl, rfl, by simp⟩
  | cons turn turns ih =>
    rw [length_cons] at hRounds
    obtain ⟨order, next, hAct, hLegal, hReady, hNext⟩ :=
      @Ready.act K _ _ _ connections numTables scoring joined hJoined agent h (by omega) shouldForget turn
    obtain ⟨orders, hActs, hLength, hOrders⟩ := ih hReady (by omega)
    refine ⟨order :: orders, ?_, by rw [length_cons, length_cons, hLength], fun other hOther => ?_⟩
    · simp only [UctAgent.acts, hAct, hActs, bind, Except.bind]
    · rcases mem_cons.mp hOther with rfl | hRest
      · exact hLegal
      · exact hOrders other hRest

omit [IsStrictOrderedRing K] in
theorem roundCtr_of_act {next : UctAgent K} {turn : Turn K}
    (h : agent.act connections numTables scoring shouldForget joined turn = .ok (order, next)) :
    next.roundCtr = agent.roundCtr + 1 ∧ agent.roundCtr < maxInt := by
  unfold UctAgent.act at h
  dsimp only at h
  split at h
  · cases h
  · rename_i hRounds
    refine ⟨?_, by omega⟩
    split at h
    · cases h
    · obtain ⟨⟨root, last⟩, -, hResult⟩ := Fallible.bind_eq_ok.mp h
      dsimp only at hResult
      split at hResult
      · cases hResult
        rfl
      · cases hResult
        rfl

omit [IsStrictOrderedRing K] in
/-- Every turn that returns has counted a round. -/
theorem rounds_of_acts {orders : List (List Nat)} (hStart : agent.roundCtr ≤ maxInt)
    (h : agent.acts connections numTables scoring shouldForget joined turns = .ok orders) :
    agent.roundCtr + turns.length ≤ maxInt := by
  induction turns generalizing agent orders with
  | nil => exact hStart
  | cons turn turns ih =>
    rw [UctAgent.acts, Fallible.bind_eq_ok] at h
    obtain ⟨⟨order, next⟩, hAct, hRest⟩ := h
    obtain ⟨later, hLater, -⟩ := Fallible.bind_eq_ok.mp hRest
    obtain ⟨hNext, hRoom⟩ := roundCtr_of_act hAct
    have hBound := ih (by omega) hLater
    rw [length_cons]
    omega

/-- Every turn returns and executes a legal order. -/
def RunsLegalOrders (connections : Nat → Nat → Bool) (numTables : Nat) (scoring : Scoring K) (shouldForget : Bool)
    (joined : List Nat) (turns : List (Turn K)) : Prop :=
  ∃ orders, (UctAgent.start numTables joined).acts connections numTables scoring shouldForget joined turns = .ok orders ∧
    orders.length = turns.length ∧ ∀ order ∈ orders, LegalOrder connections numTables joined order

/-- Whatever is drawn and rewarded, every turn returns until the rounds overflow: no score is divided by zero tries and
some action is always selected. Each turn executes a legal order. -/
theorem agent_runs_legal_orders_iff (connections : Nat → Nat → Bool) (scoring : Scoring K) (shouldForget : Bool)
    (hJoined : JoinedPath numTables joined) (turns : List (Turn K)) :
    RunsLegalOrders connections numTables scoring shouldForget joined turns ↔ turns.length < 2 ^ 31 := by
  have hStart : (UctAgent.start numTables joined : UctAgent K).roundCtr = 0 := rfl
  have hLimit : turns.length < 2 ^ 31 ↔ (UctAgent.start numTables joined : UctAgent K).roundCtr + turns.length ≤ maxInt := by
    rw [hStart, maxInt]
    omega
  rw [hLimit]
  constructor
  · rintro ⟨orders, hActs, -⟩
    exact rounds_of_acts (Nat.zero_le _) hActs
  · exact (ready_start hJoined).acts hJoined shouldForget

end

/-- The scores of the source, without the rounding. -/
noncomputable def ucb : Scoring ℝ where
  weight := 1 / 100000
  exploration := fun visits tries => Real.sqrt (Real.log visits / tries)
  nonneg := fun _ _ _ _ => mul_nonneg (by norm_num) (Real.sqrt_nonneg _)

def chain (left right : Nat) : Bool := left + 1 == right || right + 1 == left

/-- A turn in which every node draws its level. -/
def levelTurn : Turn ℝ := ⟨fun level => level, List.reverse, 1, List.reverse_perm, zero_le_one⟩

/-- Three tables in a chain with the last one fixed, and enough turns for the agent to forget its tree. -/
theorem agent_runs_legal_orders_chain : RunsLegalOrders chain 3 ucb true [2] (List.replicate 12 levelTurn) :=
  (agent_runs_legal_orders_iff chain ucb true ⟨by decide, by decide⟩ _).mpr (by rw [List.length_replicate]; decide)

theorem not_runs_legal_orders_chain : ¬ RunsLegalOrders chain 3 ucb true [2] (List.replicate (2 ^ 31) levelTurn) := by
  rintro ⟨orders, hActs, -⟩
  have hBound := rounds_of_acts (Nat.zero_le _) hActs
  rw [List.length_replicate] at hBound
  change 0 + 2 ^ 31 ≤ 2 ^ 31 - 1 at hBound
  omega

end KushDB.Skinner
