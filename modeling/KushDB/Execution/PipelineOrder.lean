import KushDB.Execution.PipelineGraph
import Mathlib.Data.List.Nodup

/-! # Execution of the pipelines

The pipelines run in a topological order. Each time a pipeline has run, its predecessors have one user less, once for
each edge, and one without users left is reset. The last pipeline of the order has no successors and is reset at the
end.
-/

namespace KushDB.Execution

open List

open DepthFirst (Acyclic Topological Edge)

/-- A body is one event: how it is called for the chunks of a split pipeline is another matter. -/
inductive Event
  | size (id : Nat)
  | init (id : Nat)
  | body (id : Nat)
  | reset (id : Nat)
deriving DecidableEq, Repr

inductive ExecutionError
  | depth
  | noPipeline
  | runtimeError (message : String)
deriving DecidableEq, Repr

/-- The order in which the visits end, for a bound on their depth. -/
def topSort (pipelines : PipelineBuilder) (depth : Nat) : Option (List Nat) :=
  DepthFirst.search (successors pipelines) depth (List.range pipelines.length)

structure RunState where
  users : Nat → Nat
  events : List Event

def getInputSize (pipelines : PipelineBuilder) (id : Nat) : List Event :=
  ((pipelines.getD id {}).driver.map Event.size).toList

def executeBody (pipelines : PipelineBuilder) (id : Nat) : List Event :=
  if (pipelines.getD id {}).split then getInputSize pipelines id ++ [.body id] else [.body id]

def cleanUpPredecessor (pipelines : PipelineBuilder) (state : RunState) (pred : Nat) : RunState where
  users := Function.update state.users pred (state.users pred + 1)
  events := state.events ++
    if state.users pred + 1 = (successors pipelines pred).length then [.reset pred] else []

def cleanUpPredecessors (pipelines : PipelineBuilder) (id : Nat) (state : RunState) : RunState :=
  (predecessors pipelines id).foldl (cleanUpPredecessor pipelines) state

def executePipeline (pipelines : PipelineBuilder) (state : RunState) (id : Nat) : RunState :=
  cleanUpPredecessors pipelines id { state with events := state.events ++ .init id :: executeBody pipelines id }

def execute (pipelines : PipelineBuilder) (depth : Nat) : Except ExecutionError (List Event) :=
  match topSort pipelines depth with
  | none => .error .depth
  | some order =>
    let order := order.reverse
    let state := order.foldl (executePipeline pipelines) ⟨fun _ => 0, []⟩
    match order.getLast? with
    | none => .error .noPipeline
    | some last =>
      if successors pipelines last ≠ [] then .error (.runtimeError "A pipeline references the output pipeline")
      else .ok (state.events ++ [.reset last])

/-! ## The users of a pipeline -/

variable {pipelines : PipelineBuilder} {done : List Nat} {state : RunState} {id pred : Nat}

theorem countP_mem_cons {vertex : Nat} {vertices : List Nat} (h : vertex ∉ vertices) (targets : List Nat) :
    targets.countP (· ∈ vertex :: vertices) = targets.count vertex + targets.countP (· ∈ vertices) := by
  induction targets with
  | nil => rfl
  | cons target targets ih =>
    rw [countP_cons, countP_cons, count_cons, ih]
    by_cases hEq : target = vertex
    · subst hEq
      simp [h]
      omega
    · simp [hEq]
      omega

/-- The edges to some pipelines, counted at their ends or at their start. -/
theorem count_flatMap_predecessors (hLinked : Linked pipelines) (hDone : done.Nodup) (id : Nat) :
    (done.flatMap (predecessors pipelines)).count id = (successors pipelines id).countP (· ∈ done) := by
  induction done with
  | nil => simp
  | cons other done ih =>
    rw [nodup_cons] at hDone
    rw [flatMap_cons, count_append, ih hDone.2, countP_mem_cons hDone.1, hLinked.count]

/-! ## What has happened -/

/-- The events after some pipelines have started, given the edges whose users have been counted. -/
structure Ran (pipelines : PipelineBuilder) (done counted : List Nat) (state : RunState) : Prop where
  users : ∀ id, state.users id = counted.count id
  initOnce : ∀ id, state.events.count (.init id) = if id ∈ done then 1 else 0
  bodyOnce : ∀ id, state.events.count (.body id) = if id ∈ done then 1 else 0
  initFirst : ∀ id ∈ done, [.init id, .body id].Sublist state.events
  afterPredecessors : ∀ id ∈ done, ∀ pred ∈ predecessors pipelines id,
    [.body pred, .init id, .body id].Sublist state.events
  resetOnce : ∀ id, state.events.count (.reset id) =
    if 0 < (successors pipelines id).length ∧ (successors pipelines id).length ≤ counted.count id then 1 else 0
  resetLast : ∀ id, .reset id ∈ state.events →
    ∀ other, other = id ∨ other ∈ successors pipelines id → [.body other, .reset id].Sublist state.events

theorem ran_nil : Ran pipelines [] [] ⟨fun _ => 0, []⟩ where
  users _ := rfl
  initOnce _ := rfl
  bodyOnce _ := rfl
  initFirst _ h := absurd h not_mem_nil
  afterPredecessors _ h := absurd h not_mem_nil
  resetOnce id := by
    rw [if_neg]
    · rfl
    · simp only [count_nil]
      omega
  resetLast _ h := absurd h not_mem_nil

variable {counted : List Nat}

theorem Ran.body_mem (h : Ran pipelines done counted state) (hId : id ∈ done) : .body id ∈ state.events := by
  rw [← count_pos_iff, h.bodyOnce, if_pos hId]
  exact Nat.one_pos

theorem sublist_append_of_mem {first second : Event} {events : List Event} (h : first ∈ events) :
    [first, second].Sublist (events ++ [second]) :=
  (singleton_sublist.mpr h).append (List.Sublist.refl [second])

/-- The reset that a counted edge leads to, if it is the last one. -/
def resetsOf (pipelines : PipelineBuilder) (counted : List Nat) (pred : Nat) : List Event :=
  if counted.count pred + 1 = (successors pipelines pred).length then [.reset pred] else []

theorem count_resetsOf (pipelines : PipelineBuilder) (counted : List Nat) (pred id : Nat) :
    (resetsOf pipelines counted pred).count (.reset id) =
      if pred = id ∧ counted.count id + 1 = (successors pipelines id).length then 1 else 0 := by
  unfold resetsOf
  by_cases hEq : pred = id
  · subst hEq
    split <;> simp_all
  · split <;> simp_all

theorem Ran.cleanUp (h : Ran pipelines done counted state) (hPred : pred ∈ done)
    (hUsers : counted.count pred + 1 = (successors pipelines pred).length →
      ∀ next ∈ successors pipelines pred, next ∈ done) :
    Ran pipelines done (counted ++ [pred]) (cleanUpPredecessor pipelines state pred) := by
  have hEvents : (cleanUpPredecessor pipelines state pred).events =
      state.events ++ resetsOf pipelines counted pred := by
    rw [cleanUpPredecessor, resetsOf, h.users]
  have hInit : ∀ id, (resetsOf pipelines counted pred).count (.init id) = 0 := by
    intro id
    unfold resetsOf
    split <;> simp
  have hBody : ∀ id, (resetsOf pipelines counted pred).count (.body id) = 0 := by
    intro id
    unfold resetsOf
    split <;> simp
  have hGrows : state.events.Sublist (state.events ++ resetsOf pipelines counted pred) := sublist_append_left _ _
  constructor
  · intro id
    rw [cleanUpPredecessor, h.users, count_append, count_singleton]
    by_cases hEq : id = pred
    · subst hEq
      simp
    · simp [Function.update_of_ne hEq, h.users, Ne.symm hEq]
  · intro id
    rw [hEvents, count_append, hInit, h.initOnce, Nat.add_zero]
  · intro id
    rw [hEvents, count_append, hBody, h.bodyOnce, Nat.add_zero]
  · intro id hId
    rw [hEvents]
    exact (h.initFirst id hId).trans hGrows
  · intro id hId before hBefore
    rw [hEvents]
    exact (h.afterPredecessors id hId before hBefore).trans hGrows
  · intro id
    rw [hEvents, count_append, h.resetOnce, count_resetsOf, count_append, count_singleton]
    by_cases hEq : pred = id
    · subst hEq
      simp only [true_and, BEq.rfl, if_true]
      split <;> split <;> split <;> omega
    · simp [hEq]
  · intro id hReset other hOther
    rw [hEvents] at hReset ⊢
    rcases mem_append.mp hReset with hOld | hNew
    · exact (h.resetLast id hOld other hOther).trans hGrows
    · unfold resetsOf at hNew ⊢
      split at hNew
      case isTrue hLast =>
        obtain rfl := Event.reset.inj (mem_singleton.mp hNew)
        rw [if_pos hLast]
        apply sublist_append_of_mem
        rcases hOther with rfl | hNext
        · exact h.body_mem hPred
        · exact h.body_mem (hUsers hLast other hNext)
      case isFalse => exact absurd hNew not_mem_nil

theorem count_executeBody (pipelines : PipelineBuilder) (id : Nat) {event : Event} (h : ∀ driver, event ≠ .size driver) :
    (executeBody pipelines id).count event = if .body id = event then 1 else 0 := by
  have hSize : (getInputSize pipelines id).count event = 0 := by
    unfold getInputSize
    cases (pipelines.getD id {}).driver with
    | none => rfl
    | some driver => exact count_eq_zero.mpr fun hMem => h driver (mem_singleton.mp hMem)
  unfold executeBody
  split
  · rw [count_append, hSize, Nat.zero_add, count_singleton]
    simp
  · rw [count_singleton]
    simp

theorem Ran.start (h : Ran pipelines done counted state) (hNew : id ∉ done)
    (hPreds : ∀ pred ∈ predecessors pipelines id, pred ∈ done) :
    Ran pipelines (done ++ [id]) counted
      { state with events := state.events ++ .init id :: executeBody pipelines id } := by
  have hMem : ∀ other, (if other ∈ done ++ [id] then 1 else 0) =
      (if other ∈ done then 1 else 0) + if id = other then 1 else 0 := by
    intro other
    by_cases hEq : id = other
    · subst hEq
      simp [hNew]
    · simp [hEq, Ne.symm hEq]
  have hGrows : state.events.Sublist (state.events ++ .init id :: executeBody pipelines id) :=
    sublist_append_left _ _
  have hHere : [.init id, .body id].Sublist (.init id :: executeBody pipelines id) := by
    apply List.Sublist.cons_cons
    unfold executeBody
    split
    · exact sublist_append_right _ _
    · exact List.Sublist.refl _
  constructor
  · exact h.users
  · intro other
    dsimp only
    rw [count_append, h.initOnce, hMem, count_cons, count_executeBody _ _ (by simp)]
    simp
  · intro other
    dsimp only
    rw [count_append, h.bodyOnce, hMem, count_cons, count_executeBody _ _ (by simp)]
    simp
  · intro other hOther
    rcases mem_append.mp hOther with hOld | hLast
    · exact (h.initFirst other hOld).trans hGrows
    · rw [mem_singleton.mp hLast]
      exact hHere.trans (sublist_append_right _ _)
  · intro other hOther pred hPred
    rcases mem_append.mp hOther with hOld | hLast
    · exact (h.afterPredecessors other hOld pred hPred).trans hGrows
    · rw [mem_singleton.mp hLast] at hPred ⊢
      exact (singleton_sublist.mpr (h.body_mem (hPreds pred hPred))).append hHere
  · intro other
    dsimp only
    rw [count_append, h.resetOnce, count_cons, count_executeBody _ _ (by simp)]
    simp
  · intro other hReset next hNext
    have hOld : .reset other ∈ state.events := by
      rw [← count_pos_iff] at hReset ⊢
      dsimp only at hReset
      rw [count_append, count_cons, count_executeBody _ _ (by simp)] at hReset
      simpa using hReset
    exact (h.resetLast other hOld next hNext).trans hGrows

variable {rest : List Nat}

/-- Counting the users of the predecessors of a pipeline that has just run. -/
theorem Ran.cleanUpAll (hLinked : Linked pipelines) (hDone : done.Nodup)
    (hCounted : counted ++ rest = done.flatMap (predecessors pipelines)) (hRest : ∀ pred ∈ rest, pred ∈ done)
    (h : Ran pipelines done counted state) :
    Ran pipelines done (done.flatMap (predecessors pipelines)) (rest.foldl (cleanUpPredecessor pipelines) state) := by
  induction rest generalizing counted state with
  | nil =>
    rw [← hCounted, append_nil]
    exact h
  | cons pred rest ih =>
    have hNext : counted ++ [pred] ++ rest = done.flatMap (predecessors pipelines) := by
      rw [append_assoc]
      exact hCounted
    apply ih hNext (fun other hOther => hRest other (mem_cons_of_mem _ hOther))
    apply h.cleanUp (hRest pred mem_cons_self)
    -- all edges of the predecessor are counted, so all of them lead to pipelines that have run
    intro hLast next hNext
    have hTotal := count_flatMap_predecessors hLinked hDone pred
    rw [← hCounted, count_append, count_cons_self] at hTotal
    have hLe : (successors pipelines pred).countP (· ∈ done) ≤ (successors pipelines pred).length := countP_le_length
    have hAll := countP_eq_length.mp (by omega : (successors pipelines pred).countP (· ∈ done) = _)
    exact of_decide_eq_true (hAll next hNext)

theorem Ran.executePipeline (hLinked : Linked pipelines) (hDone : (done ++ [id]).Nodup)
    (hPreds : ∀ pred ∈ predecessors pipelines id, pred ∈ done)
    (h : Ran pipelines done (done.flatMap (predecessors pipelines)) state) :
    Ran pipelines (done ++ [id]) ((done ++ [id]).flatMap (predecessors pipelines))
      (executePipeline pipelines state id) := by
  have hNew : id ∉ done := (nodup_cons.mp (nodup_append_comm.mp hDone)).1
  apply (h.start hNew hPreds).cleanUpAll hLinked hDone
  · rw [flatMap_append, flatMap_singleton]
  · exact fun pred hPred => mem_append_left _ (hPreds pred hPred)

theorem Ran.executeAll (hLinked : Linked pipelines) (hOrder : Topological (successors pipelines) (done ++ rest))
    (hBound : ∀ id < pipelines.length, id ∈ done ++ rest)
    (h : Ran pipelines done (done.flatMap (predecessors pipelines)) state) :
    Ran pipelines (done ++ rest) ((done ++ rest).flatMap (predecessors pipelines))
      (rest.foldl (Execution.executePipeline pipelines) state) := by
  induction rest generalizing done state with
  | nil =>
    rw [append_nil]
    exact h
  | cons id rest ih =>
    have hSplit : done ++ id :: rest = (done ++ [id]) ++ rest := by rw [append_assoc, singleton_append]
    rw [hSplit] at hOrder hBound ⊢
    apply ih hOrder hBound
    apply h.executePipeline hLinked hOrder.nodup.of_append_left
    intro pred hPred
    have hEdge : id ∈ successors pipelines pred := hLinked.mem_iff.mpr hPred
    rw [← hSplit] at hOrder hBound
    exact hOrder.mem_front (hBound pred (lt_of_mem_successors hEdge)) hEdge

/-! ## The whole execution -/

/-- Every pipeline is initialised and runs once, after its predecessors, and is reset once, after its successors. -/
structure RunsInOrder (pipelines : PipelineBuilder) (events : List Event) : Prop where
  initOnce : ∀ id < pipelines.length, events.count (.init id) = 1
  bodyOnce : ∀ id < pipelines.length, events.count (.body id) = 1
  resetOnce : ∀ id < pipelines.length, events.count (.reset id) = 1
  initFirst : ∀ id < pipelines.length, [.init id, .body id].Sublist events
  afterPredecessors : ∀ id < pipelines.length, ∀ pred ∈ predecessors pipelines id,
    [.body pred, .init id, .body id].Sublist events
  resetLast : ∀ id < pipelines.length, ∀ other, other = id ∨ other ∈ successors pipelines id →
    [.body other, .reset id].Sublist events

theorem topSort_spec (hLinked : Linked pipelines) (hAcyclic : Acyclic (successors pipelines)) {depth : Nat}
    (hDepth : pipelines.length ≤ depth) :
    ∃ order, topSort pipelines depth = some order ∧ Topological (successors pipelines) order.reverse ∧
      ∀ id, id ∈ order.reverse ↔ id < pipelines.length := by
  obtain ⟨order, hSearch, hOrder, hMem⟩ := DepthFirst.search_spec hAcyclic
    (fun id _ next hNext => mem_range.mpr (hLinked.bound id next hNext))
    (by rwa [length_range] : (List.range pipelines.length).length ≤ depth)
  refine ⟨order, hSearch, hOrder, fun id => ?_⟩
  rw [mem_reverse, hMem, mem_range]

theorem runsInOrder_of_ran (hLinked : Linked pipelines) {last : Nat} (hDone : done.Nodup)
    (hMem : ∀ id, id ∈ done ↔ id < pipelines.length) (hLast : successors pipelines last = [])
    (hOthers : ∀ id < pipelines.length, id ≠ last → successors pipelines id ≠ []) (hBound : last < pipelines.length)
    (h : Ran pipelines done (done.flatMap (predecessors pipelines)) state) :
    RunsInOrder pipelines (state.events ++ [.reset last]) := by
  have hCount : ∀ id, (done.flatMap (predecessors pipelines)).count id = (successors pipelines id).length := by
    intro id
    rw [count_flatMap_predecessors hLinked hDone, countP_eq_length]
    exact fun next hNext => decide_eq_true ((hMem next).mpr (hLinked.bound id next hNext))
  have hReset : ∀ id < pipelines.length, id ≠ last → state.events.count (.reset id) = 1 := by
    intro id hId hNe
    rw [h.resetOnce, hCount, if_pos ⟨length_pos_of_ne_nil (hOthers id hId hNe), Nat.le_refl _⟩]
  have hNoReset : state.events.count (.reset last) = 0 := by
    rw [h.resetOnce, hLast, if_neg fun hLength => Nat.lt_irrefl 0 hLength.1]
  have hGrows : state.events.Sublist (state.events ++ [.reset last]) := sublist_append_left _ _
  constructor
  · intro id hId
    rw [count_append, h.initOnce, if_pos ((hMem id).mpr hId)]
    simp
  · intro id hId
    rw [count_append, h.bodyOnce, if_pos ((hMem id).mpr hId)]
    simp
  · intro id hId
    rw [count_append, count_singleton]
    by_cases hEq : id = last
    · subst hEq
      rw [hNoReset]
      simp
    · rw [hReset id hId hEq]
      simp [Ne.symm hEq]
  · exact fun id hId => (h.initFirst id ((hMem id).mpr hId)).trans hGrows
  · exact fun id hId pred hPred => (h.afterPredecessors id ((hMem id).mpr hId) pred hPred).trans hGrows
  · intro id hId other hOther
    by_cases hEq : id = last
    · subst hEq
      apply sublist_append_of_mem
      rcases hOther with rfl | hNext
      · exact h.body_mem ((hMem other).mpr hId)
      · exact absurd hNext (hLast ▸ not_mem_nil)
    · have hPresent : .reset id ∈ state.events := by
        rw [← count_pos_iff, hReset id hId hEq]
        exact Nat.one_pos
      exact (h.resetLast id hPresent other hOther).trans hGrows

theorem execute_runsInOrder {commands : List Command} (hBuild : build commands = some pipelines)
    (hAcyclic : Acyclic (successors pipelines))
    (hOutput : ∃! id, id < pipelines.length ∧ successors pipelines id = []) {depth : Nat}
    (hDepth : pipelines.length ≤ depth) :
    ∃ events, execute pipelines depth = .ok events ∧ RunsInOrder pipelines events := by
  have hLinked := linked_of_build hBuild
  obtain ⟨order, hSort, hOrder, hMem⟩ := topSort_spec hLinked hAcyclic hDepth
  obtain ⟨output, ⟨hOutputBound, hOutputSucc⟩, hUnique⟩ := hOutput
  have hRan : Ran pipelines order.reverse (order.reverse.flatMap (predecessors pipelines))
      (order.reverse.foldl (executePipeline pipelines) ⟨fun _ => 0, []⟩) :=
    ran_nil.executeAll hLinked hOrder (fun id hId => (hMem id).mpr hId)
  obtain ⟨front, last, hSplit⟩ : ∃ front last, order.reverse = front ++ [last] := by
    rcases eq_nil_or_concat order.reverse with hNil | ⟨front, last, hConcat⟩
    · exact absurd ((hMem output).mpr hOutputBound) (hNil ▸ not_mem_nil)
    · exact ⟨front, last, by rw [hConcat, concat_eq_append]⟩
  have hGet : order.reverse.getLast? = some last := by rw [hSplit, getLast?_concat]
  have hLast : successors pipelines last = [] := DepthFirst.Topological.last (hSplit ▸ hOrder)
  have hLastBound : last < pipelines.length := (hMem last).mp (hSplit ▸ mem_append_right front mem_cons_self)
  refine ⟨_, ?_, runsInOrder_of_ran hLinked hOrder.nodup hMem hLast ?_ hLastBound hRan⟩
  · rw [execute, hSort]
    dsimp only
    rw [hGet]
    dsimp only
    rw [if_neg (not_not.mpr hLast)]
  · intro id hId hNe hNil
    exact hNe ((hUnique id ⟨hId, hNil⟩).trans (hUnique last ⟨hLastBound, hLast⟩).symm)

/-- Two pipelines that both read the first, one of them twice, before the output. -/
def diamond : List Command :=
  [.createPipeline, .createPipeline, .createPipeline, .createPipeline, .setDriver 1 0, .setSplit 1 true,
    .addPredecessor 2 0, .addPredecessor 2 0, .addPredecessor 3 1, .setDriver 3 2]

def diamondPipelines : PipelineBuilder :=
  [{ succ := [1, 2, 2] }, { driver := some 0, succ := [3], pred := [0], split := true }, { succ := [3], pred := [0, 0] },
    { driver := some 2, pred := [1, 2] }]

theorem build_diamond : build diamond = some diamondPipelines := by decide

theorem acyclic_diamond : Acyclic (successors diamondPipelines) := by
  have hLess : ∀ first < 4, ∀ second ∈ successors diamondPipelines first, first < second := by decide
  exact DepthFirst.acyclic_of_rank id fun first second hEdge => hLess first (lt_of_mem_successors hEdge) second hEdge

theorem diamond_runsInOrder :
    ∃ events, execute diamondPipelines 4 = .ok events ∧ RunsInOrder diamondPipelines events := by
  have hOutput : ∀ id < 4, successors diamondPipelines id = [] → id = 3 := by decide
  exact execute_runsInOrder build_diamond acyclic_diamond
    ⟨3, ⟨by decide, rfl⟩, fun id hId => hOutput id hId.1 hId.2⟩ (by decide)

end KushDB.Execution
