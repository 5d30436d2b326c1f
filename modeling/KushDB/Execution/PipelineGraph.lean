import KushDB.Library.DepthFirst
import Mathlib.Data.List.Count
import Mathlib.Algebra.BigOperators.Group.List.Basic

/-! # Graphs of pipelines

A pipeline keeps its predecessors and its successors, and an edge between two pipelines is added to both lists. An
edge may be added again. Whatever the commands to the builder are, each edge is as often in the one list as in the
other.
-/

namespace KushDB.Execution

open List

structure Pipeline where
  driver : Option Nat := none
  succ : List Nat := []
  pred : List Nat := []
  split : Bool := false
deriving DecidableEq, Repr

/-- The pipelines by their ids. -/
abbrev PipelineBuilder := List Pipeline

def successors (pipelines : PipelineBuilder) (id : Nat) : List Nat := (pipelines.getD id {}).succ

def predecessors (pipelines : PipelineBuilder) (id : Nat) : List Nat := (pipelines.getD id {}).pred

def createPipeline (pipelines : PipelineBuilder) : PipelineBuilder := pipelines ++ [({} : Pipeline)]

def addPredecessor (pipelines : PipelineBuilder) (id pred : Nat) : PipelineBuilder :=
  (pipelines.modify id fun pipeline => { pipeline with pred := pipeline.pred ++ [pred] }).modify pred
    fun pipeline => { pipeline with succ := pipeline.succ ++ [id] }

def setDriver (pipelines : PipelineBuilder) (id pred : Nat) : PipelineBuilder :=
  addPredecessor (pipelines.modify id fun pipeline => { pipeline with driver := some pred }) id pred

def setSplit (pipelines : PipelineBuilder) (id : Nat) (split : Bool) : PipelineBuilder :=
  pipelines.modify id fun pipeline => { pipeline with split := split }

inductive Command
  | createPipeline
  | addPredecessor (id pred : Nat)
  | setDriver (id pred : Nat)
  | setSplit (id : Nat) (split : Bool)
deriving DecidableEq, Repr

/-- A command refers to pipelines that have been created. -/
def Command.run (pipelines : PipelineBuilder) : Command → Option PipelineBuilder
  | .createPipeline => some (Execution.createPipeline pipelines)
  | .addPredecessor id pred =>
    if id < pipelines.length ∧ pred < pipelines.length then some (Execution.addPredecessor pipelines id pred) else none
  | .setDriver id pred =>
    if id < pipelines.length ∧ pred < pipelines.length then some (Execution.setDriver pipelines id pred) else none
  | .setSplit id split => if id < pipelines.length then some (Execution.setSplit pipelines id split) else none

def build (commands : List Command) : Option PipelineBuilder := commands.foldlM Command.run []

/-! ## What every builder keeps -/

structure Linked (pipelines : PipelineBuilder) : Prop where
  count : ∀ id other, (successors pipelines id).count other = (predecessors pipelines other).count id
  bound : ∀ id, ∀ next ∈ successors pipelines id, next < pipelines.length

variable {id pred : Nat} {pipelines : PipelineBuilder}

theorem getD_modify (hId : id < pipelines.length) (f : Pipeline → Pipeline) (other : Nat) :
    (pipelines.modify id f).getD other {} =
      if id = other then f (pipelines.getD other {}) else pipelines.getD other {} := by
  rw [getD_eq_getElem?_getD, getD_eq_getElem?_getD, getElem?_modify]
  split
  case isTrue h =>
    subst h
    rw [getElem?_eq_getElem hId]
    rfl
  case isFalse h => rw [Option.map_eq_map, Option.map_id']

section

variable (hId : id < pipelines.length) (hPred : pred < pipelines.length)
include hId hPred

theorem getD_addPredecessor (other : Nat) :
    (addPredecessor pipelines id pred).getD other {} =
      { pipelines.getD other {} with
        pred := predecessors pipelines other ++ if id = other then [pred] else []
        succ := successors pipelines other ++ if pred = other then [id] else [] } := by
  rw [addPredecessor, getD_modify (by rwa [length_modify]), getD_modify hId, successors, predecessors]
  split <;> split <;> simp

theorem successors_addPredecessor (other : Nat) :
    successors (addPredecessor pipelines id pred) other =
      successors pipelines other ++ if pred = other then [id] else [] := by
  rw [successors, getD_addPredecessor hId hPred]

theorem predecessors_addPredecessor (other : Nat) :
    predecessors (addPredecessor pipelines id pred) other =
      predecessors pipelines other ++ if id = other then [pred] else [] := by
  rw [predecessors, getD_addPredecessor hId hPred]

end

theorem length_addPredecessor (pipelines : PipelineBuilder) (id pred : Nat) :
    (addPredecessor pipelines id pred).length = pipelines.length := by
  rw [addPredecessor, length_modify, length_modify]

theorem Linked.addPredecessor {pipelines : PipelineBuilder} (h : Linked pipelines) {id pred : Nat}
    (hId : id < pipelines.length) (hPred : pred < pipelines.length) : Linked (addPredecessor pipelines id pred) := by
  constructor
  · intro first second
    rw [successors_addPredecessor hId hPred, predecessors_addPredecessor hId hPred, count_append,
      count_append, h.count]
    congr 1
    split <;> split <;> simp_all
  · intro first next hNext
    rw [successors_addPredecessor hId hPred, mem_append] at hNext
    rw [length_addPredecessor]
    rcases hNext with hOld | hNew
    · exact h.bound first next hOld
    · split at hNew
      case isTrue => exact mem_singleton.mp hNew ▸ hId
      case isFalse => exact absurd hNew not_mem_nil

/-- A change of one pipeline that keeps its edges. -/
theorem Linked.modify (h : Linked pipelines) (hId : id < pipelines.length) {f : Pipeline → Pipeline}
    (hSucc : ∀ pipeline, (f pipeline).succ = pipeline.succ) (hPred : ∀ pipeline, (f pipeline).pred = pipeline.pred) :
    Linked (pipelines.modify id f) := by
  have hSuccessors : ∀ other, successors (pipelines.modify id f) other = successors pipelines other := by
    intro other
    rw [successors, getD_modify hId, successors]
    split
    · exact hSucc _
    · rfl
  have hPredecessors : ∀ other, predecessors (pipelines.modify id f) other = predecessors pipelines other := by
    intro other
    rw [predecessors, getD_modify hId, predecessors]
    split
    · exact hPred _
    · rfl
  constructor
  · intro first second
    rw [hSuccessors, hPredecessors, h.count]
  · intro first next hNext
    rw [hSuccessors] at hNext
    rw [length_modify]
    exact h.bound first next hNext

theorem getD_createPipeline (pipelines : PipelineBuilder) (id : Nat) :
    (createPipeline pipelines).getD id {} = pipelines.getD id {} := by
  rw [createPipeline, getD_eq_getElem?_getD, getD_eq_getElem?_getD]
  rcases Nat.lt_trichotomy id pipelines.length with hLt | rfl | hGt
  · rw [getElem?_append_left hLt]
  · simp
  · rw [getElem?_eq_none (by simp; omega), getElem?_eq_none (by omega)]

theorem Linked.createPipeline {pipelines : PipelineBuilder} (h : Linked pipelines) :
    Linked (createPipeline pipelines) := by
  constructor
  · intro first second
    rw [successors, predecessors, getD_createPipeline, getD_createPipeline]
    exact h.count first second
  · intro first next hNext
    rw [successors, getD_createPipeline] at hNext
    have hBound := h.bound first next hNext
    rw [Execution.createPipeline, length_append]
    omega

theorem Linked.run {next : PipelineBuilder} {command : Command} (h : Linked pipelines)
    (hRun : command.run pipelines = some next) : Linked next := by
  cases command with
  | createPipeline =>
    obtain rfl := Option.some.inj hRun
    exact h.createPipeline
  | addPredecessor id pred =>
    obtain ⟨⟨hId, hPred⟩, hEq⟩ := Option.ite_none_right_eq_some.mp hRun
    obtain rfl := Option.some.inj hEq
    exact h.addPredecessor hId hPred
  | setDriver id pred =>
    obtain ⟨⟨hId, hPred⟩, hEq⟩ := Option.ite_none_right_eq_some.mp hRun
    obtain rfl := Option.some.inj hEq
    have hDriver : Linked (pipelines.modify id fun pipeline => { pipeline with driver := some pred }) :=
      h.modify hId (fun _ => rfl) (fun _ => rfl)
    exact hDriver.addPredecessor (by rwa [length_modify]) (by rwa [length_modify])
  | setSplit id split =>
    obtain ⟨hId, hEq⟩ := Option.ite_none_right_eq_some.mp hRun
    obtain rfl := Option.some.inj hEq
    exact h.modify hId (fun _ => rfl) (fun _ => rfl)

theorem linked_of_build {commands : List Command} (h : build commands = some pipelines) : Linked pipelines := by
  have hRun : ∀ (commands : List Command) (before : PipelineBuilder), Linked before →
      commands.foldlM Command.run before = some pipelines → Linked pipelines := by
    intro commands
    induction commands with
    | nil =>
      intro before hLinked hEq
      exact Option.some.inj hEq ▸ hLinked
    | cons command commands ih =>
      intro before hLinked hEq
      rw [foldlM_cons] at hEq
      obtain ⟨next, hNext, hRest⟩ := Option.bind_eq_some_iff.mp hEq
      exact ih next (hLinked.run hNext) hRest
  exact hRun commands [] ⟨fun _ _ => rfl, fun _ _ hNext => absurd hNext not_mem_nil⟩ h

theorem Linked.mem_iff (h : Linked pipelines) {other : Nat} :
    other ∈ successors pipelines id ↔ id ∈ predecessors pipelines other := by
  rw [← count_pos_iff, ← count_pos_iff, h.count]

theorem lt_of_mem_successors {next : Nat} (h : next ∈ successors pipelines id) : id < pipelines.length := by
  by_contra hLe
  rw [successors, getD_eq_getElem?_getD, getElem?_eq_none (by omega)] at h
  exact absurd h not_mem_nil

end KushDB.Execution
