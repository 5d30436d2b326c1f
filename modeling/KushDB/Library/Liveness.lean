import Mathlib.Data.Finset.Union
import KushDB.Library.Worklist

/-! # Live values of a flow graph

A block is a list of steps, each of which reads some values and then may write one. A value is live at a point when
some path from there reads it before anything writes it. The values live before a block are the least solution of the
usual equations over its successors, and every value that is live in the sense of paths is in it.
-/

namespace KushDB.Liveness

open List

variable {V : Type} [DecidableEq V]

structure Step (V : Type) where
  reads : List V
  write : Option V

def Step.written (step : Step V) : Finset V :=
  step.write.toFinset

/-- What is live before a step, from what is live after it. -/
def Step.before (step : Step V) (after : Finset V) : Finset V :=
  (after \ step.written) ∪ step.reads.toFinset

def before (steps : List (Step V)) (after : Finset V) : Finset V :=
  steps.foldr Step.before after

/-- Reads that no earlier step has written, when the given values were written before. -/
def exposed (written : Finset V) : List (Step V) → Finset V
  | [] => ∅
  | step :: rest => (step.reads.toFinset \ written) ∪ exposed (written ∪ step.written) rest

def defs (steps : List (Step V)) : Finset V :=
  steps.foldr (fun step written => step.written ∪ written) ∅

structure Graph (V : Type) where
  size : Nat
  steps : Nat → List (Step V)
  successors : Nat → List Nat
  inside : ∀ block < size, ∀ next ∈ successors block, next < size

def Graph.liveOut (graph : Graph V) (liveIn : Nat → Finset V) (block : Nat) : Finset V :=
  (graph.successors block).toFinset.biUnion liveIn

/-- What the successors demand of a block. -/
def Graph.demand (graph : Graph V) (liveIn : Nat → Finset V) (block : Nat) : Finset V :=
  graph.liveOut liveIn block \ defs (graph.steps block)

/-- Some path from before step `k` of the block reads the value before anything writes it. -/
inductive Graph.LiveAt (graph : Graph V) (v : V) : Nat → Nat → Prop
  | read {block k : Nat} {step : Step V} (hStep : (graph.steps block)[k]? = some step) (hRead : v ∈ step.reads) :
      graph.LiveAt v block k
  | pass {block k : Nat} {step : Step V} (hStep : (graph.steps block)[k]? = some step) (hWrite : step.write ≠ some v)
      (hNext : graph.LiveAt v block (k + 1)) : graph.LiveAt v block k
  | edge {block next : Nat} (hEdge : next ∈ graph.successors block) (hNext : graph.LiveAt v next 0) :
      graph.LiveAt v block (graph.steps block).length

variable {v : V} {block k : Nat} {graph : Graph V} {liveIn : Nat → Finset V}
variable {step : Step V}

omit [DecidableEq V] in
@[simp]
theorem mem_written : v ∈ step.written ↔ step.write = some v := by
  rw [Step.written, Option.mem_toFinset, Option.mem_def]

@[simp]
theorem mem_before {after : Finset V} : v ∈ step.before after ↔ v ∈ after ∧ step.write ≠ some v ∨ v ∈ step.reads := by
  simp [Step.before]

theorem before_cons (step : Step V) (rest : List (Step V)) (after : Finset V) :
    before (step :: rest) after = step.before (before rest after) :=
  rfl

theorem exposed_sdiff (steps : List (Step V)) (written more : Finset V) :
    exposed (written ∪ more) steps = exposed written steps \ more := by
  induction steps generalizing written with
  | nil => simp [exposed]
  | cons step rest ih =>
    have hSwap : written ∪ more ∪ step.written = written ∪ step.written ∪ more := by
      rw [Finset.union_right_comm]
    rw [exposed, hSwap, ih, exposed, Finset.union_sdiff_distrib, sdiff_sdiff_left]
    rfl

/-- One backward pass over a block is its exposed reads and what passes through. -/
theorem before_eq (steps : List (Step V)) (after : Finset V) :
    before steps after = exposed ∅ steps ∪ (after \ defs steps) := by
  induction steps with
  | nil => simp [before, exposed, defs]
  | cons step rest ih =>
    have hDefs : defs (step :: rest) = step.written ∪ defs rest := rfl
    rw [before_cons, Step.before, ih, exposed, exposed_sdiff, hDefs, Finset.union_sdiff_distrib, sdiff_sdiff_left]
    ext v
    simp only [Finset.mem_union, Finset.mem_sdiff, Finset.notMem_empty, not_false_eq_true, and_true]
    grind

theorem mem_liveOut : v ∈ graph.liveOut liveIn block ↔ ∃ next ∈ graph.successors block, v ∈ liveIn next := by
  simp [Graph.liveOut]

/-- A family with the exposed reads of every block that meets every demand. -/
abbrev Graph.Solution (graph : Graph V) (liveIn : Nat → Finset V) : Prop :=
  Worklist.Solution graph.demand graph.size (fun block => exposed ∅ (graph.steps block)) liveIn

abbrev Graph.LeastSolution (graph : Graph V) (liveIn : Nat → Finset V) : Prop :=
  Worklist.LeastSolution graph.demand graph.size (fun block => exposed ∅ (graph.steps block)) liveIn

theorem before_subset_of_solution (hSolution : graph.Solution liveIn) (hBlock : block < graph.size) :
    before (graph.steps block) (graph.liveOut liveIn block) ⊆ liveIn block := by
  rw [before_eq]
  exact Finset.union_subset (hSolution.above block) (hSolution.closed block hBlock)

theorem liveOut_mono (graph : Graph V) {larger : Nat → Finset V} (hBlock : block < graph.size)
    (hSub : ∀ node < graph.size, liveIn node ⊆ larger node) :
    graph.liveOut liveIn block ⊆ graph.liveOut larger block := by
  intro v hMem
  obtain ⟨next, hEdge, hLive⟩ := mem_liveOut.mp hMem
  exact mem_liveOut.mpr ⟨next, hEdge, hSub next (graph.inside block hBlock next hEdge) hLive⟩

/-- The demands of a graph are those of a worklist whose dependents are the predecessors. -/
theorem Graph.demands (graph : Graph V) {predecessors : Nat → List Nat}
    (hInside : ∀ block < graph.size, ∀ other ∈ predecessors block, other < graph.size)
    (hEdges : ∀ block < graph.size, ∀ next ∈ graph.successors block, block ∈ predecessors next) :
    Worklist.Demands graph.demand predecessors graph.size
      ((Finset.range graph.size).biUnion fun block => exposed ∅ (graph.steps block)) := by
  constructor
  · intro liveIn larger hSub block hBlock
    exact Finset.sdiff_subset_sdiff (liveOut_mono graph hBlock hSub) (subset_refl _)
  · intro liveIn block hSub hBlock v hMem
    obtain ⟨next, hEdge, hLive⟩ := mem_liveOut.mp (Finset.mem_sdiff.mp hMem).1
    exact hSub next (graph.inside block hBlock next hEdge) hLive
  · intro liveIn changed grown block hBlock hNot
    rw [Graph.demand, Graph.demand]
    congr 1
    ext v
    rw [mem_liveOut, mem_liveOut]
    refine exists_congr fun next => and_congr_right fun hEdge => ?_
    have hNe : next ≠ changed := fun hEq => hNot (hEq ▸ hEdges block hBlock next hEdge)
    rw [Function.update_of_ne hNe]
  · exact hInside

/-- A least solution is a fixpoint: a backward pass over a block ends in what is recorded before it. -/
theorem before_eq_of_least (hLeast : graph.LeastSolution liveIn) (hBlock : block < graph.size) :
    before (graph.steps block) (graph.liveOut liveIn block) = liveIn block := by
  refine (before_subset_of_solution hLeast.toSolution hBlock).antisymm ?_
  let next : Nat → Finset V := fun node => before (graph.steps node) (graph.liveOut liveIn node)
  have hNext : graph.Solution next := by
    constructor
    · intro node
      simp only [next, before_eq]
      exact Finset.subset_union_left
    · intro node hNode
      have hOut : graph.liveOut next node ⊆ graph.liveOut liveIn node :=
        liveOut_mono graph hNode fun other hOther => before_subset_of_solution hLeast.toSolution hOther
      have hPass : graph.liveOut liveIn node \ defs (graph.steps node) ⊆ next node := by
        simp only [next, before_eq]
        exact Finset.subset_union_right
      exact (Finset.sdiff_subset_sdiff hOut (subset_refl _)).trans hPass
  exact hLeast.least next hNext block hBlock

/-- The induction is on the path: a read, one more step of the block, or an edge to a successor. -/
theorem mem_before_of_liveAt (hSolution : graph.Solution liveIn) (hLive : graph.LiveAt v block k)
    (hBlock : block < graph.size) : v ∈ before ((graph.steps block).drop k) (graph.liveOut liveIn block) := by
  induction hLive with
  | read hStep hRead =>
    obtain ⟨hLt, hGet⟩ := List.getElem?_eq_some_iff.mp hStep
    rw [drop_eq_getElem_cons hLt, hGet, before_cons]
    exact mem_before.mpr (Or.inr hRead)
  | pass hStep hWrite hNext ih =>
    obtain ⟨hLt, hGet⟩ := List.getElem?_eq_some_iff.mp hStep
    rw [drop_eq_getElem_cons hLt, hGet, before_cons]
    exact mem_before.mpr (Or.inl ⟨ih hBlock, hWrite⟩)
  | @edge block next hEdge hNext ih =>
    have hInside : next < graph.size := graph.inside block hBlock next hEdge
    rw [drop_length]
    refine mem_liveOut.mpr ⟨next, hEdge, before_subset_of_solution hSolution hInside ?_⟩
    exact ih hInside

theorem liveAt_of_mem_before (steps : List (Step V)) (hSteps : (graph.steps block).drop k = steps) {out : Finset V}
    (hOut : ∀ v ∈ out, graph.LiveAt v block (graph.steps block).length) (hMem : v ∈ before steps out) :
    graph.LiveAt v block (min k (graph.steps block).length) := by
  induction steps generalizing k with
  | nil =>
    have hLe : (graph.steps block).length ≤ k := List.drop_eq_nil_iff.mp hSteps
    rw [min_eq_right hLe]
    exact hOut v hMem
  | cons step rest ih =>
    have hLt : k < (graph.steps block).length := by
      by_contra hNot
      rw [drop_eq_nil_of_le (not_lt.mp hNot)] at hSteps
      exact absurd hSteps (cons_ne_nil _ _).symm
    have hGet : (graph.steps block)[k]? = some step := by
      rw [List.getElem?_eq_getElem hLt]
      rw [drop_eq_getElem_cons hLt] at hSteps
      rw [(List.cons.inj hSteps).1]
    have hRest : (graph.steps block).drop (k + 1) = rest := by
      rw [drop_eq_getElem_cons hLt] at hSteps
      exact (List.cons.inj hSteps).2
    rw [min_eq_left hLt.le]
    rw [before_cons, mem_before] at hMem
    rcases hMem with ⟨hAfter, hWrite⟩ | hRead
    · have hNext := ih hRest hAfter
      rw [min_eq_left hLt] at hNext
      exact Graph.LiveAt.pass hGet hWrite hNext
    · exact Graph.LiveAt.read hGet hRead

section

variable (hLeast : graph.LeastSolution liveIn) (hBlock : block < graph.size)
include hLeast hBlock

open Classical in
/-- The path sets are themselves a solution, so a least solution holds nothing else. -/
theorem liveAt_of_least (hMem : v ∈ liveIn block) : graph.LiveAt v block 0 := by
  let reached : Nat → Finset V := fun node => (liveIn node).filter fun w => graph.LiveAt w node 0
  have hStart : ∀ {node : Nat} {out : Finset V} {w : V},
      (∀ w ∈ out, graph.LiveAt w node (graph.steps node).length) → w ∈ before (graph.steps node) out →
      graph.LiveAt w node 0 := by
    intro node out w hOut hBefore
    have hLive := liveAt_of_mem_before (k := 0) (graph.steps node) drop_zero hOut hBefore
    rwa [Nat.zero_min] at hLive
  have hReached : graph.Solution reached := by
    constructor
    · intro node w hExposed
      refine Finset.mem_filter.mpr ⟨hLeast.above node hExposed, ?_⟩
      have hNone : ∀ w ∈ (∅ : Finset V), graph.LiveAt w node (graph.steps node).length :=
        fun _ h => absurd h (Finset.notMem_empty _)
      apply hStart hNone
      rw [before_eq]
      exact Finset.mem_union_left _ hExposed
    · intro node hNode w hDemand
      have hOut : ∀ w ∈ graph.liveOut reached node, graph.LiveAt w node (graph.steps node).length := by
        intro w hW
        obtain ⟨next, hEdge, hNext⟩ := mem_liveOut.mp hW
        exact Graph.LiveAt.edge hEdge (Finset.mem_filter.mp hNext).2
      refine Finset.mem_filter.mpr ⟨?_, ?_⟩
      · apply hLeast.closed node hNode
        refine Finset.sdiff_subset_sdiff ?_ (subset_refl _) hDemand
        exact liveOut_mono graph hNode fun other _ => Finset.filter_subset _ _
      · apply hStart hOut
        rw [before_eq]
        exact Finset.mem_union_right _ hDemand
  exact (Finset.mem_filter.mp (hLeast.least reached hReached block hBlock hMem)).2

/-- In a least solution the sets of a backward pass are exactly the values that some path still reads. -/
theorem mem_before_iff (hK : k ≤ (graph.steps block).length) :
    v ∈ before ((graph.steps block).drop k) (graph.liveOut liveIn block) ↔ graph.LiveAt v block k := by
  constructor
  · intro hMem
    have hOut : ∀ w ∈ graph.liveOut liveIn block, graph.LiveAt w block (graph.steps block).length := by
      intro w hW
      obtain ⟨next, hEdge, hNext⟩ := mem_liveOut.mp hW
      exact Graph.LiveAt.edge hEdge (liveAt_of_least hLeast (graph.inside block hBlock next hEdge) hNext)
    have hLive := liveAt_of_mem_before _ rfl hOut hMem
    rwa [Nat.min_eq_left hK] at hLive
  · exact fun hLive => mem_before_of_liveAt hLeast.toSolution hLive hBlock

end

omit [DecidableEq V] in
/-- In a block that nothing follows, a live value is read further on in the block. -/
theorem Graph.LiveAt.exists_read (hLive : graph.LiveAt v block k) (hLast : graph.successors block = []) :
    ∃ j ≥ k, ∃ step, (graph.steps block)[j]? = some step ∧ v ∈ step.reads := by
  induction hLive with
  | read hStep hRead => exact ⟨_, le_rfl, _, hStep, hRead⟩
  | pass _ _ _ ih =>
    obtain ⟨j, hLe, hRead⟩ := ih hLast
    exact ⟨j, Nat.le_of_succ_le hLe, hRead⟩
  | edge hEdge =>
    rw [hLast] at hEdge
    exact absurd hEdge not_mem_nil

end KushDB.Liveness
