import Mathlib.Data.List.Basic
import Mathlib.Logic.Relation

/-! # Depth-first search

The search marks a vertex, visits its successors that have no mark, and appends the vertex to the order. In a graph
without cycles every vertex comes behind its successors, since a marked successor that is not in the order yet would
lie on the path to the vertex.
-/

namespace KushDB.DepthFirst

open List

structure State (α : Type) where
  visited : List α
  order : List α

section

variable {α : Type}

def visitEach [DecidableEq α] (visit : α → State α → Option (State α)) (vertices : List α) (state : State α) :
    Option (State α) :=
  vertices.foldlM (fun state next => if next ∈ state.visited then some state else visit next state) state

/-- The fuel bounds the depth of the search. -/
def visit [DecidableEq α] (succ : α → List α) : Nat → α → State α → Option (State α)
  | 0, _, _ => none
  | fuel + 1, curr, state => do
    let state ← visitEach (visit succ fuel) (succ curr) { state with visited := curr :: state.visited }
    some { state with order := state.order ++ [curr] }

def search [DecidableEq α] (succ : α → List α) (fuel : Nat) (vertices : List α) : Option (List α) :=
  (visitEach (visit succ fuel) vertices ⟨[], []⟩).map State.order

def Edge (succ : α → List α) (source target : α) : Prop := target ∈ succ source

def Acyclic (succ : α → List α) : Prop := ∀ vertex, ¬ Relation.TransGen (Edge succ) vertex vertex

variable {succ : α → List α} {front : List α} {vertex : α}

theorem acyclic_of_rank (rank : α → Nat) (h : ∀ source, ∀ target ∈ succ source, rank source < rank target) :
    Acyclic succ := by
  have hLess : ∀ {source target : α}, Relation.TransGen (Edge succ) source target → rank source < rank target := by
    intro source target hPath
    induction hPath with
    | single hEdge => exact h _ _ hEdge
    | tail _ hEdge ih => exact Nat.lt_trans ih (h _ _ hEdge)
  exact fun vertex hCycle => Nat.lt_irrefl _ (hLess hCycle)

/-- Every vertex is there once, and before all its successors. -/
def Topological (succ : α → List α) : List α → Prop
  | [] => True
  | vertex :: rest => (∀ next ∈ succ vertex, next ∈ rest) ∧ vertex ∉ rest ∧ Topological succ rest

theorem Topological.nodup {order : List α} (h : Topological succ order) : order.Nodup := by
  induction order with
  | nil => exact nodup_nil
  | cons vertex rest ih => exact nodup_cons.mpr ⟨h.2.1, ih h.2.2⟩

variable {rest stack : List α} {fuel : Nat} {state : State α}

theorem Topological.drop (h : Topological succ (front ++ rest)) : Topological succ rest := by
  induction front with
  | nil => exact h
  | cons vertex front ih => exact ih h.2.2

/-- The last vertex of the order has no successors. -/
theorem Topological.last (h : Topological succ (front ++ [vertex])) : succ vertex = [] := by
  apply eq_nil_iff_forall_not_mem.mpr
  intro next hNext
  exact absurd (h.drop.1 next hNext) (not_mem_nil)

/-- The vertices with an edge to one of the order come before it. -/
theorem Topological.mem_front (h : Topological succ (front ++ vertex :: rest)) {before : α}
    (hMem : before ∈ front ++ vertex :: rest) (hEdge : Edge succ before vertex) : before ∈ front := by
  induction front with
  | nil =>
    obtain ⟨hNext, hNotMem, hRest⟩ := h
    rcases mem_cons.mp hMem with rfl | hLater
    · exact absurd (hNext _ hEdge) hNotMem
    · obtain ⟨first, second, rfl⟩ := append_of_mem hLater
      have hBehind := hRest.drop.1 _ hEdge
      exact absurd (mem_append_right first (mem_cons_of_mem _ hBehind)) hNotMem
  | cons first front ih =>
    rcases mem_cons.mp hMem with rfl | hLater
    · exact mem_cons_self
    · exact mem_cons_of_mem _ (ih h.2.2 hLater)

/-! ## What a visit keeps -/

/-- The marked vertices are those of the order and those on the path that the search is on. -/
structure Invariant (succ : α → List α) (vertices stack : List α) (state : State α) : Prop where
  visited_iff : ∀ vertex, vertex ∈ state.visited ↔ vertex ∈ state.order ∨ vertex ∈ stack
  separate : ∀ vertex ∈ state.order, vertex ∉ stack
  topological : Topological succ state.order.reverse
  known : ∀ vertex ∈ state.order, vertex ∈ vertices

variable [DecidableEq α] {succ : α → List α} {vertices : List α}

def unvisited (vertices visited : List α) : Nat := (vertices.filter (· ∉ visited)).length

theorem unvisited_mono {first second : List α} (h : first ⊆ second) :
    unvisited vertices second ≤ unvisited vertices first := by
  apply List.Sublist.length_le
  apply monotone_filter_right
  intro vertex hNot
  rw [decide_eq_true_eq] at hNot ⊢
  exact fun hMem => hNot (h hMem)

theorem unvisited_cons_lt {visited : List α} (hVertex : vertex ∈ vertices) (hNew : vertex ∉ visited) :
    unvisited vertices (vertex :: visited) < unvisited vertices visited := by
  have hSplit : unvisited vertices (vertex :: visited) =
      ((vertices.filter (· ∉ visited)).filter (· ≠ vertex)).length := by
    rw [unvisited, filter_filter]
    congr 2
    funext other
    simp [mem_cons, not_or]
  rw [hSplit, unvisited]
  apply length_filter_lt_length_iff_exists.mpr
  exact ⟨vertex, mem_filter.mpr ⟨hVertex, decide_eq_true hNew⟩, by simp⟩

/-- What every visit of a vertex without a mark keeps, and that it marks the vertex, is kept by the visits of a list. -/
theorem visitEach_rule {step : α → State α → Option (State α)} {good : State α → Prop} {targets : List α}
    {state : State α} {fuel : Nat}
    (hStep : ∀ target ∈ targets, ∀ state, good state → target ∉ state.visited →
      unvisited vertices state.visited ≤ fuel →
      ∃ next, step target state = some next ∧ good next ∧ target ∈ next.visited ∧ state.visited ⊆ next.visited)
    (hGood : good state) (hFuel : unvisited vertices state.visited ≤ fuel) :
    ∃ next, visitEach step targets state = some next ∧ good next ∧ targets ⊆ next.visited ∧
      state.visited ⊆ next.visited := by
  induction targets generalizing state with
  | nil => exact ⟨state, rfl, hGood, nil_subset _, List.Subset.refl _⟩
  | cons target targets ih =>
    have hOne : ∃ middle, (if target ∈ state.visited then some state else step target state) = some middle ∧
        good middle ∧ target ∈ middle.visited ∧ state.visited ⊆ middle.visited := by
      split
      case isTrue hMem => exact ⟨state, rfl, hGood, hMem, List.Subset.refl _⟩
      case isFalse hNew => exact hStep target mem_cons_self state hGood hNew hFuel
    obtain ⟨middle, hMiddle, hKept, hMarked, hGrows⟩ := hOne
    obtain ⟨next, hNext, hEnd, hTargets, hRest⟩ := ih (fun other hOther => hStep other (mem_cons_of_mem _ hOther))
      hKept (Nat.le_trans (unvisited_mono hGrows) hFuel)
    refine ⟨next, ?_, hEnd, cons_subset.mpr ⟨hRest hMarked, hTargets⟩, Subset.trans hGrows hRest⟩
    rw [visitEach, foldlM_cons, hMiddle]
    exact hNext

/-- What holds after the vertices of a list have been visited. -/
structure Visited (succ : α → List α) (vertices stack targets : List α) (state next : State α) : Prop where
  invariant : Invariant succ vertices stack next
  targets : ∀ vertex ∈ targets, vertex ∈ next.order
  grows : state.visited ⊆ next.visited
  keeps : state.order ⊆ next.order

theorem visitEach_spec {step : α → State α → Option (State α)} {targets : List α}
    (hStep : ∀ target ∈ targets, ∀ state, Invariant succ vertices stack state → target ∉ state.visited →
      unvisited vertices state.visited ≤ fuel →
      ∃ next, step target state = some next ∧ Visited succ vertices stack [target] state next)
    (hInvariant : Invariant succ vertices stack state) (hStack : ∀ target ∈ targets, target ∉ stack)
    (hFuel : unvisited vertices state.visited ≤ fuel) :
    ∃ next, visitEach step targets state = some next ∧ Visited succ vertices stack targets state next := by
  have hEach := @visitEach_rule α _ vertices step
    (fun next => Invariant succ vertices stack next ∧ state.order ⊆ next.order) targets state fuel
  obtain ⟨next, hNext, ⟨hEnd, hKeeps⟩, hTargets, hGrows⟩ := hEach
    (by
      intro target hTarget current ⟨hCurrent, hKept⟩ hNew hEnough
      obtain ⟨next, hNext, hVisited⟩ := hStep target hTarget current hCurrent hNew hEnough
      have hDone := hVisited.targets target (mem_singleton_self target)
      exact ⟨next, hNext, ⟨hVisited.invariant, Subset.trans hKept hVisited.keeps⟩,
        (hVisited.invariant.visited_iff target).mpr (.inl hDone), hVisited.grows⟩)
    ⟨hInvariant, List.Subset.refl _⟩ hFuel
  refine ⟨next, hNext, hEnd, fun target hTarget => ?_, hGrows, hKeeps⟩
  exact ((hEnd.visited_iff target).mp (hTargets hTarget)).resolve_right (hStack target hTarget)

theorem visit_spec (hAcyclic : Acyclic succ) (hClosed : ∀ vertex ∈ vertices, succ vertex ⊆ vertices) (fuel : Nat)
    {curr : α} (hInvariant : Invariant succ vertices stack state) (hCurr : curr ∈ vertices)
    (hNew : curr ∉ state.visited) (hStack : ∀ vertex ∈ stack, Relation.TransGen (Edge succ) vertex curr)
    (hFuel : unvisited vertices state.visited ≤ fuel) :
    ∃ next, visit succ fuel curr state = some next ∧ Visited succ vertices stack [curr] state next := by
  induction fuel generalizing stack curr state with
  | zero =>
    have hLess := unvisited_cons_lt hCurr hNew
    omega
  | succ fuel ih =>
    have hMarked : Invariant succ vertices (curr :: stack) { state with visited := curr :: state.visited } := by
      refine ⟨fun vertex => ?_, fun vertex hDone hOnStack => ?_, hInvariant.topological, hInvariant.known⟩
      · rw [mem_cons, mem_cons, hInvariant.visited_iff]
        exact or_left_comm
      · rcases mem_cons.mp hOnStack with rfl | hBelow
        · exact hNew ((hInvariant.visited_iff vertex).mpr (.inl hDone))
        · exact hInvariant.separate vertex hDone hBelow
    have hLess := unvisited_cons_lt hCurr hNew
    have hPath : ∀ target ∈ succ curr, ∀ vertex ∈ curr :: stack, Relation.TransGen (Edge succ) vertex target := by
      intro target hTarget vertex hVertex
      rcases mem_cons.mp hVertex with rfl | hOnStack
      · exact .single hTarget
      · exact (hStack vertex hOnStack).tail hTarget
    obtain ⟨middle, hMiddle, hVisited⟩ := visitEach_spec
      (fun target hTarget state hState hUnvisited hEnough =>
        ih hState (hClosed curr hCurr hTarget) hUnvisited (hPath target hTarget) hEnough)
      hMarked (fun target hTarget hOnStack => hAcyclic target (hPath target hTarget target hOnStack))
      (by dsimp only; omega)
    have hNotDone : curr ∉ middle.order :=
      fun hDone => hVisited.invariant.separate curr hDone mem_cons_self
    have hNotOnStack : curr ∉ stack := fun hOnStack => hNew ((hInvariant.visited_iff curr).mpr (.inr hOnStack))
    refine ⟨{ middle with order := middle.order ++ [curr] }, ?_, ?_, ?_, ?_, ?_⟩
    · rw [visit, hMiddle]
      rfl
    · constructor
      · intro vertex
        dsimp only
        rw [hVisited.invariant.visited_iff, mem_append, mem_cons, mem_singleton, or_assoc]
      · intro vertex hVertex hOnStack
        rcases mem_append.mp hVertex with hDone | hCurrent
        · exact hVisited.invariant.separate vertex hDone (mem_cons_of_mem _ hOnStack)
        · exact hNotOnStack (mem_singleton.mp hCurrent ▸ hOnStack)
      · rw [reverse_append]
        refine ⟨fun next hNext => ?_, ?_, hVisited.invariant.topological⟩
        · exact mem_reverse.mpr (hVisited.targets next hNext)
        · exact fun hDone => hNotDone (mem_reverse.mp hDone)
      · intro vertex hVertex
        rcases mem_append.mp hVertex with hDone | hCurrent
        · exact hVisited.invariant.known vertex hDone
        · exact mem_singleton.mp hCurrent ▸ hCurr
    · intro vertex hVertex
      rw [mem_singleton.mp hVertex]
      exact mem_append_right _ (mem_singleton_self curr)
    · exact fun vertex hVertex => hVisited.grows (mem_cons_of_mem _ hVertex)
    · exact fun vertex hVertex => mem_append_left _ (hVisited.keeps hVertex)

/-- With fuel for a path through all vertices, the search finds them all, each behind its successors. -/
theorem search_spec (hAcyclic : Acyclic succ) (hClosed : ∀ vertex ∈ vertices, succ vertex ⊆ vertices)
    (hFuel : vertices.length ≤ fuel) :
    ∃ order, search succ fuel vertices = some order ∧ Topological succ order.reverse ∧
      ∀ vertex, vertex ∈ order ↔ vertex ∈ vertices := by
  have hInitial : Invariant succ vertices [] ⟨[], []⟩ :=
    ⟨fun vertex => (or_self_iff).symm, fun _ h => absurd h not_mem_nil, trivial,
      fun _ h => absurd h not_mem_nil⟩
  have hEnough : unvisited vertices [] ≤ fuel := Nat.le_trans (length_filter_le _ _) hFuel
  obtain ⟨next, hNext, hVisited⟩ := visitEach_spec
    (fun target hTarget state hState hUnvisited hEnough =>
      visit_spec hAcyclic hClosed fuel hState hTarget hUnvisited (fun _ h => absurd h not_mem_nil) hEnough)
    hInitial (fun _ _ => not_mem_nil) hEnough
  refine ⟨next.order, ?_, hVisited.invariant.topological, fun vertex => ?_⟩
  · rw [search, hNext]
    rfl
  · exact ⟨hVisited.invariant.known vertex, hVisited.targets vertex⟩

end

end KushDB.DepthFirst
