import Mathlib.Data.List.Nodup
import KushDB.Library.DepthFirst

/-! # The order in which a depth-first search leaves the vertices

In any graph, cycles or not, every vertex but the root is left before one of its predecessors: before the vertex that
the search came from. This is all that the algorithms on top of the order need.
-/

namespace KushDB.DepthFirst

open List

variable {α : Type}

/-- The vertices that can be reached from the root, once each, the root last, and each other one before a
predecessor. -/
structure IsPostOrder (succ : α → List α) (root : α) (order : List α) : Prop where
  nodup : order.Nodup
  mem_iff : ∀ vertex, vertex ∈ order ↔ Relation.ReflTransGen (Edge succ) root vertex
  last : ∃ front, order = front ++ [root]
  parent : ∀ front vertex rest, order = front ++ vertex :: rest → vertex ≠ root → ∃ p ∈ rest, vertex ∈ succ p

/-- What holds while the vertices of the stack are on the path to the current one. -/
structure Leaving (succ : α → List α) (root : α) (stack : List α) (state : State α) : Prop where
  visited_iff : ∀ vertex, vertex ∈ state.visited ↔ vertex ∈ state.order ∨ vertex ∈ stack
  separate : ∀ vertex ∈ state.order, vertex ∉ stack
  nodup : state.order.Nodup
  closed : ∀ vertex ∈ state.order, succ vertex ⊆ state.visited
  reached : ∀ vertex ∈ state.visited, Relation.ReflTransGen (Edge succ) root vertex
  parent : ∀ front vertex rest, state.order = front ++ vertex :: rest → ∃ p, (p ∈ rest ∨ p ∈ stack) ∧ vertex ∈ succ p

variable {succ : α → List α} {root : α}

theorem IsPostOrder.root_mem {order : List α} (h : IsPostOrder succ root order) : root ∈ order :=
  (h.mem_iff root).mpr .refl

variable {curr vertex : α} {stack : List α} {state : State α}

theorem Leaving.mark (h : Leaving succ root stack state) (hNew : curr ∉ state.visited)
    (hReached : Relation.ReflTransGen (Edge succ) root curr) :
    Leaving succ root (curr :: stack) { state with visited := curr :: state.visited } := by
  constructor
  · intro vertex
    rw [mem_cons, mem_cons, h.visited_iff]
    exact or_left_comm
  · intro vertex hDone hOnStack
    rcases mem_cons.mp hOnStack with rfl | hBelow
    · exact hNew ((h.visited_iff vertex).mpr (.inl hDone))
    · exact h.separate vertex hDone hBelow
  · exact h.nodup
  · exact fun vertex hDone => Subset.trans (h.closed vertex hDone) (subset_cons_self _ _)
  · intro vertex hVertex
    rcases mem_cons.mp hVertex with rfl | hBefore
    · exact hReached
    · exact h.reached vertex hBefore
  · intro front vertex rest hOrder
    obtain ⟨p, hPlace, hEdge⟩ := h.parent front vertex rest hOrder
    exact ⟨p, hPlace.imp_right (mem_cons_of_mem _), hEdge⟩

/-- The current vertex goes behind the vertices that were left while it was on the path. -/
theorem Leaving.leave (h : Leaving succ root (curr :: stack) state) (hStack : curr ∉ stack)
    (hParent : ∃ p ∈ stack, curr ∈ succ p) (hNext : succ curr ⊆ state.visited) :
    Leaving succ root stack { state with order := state.order ++ [curr] } := by
  have hNotDone : curr ∉ state.order := fun hDone => h.separate curr hDone mem_cons_self
  constructor
  · intro vertex
    dsimp only
    rw [h.visited_iff, mem_append, mem_cons, mem_singleton, or_assoc]
  · intro vertex hVertex hOnStack
    rcases mem_append.mp hVertex with hDone | hCurrent
    · exact h.separate vertex hDone (mem_cons_of_mem _ hOnStack)
    · exact hStack (mem_singleton.mp hCurrent ▸ hOnStack)
  · exact nodup_append.mpr ⟨h.nodup, nodup_singleton curr, fun x hx y hy hEq =>
      hNotDone (mem_singleton.mp hy ▸ hEq ▸ hx)⟩
  · intro vertex hVertex
    rcases mem_append.mp hVertex with hDone | hCurrent
    · exact h.closed vertex hDone
    · exact mem_singleton.mp hCurrent ▸ hNext
  · exact h.reached
  · intro front vertex rest hOrder
    rcases eq_nil_or_concat rest with rfl | ⟨between, last, rfl⟩
    · obtain ⟨-, hLast⟩ := append_inj' hOrder rfl
      obtain ⟨p, hMem, hEdge⟩ := hParent
      exact ⟨p, .inr hMem, (List.cons.inj hLast).1 ▸ hEdge⟩
    · rw [concat_eq_append, ← cons_append, ← append_assoc] at hOrder
      obtain ⟨hFront, hLast⟩ := append_inj' hOrder rfl
      obtain ⟨p, hPlace, hEdge⟩ := h.parent front vertex between hFront
      refine ⟨p, ?_, hEdge⟩
      rw [concat_eq_append, mem_append, ← (List.cons.inj hLast).1, mem_singleton]
      rcases hPlace with hBetween | hOnStack
      · exact .inl (.inl hBetween)
      · rcases mem_cons.mp hOnStack with rfl | hBelow
        · exact .inl (.inr rfl)
        · exact .inr hBelow

variable [DecidableEq α] {vertices : List α}
variable {fuel : Nat}

section

variable (hClosed : ∀ vertex ∈ vertices, succ vertex ⊆ vertices)
include hClosed

/-- Searching the successors of a marked vertex. -/
theorem visit_successors
    (hVisit : ∀ stack curr (state : State α), Leaving succ root stack state → curr ∈ vertices → curr ∉ state.visited →
      (∃ p ∈ stack, curr ∈ succ p) → unvisited vertices state.visited ≤ fuel →
      ∃ next, visit succ fuel curr state = some next ∧ Leaving succ root stack next ∧ curr ∈ next.visited ∧
        state.visited ⊆ next.visited) (h : Leaving succ root (curr :: stack) state) (hCurr : curr ∈ vertices)
    (hFuel : unvisited vertices state.visited ≤ fuel) :
    ∃ next, visitEach (visit succ fuel) (succ curr) state = some next ∧ Leaving succ root (curr :: stack) next ∧
      succ curr ⊆ next.visited ∧ state.visited ⊆ next.visited := by
  apply visitEach_rule (fun target hTarget state hState hNew hEnough => ?_) h hFuel
  exact hVisit _ target state hState (hClosed curr hCurr hTarget) hNew ⟨curr, mem_cons_self, hTarget⟩ hEnough

theorem visit_leaving (fuel : Nat) :
    ∀ stack curr (state : State α), Leaving succ root stack state → curr ∈ vertices → curr ∉ state.visited →
      (∃ p ∈ stack, curr ∈ succ p) → unvisited vertices state.visited ≤ fuel →
      ∃ next, visit succ fuel curr state = some next ∧ Leaving succ root stack next ∧ curr ∈ next.visited ∧
        state.visited ⊆ next.visited := by
  induction fuel with
  | zero =>
    intro stack curr state _ hCurr hNew _ hFuel
    have hLess := unvisited_cons_lt hCurr hNew
    omega
  | succ fuel ih =>
    intro stack curr state h hCurr hNew hParent hFuel
    obtain ⟨p, hOnStack, hEdge⟩ := hParent
    have hReached := (h.reached p ((h.visited_iff p).mpr (.inr hOnStack))).tail hEdge
    have hLess := unvisited_cons_lt hCurr hNew
    obtain ⟨middle, hMiddle, hLeaving, hNext, hGrows⟩ := visit_successors hClosed ih (h.mark hNew hReached) hCurr
      (by dsimp only; omega)
    have hNotOnStack : curr ∉ stack := fun hMem => hNew ((h.visited_iff curr).mpr (.inr hMem))
    refine ⟨{ middle with order := middle.order ++ [curr] }, ?_, hLeaving.leave hNotOnStack ⟨p, hOnStack, hEdge⟩ hNext,
      hGrows mem_cons_self, fun vertex hVertex => hGrows (mem_cons_of_mem _ hVertex)⟩
    rw [visit, hMiddle]
    rfl

/-- With fuel for a path through all vertices, the search from the root ends and gives such an order. -/
theorem search_isPostOrder (hRoot : root ∈ vertices) (hFuel : vertices.length ≤ fuel) :
    ∃ order, search succ fuel [root] = some order ∧ IsPostOrder succ root order := by
  have hInitial : Leaving succ root [] ⟨[], []⟩ :=
    ⟨fun vertex => (or_self_iff).symm, fun _ h => absurd h not_mem_nil, nodup_nil,
      fun _ h => absurd h not_mem_nil, fun _ h => absurd h not_mem_nil, fun front _ _ h => by simp at h⟩
  have hLess := unvisited_cons_lt hRoot (@List.not_mem_nil α root)
  have hAll : unvisited vertices [] ≤ vertices.length := length_filter_le _ _
  obtain ⟨fuel, rfl⟩ : ∃ less, fuel = less + 1 := ⟨fuel - 1, by omega⟩
  obtain ⟨middle, hMiddle, hLeaving, hNext, hGrows⟩ := visit_successors hClosed (visit_leaving hClosed fuel)
    (hInitial.mark not_mem_nil .refl) hRoot (by dsimp only; omega)
  refine ⟨middle.order ++ [root], ?_, ?_, ?_, ⟨_, rfl⟩, ?_⟩
  · rw [search, visitEach, foldlM_cons, if_neg not_mem_nil, visit, hMiddle]
    rfl
  · exact nodup_append.mpr ⟨hLeaving.nodup, nodup_singleton root, fun x hx y hy hEq =>
      hLeaving.separate x hx (hEq ▸ hy)⟩
  · have hVisited : ∀ vertex, vertex ∈ middle.order ++ [root] ↔ vertex ∈ middle.visited := by
      intro vertex
      rw [mem_append, hLeaving.visited_iff]
    intro vertex
    rw [hVisited]
    refine ⟨hLeaving.reached vertex, fun hPath => ?_⟩
    induction hPath with
    | refl => exact hGrows mem_cons_self
    | tail _ hEdge ih =>
      rcases (hLeaving.visited_iff _).mp ih with hDone | hCurrent
      · exact hLeaving.closed _ hDone hEdge
      · exact hNext (mem_singleton.mp hCurrent ▸ hEdge)
  · intro front vertex rest hOrder hNe
    rcases eq_nil_or_concat rest with rfl | ⟨between, last, rfl⟩
    · exact absurd (List.cons.inj (append_inj' hOrder rfl).2).1.symm hNe
    · rw [concat_eq_append, ← cons_append, ← append_assoc] at hOrder
      obtain ⟨hFront, hLast⟩ := append_inj' hOrder rfl
      obtain ⟨p, hPlace, hEdge⟩ := hLeaving.parent front vertex between hFront
      refine ⟨p, ?_, hEdge⟩
      rw [concat_eq_append, mem_append, ← (List.cons.inj hLast).1]
      exact hPlace

end

/-! ## The order as a numbering -/

variable {order : List α}

theorem idxOf_lt_of_mem_rest {front rest : List α} {other : α} (hNodup : (front ++ vertex :: rest).Nodup)
    (hOther : other ∈ rest) : (front ++ vertex :: rest).idxOf vertex < (front ++ vertex :: rest).idxOf other := by
  obtain ⟨-, hRest, hApart⟩ := nodup_append.mp hNodup
  have hVertex : vertex ∉ front := fun hMem => hApart vertex hMem vertex mem_cons_self rfl
  have hLater : other ∉ front := fun hMem => hApart other hMem other (mem_cons_of_mem _ hOther) rfl
  have hNe : vertex ≠ other := fun hEq => (nodup_cons.mp hRest).1 (hEq ▸ hOther)
  rw [idxOf_append_of_notMem hVertex, idxOf_append_of_notMem hLater, idxOf_cons_self,
    idxOf_cons_ne _ hNe]
  omega

theorem IsPostOrder.exists_parent (h : IsPostOrder succ root order) (hMem : vertex ∈ order) (hNe : vertex ≠ root) :
    ∃ p ∈ order, vertex ∈ succ p ∧ order.idxOf vertex < order.idxOf p := by
  obtain ⟨front, rest, rfl⟩ := append_of_mem hMem
  obtain ⟨p, hRest, hEdge⟩ := h.parent front vertex rest rfl hNe
  exact ⟨p, mem_append_right _ (mem_cons_of_mem _ hRest), hEdge, idxOf_lt_of_mem_rest h.nodup hRest⟩

theorem IsPostOrder.lt_root (h : IsPostOrder succ root order) (hMem : vertex ∈ order) (hNe : vertex ≠ root) :
    order.idxOf vertex < order.idxOf root := by
  obtain ⟨front, hLast⟩ := h.last
  obtain ⟨first, rest, hSplit⟩ := append_of_mem hMem
  rcases eq_nil_or_concat rest with rfl | ⟨between, last, rfl⟩
  · exact absurd (List.cons.inj (append_inj' (hSplit.symm.trans hLast) rfl).2).1 hNe
  · rw [hLast, concat_eq_append, ← cons_append, ← append_assoc] at hSplit
    have hEq := (List.cons.inj (append_inj' hSplit rfl).2).1
    rw [hLast, hSplit, append_assoc, cons_append]
    apply idxOf_lt_of_mem_rest
    · rw [← cons_append, ← append_assoc, ← hSplit, ← hLast]
      exact h.nodup
    · exact mem_append_right _ (mem_singleton.mpr hEq)

end KushDB.DepthFirst
