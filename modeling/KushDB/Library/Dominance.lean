import Mathlib.Data.List.Nodup
import Mathlib.Data.List.Perm.Subperm
import Mathlib.Logic.Relation

/-! # Dominance in a graph with an entry

A vertex dominates another if every walk from the entry to the other passes it. It is enough to look at walks with
few edges against an order of the vertices.
-/

namespace KushDB.Dominance

open List

variable {α : Type}

/-- A walk from the root, with the vertices that it passes, the last one first. -/
inductive Walk (edge : α → α → Prop) (root : α) : α → List α → Prop
  | start : Walk edge root root [root]
  | step {v w : α} {passed : List α} : Walk edge root v passed → edge v w → Walk edge root w (w :: passed)

abbrev Reachable (edge : α → α → Prop) (root v : α) : Prop := Relation.ReflTransGen edge root v

def Dominates (edge : α → α → Prop) (root i v : α) : Prop := ∀ passed, Walk edge root v passed → i ∈ passed

variable {edge : α → α → Prop} {root : α}
variable {passed : List α} {v w i : α} {k : Nat}

theorem Walk.mem (h : Walk edge root v passed) : v ∈ passed := by
  cases h with
  | start => exact mem_singleton_self root
  | step _ _ => exact mem_cons_self

variable {rest : List α} {count : Nat}

theorem Walk.inv (h : Walk edge root v (w :: rest)) :
    v = w ∧ (w = root ∧ rest = [] ∨ ∃ u, Walk edge root u rest ∧ edge u w) := by
  cases h with
  | start => exact ⟨rfl, .inl ⟨rfl, rfl⟩⟩
  | step hWalk hEdge => exact ⟨rfl, .inr ⟨_, hWalk, hEdge⟩⟩

theorem Walk.reachable (h : Walk edge root v passed) : Reachable edge root v := by
  induction h with
  | start => exact .refl
  | step _ hEdge ih => exact ih.tail hEdge

theorem Walk.reachable_of_mem (h : Walk edge root v passed) (hMem : w ∈ passed) : Reachable edge root w := by
  induction h with
  | start => exact mem_singleton.mp hMem ▸ .refl
  | step hWalk hEdge ih =>
    rcases mem_cons.mp hMem with rfl | hEarlier
    · exact hWalk.reachable.tail hEdge
    · exact ih hEarlier

/-- A walk can be cut at any vertex that it passes. -/
theorem Walk.cut {later : List α} (h : Walk edge root v (later ++ w :: rest)) : Walk edge root w (w :: rest) := by
  induction later generalizing v with
  | nil => exact h.inv.1 ▸ h
  | cons first later ih =>
    rcases h.inv.2 with ⟨-, hNil⟩ | ⟨u, hWalk, -⟩
    · exact absurd hNil (by simp)
    · exact ih hWalk

/-- Leaving out its cycles makes a walk pass no vertex twice. -/
theorem Walk.simple (h : Walk edge root v passed) : ∃ fewer, Walk edge root v fewer ∧ fewer.Nodup ∧ fewer ⊆ passed := by
  induction h with
  | start => exact ⟨[root], .start, nodup_singleton root, List.Subset.refl _⟩
  | @step v w passed _ hEdge ih =>
    obtain ⟨fewer, hWalk, hNodup, hSubset⟩ := ih
    by_cases hMem : w ∈ fewer
    · obtain ⟨later, rest, rfl⟩ := append_of_mem hMem
      refine ⟨w :: rest, hWalk.cut, (nodup_append.mp hNodup).2.1, fun x hx => ?_⟩
      exact mem_cons_of_mem _ (hSubset (mem_append_right _ hx))
    · exact ⟨w :: fewer, hWalk.step hEdge, nodup_cons.mpr ⟨hMem, hNodup⟩, cons_subset_cons w hSubset⟩

/-- A walk goes on along a path whose vertices have a property. -/
theorem Walk.extend {keep : α → Prop} {u v : α} {passed : List α} (h : Walk edge root u passed)
    (hPath : Relation.ReflTransGen (fun x y => edge x y ∧ keep y) u v) :
    ∃ longer, Walk edge root v longer ∧ ∀ x ∈ longer, x ∈ passed ∨ keep x := by
  induction hPath with
  | refl => exact ⟨passed, h, fun x hx => .inl hx⟩
  | tail _ hEdge ih =>
    obtain ⟨longer, hWalk, hKeep⟩ := ih
    refine ⟨_, hWalk.step hEdge.1, fun x hx => ?_⟩
    rcases mem_cons.mp hx with rfl | hEarlier
    · exact .inr hEdge.2
    · exact hKeep x hEarlier

/-- A strict dominator of a vertex dominates every predecessor. -/
theorem Dominates.pred (h : Dominates edge root i w) (hNe : i ≠ w) (hEdge : edge v w) : Dominates edge root i v :=
  fun _ hWalk => (mem_cons.mp (h _ (hWalk.step hEdge))).resolve_left hNe

/-! ## Walks with a bounded number of edges against a direction -/

/-- At most so many edges of the walk are not forward ones. -/
inductive Bounded (edge forward : α → α → Prop) (root : α) : Nat → α → List α → Prop
  | start (k : Nat) : Bounded edge forward root k root [root]
  | forward {k : Nat} {v w : α} {passed : List α} : Bounded edge forward root k v passed → edge v w → forward v w →
      Bounded edge forward root k w (w :: passed)
  | back {k : Nat} {v w : α} {passed : List α} : Bounded edge forward root k v passed → edge v w →
      Bounded edge forward root (k + 1) w (w :: passed)

variable {forward : α → α → Prop}

theorem Bounded.mono {more : Nat} (h : Bounded edge forward root k v passed) (hLe : k ≤ more) :
    Bounded edge forward root more v passed := by
  induction h generalizing more with
  | start => exact .start more
  | forward _ hEdge hForward ih => exact (ih hLe).forward hEdge hForward
  | back _ hEdge ih =>
    obtain ⟨less, rfl⟩ : ∃ less, more = less + 1 := ⟨more - 1, by omega⟩
    exact (ih (by omega)).back hEdge

theorem Bounded.walk (h : Bounded edge forward root k v passed) : Walk edge root v passed := by
  induction h with
  | start => exact .start
  | forward _ hEdge _ ih => exact ih.step hEdge
  | back _ hEdge ih => exact ih.step hEdge

theorem Walk.bounded (h : Walk edge root v passed) : Bounded edge forward root (passed.length - 1) v passed := by
  induction h with
  | start => exact .start 0
  | @step v w passed hWalk hEdge ih =>
    have hPos := length_pos_of_mem hWalk.mem
    exact (ih.back hEdge).mono (by rw [length_cons]; omega)

theorem Bounded.cut (h : Bounded edge forward root k v passed) (hMem : w ∈ passed) :
    ∃ rest, Bounded edge forward root k w rest ∧ rest ⊆ passed := by
  induction h with
  | start => exact ⟨[root], mem_singleton.mp hMem ▸ .start _, List.Subset.refl _⟩
  | forward hBounded hEdge hForward ih =>
    rcases mem_cons.mp hMem with rfl | hEarlier
    · exact ⟨_, hBounded.forward hEdge hForward, List.Subset.refl _⟩
    · obtain ⟨rest, hRest, hSubset⟩ := ih hEarlier
      exact ⟨rest, hRest, Subset.trans hSubset (subset_cons_self _ _)⟩
  | back hBounded hEdge ih =>
    rcases mem_cons.mp hMem with rfl | hEarlier
    · exact ⟨_, hBounded.back hEdge, List.Subset.refl _⟩
    · obtain ⟨rest, hRest, hSubset⟩ := ih hEarlier
      exact ⟨rest, hRest.mono (Nat.le_succ _), Subset.trans hSubset (subset_cons_self _ _)⟩

/-- The vertices on all walks with fewer than so many edges against the direction. -/
def OnBounded (edge forward : α → α → Prop) (root : α) (count : Nat) (i v : α) : Prop :=
  ∀ k < count, ∀ passed, Bounded edge forward root k v passed → i ∈ passed

theorem OnBounded.mono {less : Nat} (h : OnBounded edge forward root count i v) (hLe : less ≤ count) :
    OnBounded edge forward root less i v :=
  fun k hk => h k (by omega)

theorem OnBounded.refl (count : Nat) (v : α) : OnBounded edge forward root count v v :=
  fun _ _ _ hBounded => hBounded.walk.mem

theorem OnBounded.trans {j : α} (hFirst : OnBounded edge forward root count i j)
    (hSecond : OnBounded edge forward root count j v) : OnBounded edge forward root count i v := by
  intro k hk passed hBounded
  obtain ⟨rest, hRest, hSubset⟩ := hBounded.cut (hSecond k hk passed hBounded)
  exact hSubset (hFirst k hk rest hRest)

/-- A walk through each of finitely many vertices at most once has few edges of either kind. -/
theorem OnBounded.dominates {vertices : List α} (hVertices : ∀ w, Reachable edge root w → w ∈ vertices)
    (h : OnBounded edge forward root vertices.length i v) : Dominates edge root i v := by
  intro passed hWalk
  obtain ⟨fewer, hFewer, hNodup, hSubset⟩ := hWalk.simple
  have hLength : fewer.length ≤ vertices.length :=
    (subperm_of_subset hNodup fun w hw => hVertices w (hFewer.reachable_of_mem hw)).length_le
  have hPos := length_pos_of_mem hFewer.mem
  exact hSubset (h _ (by omega) fewer hFewer.bounded)

end KushDB.Dominance
