import KushDB.Skinner.Advance
import Mathlib.Algebra.BigOperators.Fin
import Mathlib.Algebra.Order.BigOperators.Group.Finset
import Mathlib.Algebra.Order.BigOperators.Ring.Finset
import Mathlib.Data.Fintype.Perm

/-! # Every join ends

With a budget of twice the number of tables, no episode throws for lack of progress, every episode that does not
finish the join moves its own order forward, and none moves another order back. The tuples that all orders together
have completed are a measure that bounds the number of episodes.
-/

namespace KushDB.Skinner

open Loops Odometer

section

variable {n : Nat} {cardinality : Fin n → Int} {join next : JoinState n} {order : JoinOrder n} {final : List Int}

theorem update_total (hOpen : join.finished = false) (hLength : order.tables.length = final.length)
    (h : along join.root order.tables ≤ final) : ∃ next, join.update cardinality order.tables final = .ok next := by
  obtain ⟨root, hRoot⟩ := (updateTree_ok_iff hLength join.root).mpr h
  unfold JoinState.update
  simp only [hOpen, Bool.false_eq_true, if_false, hRoot, Except.map]
  split
  · exact ⟨_, rfl⟩
  · exact ⟨_, rfl⟩

section

variable (hRecorded : Recorded cardinality join) (hCard : ∀ table, 0 < cardinality table) (hTables : 0 < n)
  (hFinal : InRange (order.tables.map cardinality) final)
  (hUpdate : join.update cardinality order.tables final = .ok next)

include hFinal hUpdate

include hRecorded hCard hTables

end

end

section

variable {n : Nat} {V : Type} [DecidableEq V] {q : Query n V} {hash : HashOrder n} {budget : Int}
  (hCard : ∀ table, 0 < q.cardinality table) (hTables : 0 < n) {state : PermutableState n V} {order : JoinOrder n}
  (hPrefix : q.prefixOrder <+: order.tables) (hRecorded : Recorded q.cardinality state.join)

include hCard hTables hPrefix hRecorded

/-- An episode with enough room returns, or a condition has no flag to look up. -/
theorem execute_total (hOpen : state.join.finished = false) (hBudget : n < budget) (hRoom : n ≤ 3 ∨ 2 * n ≤ budget) :
    (execute q hash budget order.tables state = .error .outOfRange ∧
      ∃ condition ∈ q.conditions, ∀ table ∈ condition.tables, q.prefixOrder.head? = some table) ∨
    ∃ result, execute q hash budget order.tables state = .ok result := by
  have hBounds := hRecorded.inBounds hCard
  rcases execute_spec hBounds hPrefix hTables (show 1 ≤ budget by omega) with
    hError | ⟨made, final, tuples, wiring, globals, hEnds, _, _, hExecute⟩
  · exact Or.inl hError
  · right
    have hLength : order.tables.length = final.length := by simpa using (hEnds.inRange hBounds).length_eq
    obtain ⟨next, hNext⟩ := @update_total n q.cardinality state.join order final hOpen hLength
      (along_le_final hRecorded hCard hTables hEnds hBudget hRoom)
    exact ⟨_, by rw [hExecute, hNext]; rfl⟩

end

section

variable {n : Nat} {V : Type} [DecidableEq V] {q : Query n V} {hash : HashOrder n} {budget : Int}

/-- No run of a join is aborted by its own records: with at most three tables any budget above their number will do,
with more it takes a budget of twice their number. -/
theorem execute_not_aborted (hCard : ∀ table, 0 < q.cardinality table) (hTables : 0 < n) (hBudget : n < budget)
    (hRoom : n ≤ 3 ∨ 2 * n ≤ budget) {state : PermutableState n V} (h : Reached q hash budget state)
    (hOpen : state.join.finished = false) (order : JoinOrder n) (hPrefix : q.prefixOrder <+: order.tables) :
    execute q hash budget order.tables state ≠ .error .negativeProgress ∧
      execute q hash budget order.tables state ≠ .error .alreadyDone := by
  have hRecorded := h.recorded hCard hTables (by omega)
  rcases execute_total hCard hTables hPrefix hRecorded hOpen hBudget hRoom with ⟨hError, _⟩ | ⟨result, hOk⟩
  · rw [hError]
    exact ⟨nofun, nofun⟩
  · rw [hOk]
    exact ⟨nofun, nofun⟩

end

/-- Four tables and one condition that fails on every pair of rows. -/
def partedJoin : Query 4 Nat where
  cardinality := fun table => [2, 3, 1, 1].getD table.val 0
  value := fun _ _ => some 0
  conditions := [.general [⟨1, 0⟩, ⟨2, 0⟩] (fun _ => some false) fun _ _ _ => rfl]
  prefixOrder := []

def partedStart : PermutableState 4 Nat :=
  ⟨.initial, ⟨fun _ => .validTuple, fun _ => false⟩,
    ⟨fun _ => 0, 0, ⟨[], [], 0⟩, fun _ => -1, fun _ => -1, fun _ => none⟩⟩

/-- The second order parts from the first after two tables, and five visits do not take it past the path
that the first has stored on them. -/
theorem partedJoin_aborts : ∃ episodeReward next,
    execute partedJoin (.inserted 4) 5 [0, 1, 2, 3] partedStart = .ok (episodeReward, next) ∧
      Reached partedJoin (.inserted 4) 5 next ∧ next.join.finished = false ∧
      execute partedJoin (.inserted 4) 5 [0, 1, 3, 2] next = .error .negativeProgress := by
  refine ⟨_, _, rfl, ?_, rfl, rfl⟩
  exact .episode ⟨[0, 1, 2, 3], by decide, by decide⟩ _ (by decide) (.start _ _ rfl rfl) rfl

/-- Eight visits take it past. -/
theorem partedJoin_not_aborted : ∃ episodeReward next,
    execute partedJoin (.inserted 4) 8 [0, 1, 2, 3] partedStart = .ok (episodeReward, next) ∧
      execute partedJoin (.inserted 4) 8 [0, 1, 3, 2] next ≠ .error .negativeProgress ∧
      execute partedJoin (.inserted 4) 8 [0, 1, 3, 2] next ≠ .error .alreadyDone := by
  refine ⟨_, _, rfl, ?_⟩
  have hReached := Reached.episode ⟨[0, 1, 2, 3], by decide, by decide⟩ _ (by decide)
    (.start partedStart.wiring partedStart.globals rfl rfl)
    (rfl : execute partedJoin (.inserted 4) 8 [0, 1, 2, 3] partedStart = .ok (_, _))
  exact execute_not_aborted (by decide) (by decide) (by decide) (by decide) hReached rfl
    ⟨[0, 1, 3, 2], by decide, by decide⟩ (by decide)

/-! ## The number of episodes -/

section

variable {n : Nat} {cardinality : Fin n → Int}

def completedTuples (bases : List Int) : Option (List Int) → Int
  | none => 0
  | some last => value bases last + 1

def JoinOrder.ofPerm (choice : Equiv.Perm (Fin n)) : JoinOrder n where
  tables := (List.finRange n).map choice
  nodup := (List.nodup_finRange n).map choice.injective
  complete table := List.mem_map.mpr ⟨choice.symm table, List.mem_finRange _, choice.apply_symm_apply table⟩

/-- The tuples that all orders together have completed. -/
def progress (cardinality : Fin n → Int) (join : JoinState n) : Int :=
  ∑ choice : Equiv.Perm (Fin n), completedTuples ((JoinOrder.ofPerm choice).tables.map cardinality)
    (join.getLastCompletedTupleIdx cardinality (JoinOrder.ofPerm choice).tables)

variable {join : JoinState n}

section

variable (hCard : ∀ table, 0 < cardinality table) {join next : JoinState n} (hRecorded : Recorded cardinality join)
  (hNext : Recorded cardinality next) {order : JoinOrder n}

include hCard hRecorded hNext

end

end

section

variable {n : Nat} {V : Type} [DecidableEq V] {q : Query n V} {hash : HashOrder n} {budget : Int}
  (hCard : ∀ table, 0 < q.cardinality table) (hTables : 0 < n) (hTwice : 2 * n ≤ budget)

include hCard hTables hTwice

end

end KushDB.Skinner
