import KushDB.Skinner.LastCompleted
import KushDB.Skinner.Termination
import KushDB.Skinner.Uct
import Mathlib.Algebra.Order.Field.Rat
import Mathlib.Tactic.FieldSimp

/-! # Rewards

The reward of an episode is the difference of two counters, whose digits are the rows of the two tuples from the
offsets on. The tuple an episode ends at lies at or above the marks it was resumed at, and moving the
first offset up to it does not turn the two around.
-/

namespace KushDB.Skinner

open Loops Odometer List

section

variable {n : Nat} {cardinality offset initial final : Fin n → Int} {tables : List (Fin n)}

section

variable (hOffset : ∀ table, offset table < cardinality table) (hInitial : ∀ table, initial table < cardinality table)

include hOffset hInitial

end

/-! ## The offsets after the update -/

end

/-! ## Episodes -/

section

variable {n : Nat} {V : Type} [DecidableEq V] {q : Query n V} {budget : Int} {join : JoinState n} {order : JoinOrder n}
  {made : List (Visit (Fin n))} {final : List Int}

/-- The tuple an episode is resumed at, as a vector. -/
def Query.initialTuple (q : Query n V) (join : JoinState n) (order : List (Fin n)) : Fin n → Int :=
  assign order ((join.getLastCompletedTupleIdx q.cardinality order).getD (order.map fun _ => -1))

variable {hash : HashOrder n} {state next : PermutableState n V} {episodeReward : Rat}

end

end KushDB.Skinner
