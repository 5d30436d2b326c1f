import KushDB.Skinner.Flags
import KushDB.Skinner.LoopTrace

/-! # The permutable engine

Each table has one compiled function. A join order is wired by storing, for every table, the function to call
for a row that passes, and by toggling the predicate flags; the functions read both while they run.
The nesting depth bounds the calls: a wired order never calls deeper than it has tables.
-/

namespace KushDB.Skinner

open Loops List

inductive Handler (n : Nat)
  | table (next : Fin n)
  | validTuple

structure Wiring (n : Nat) where
  handler : Fin n → Handler n
  flagArr : Nat → Bool

section

variable {n : Nat} {V : Type} [DecidableEq V] (q : Query n V) (hash : HashOrder n)

def tableFunction (wiring : Wiring n) : Nat → Fin n → Int → Bool → Globals n V → Option (Int × Globals n V)
  | 0, _, _, _, _ => none
  | depth + 1, table, initialBudget, resumeProgress, g =>
    let handler := match wiring.handler table with
      | .validTuple => fun budget _ g => some (validTupleHandler budget g)
      | .table next => tableFunction wiring depth next
    -- The struct is unpacked once, on entry.
    let values := g.predicateStruct
    let conditions := q.enabled hash wiring.flagArr table
    let passes := fun (_ : Globals n V) row =>
      conditions.all fun condition => condition.compute (q.withRow table row values) = some true
    q.tableBody table passes handler values conditions (fun buckets => !buckets.isEmpty) passes initialBudget
      resumeProgress g

def setJoinOrder : List (Fin n) → (Fin n → Handler n) → Fin n → Handler n
  | [], handler => handler
  | [last], handler => Function.update handler last .validTuple
  | table :: next :: rest, handler => setJoinOrder (next :: rest) (Function.update handler table (.table next))

/-- `SetJoinOrder` and `TogglePredicateFlags`, and `PermutableCache::Order`, which does the same. -/
def wireOrder (order : List (Fin n)) (wiring : Wiring n) : Except JoinError (Wiring n) :=
  (q.togglePredicateFlags hash order wiring.flagArr).map fun flagArr => ⟨setJoinOrder order wiring.handler, flagArr⟩

/-- The function of an order's first table. -/
def permutableFunction (wiring : Wiring n) (order : List (Fin n)) (budget : Int) (resumeProgress : Bool)
    (g : Globals n V) : Option (Int × Globals n V) :=
  order.head?.bind fun table => tableFunction q hash wiring n table budget resumeProgress g

end

section

variable {n : Nat} {V : Type} {q : Query n V} {hash : HashOrder n}

def Wired (handler : Fin n → Handler n) : List (Fin n) → Prop
  | [] => True
  | [last] => handler last = .validTuple
  | table :: next :: rest => handler table = .table next ∧ Wired handler (next :: rest)

variable {order : List (Fin n)}

theorem setJoinOrder_of_notMem {table : Fin n} (h : table ∉ order) (handler : Fin n → Handler n) :
    setJoinOrder order handler table = handler table := by
  fun_induction setJoinOrder order handler with
  | case1 => rfl
  | case2 handler last => exact Function.update_of_ne (by simpa using h) _ _
  | case3 handler first next rest ih =>
    obtain ⟨hFirst, hRest⟩ := not_or.mp (fun hOr => h (mem_cons.mpr hOr))
    rw [ih hRest, Function.update_of_ne hFirst]

theorem wired_setJoinOrder (hNodup : order.Nodup) (handler : Fin n → Handler n) :
    Wired (setJoinOrder order handler) order := by
  fun_induction setJoinOrder order handler with
  | case1 => trivial
  | case2 handler last => exact Function.update_self _ _ _
  | case3 handler table next rest ih =>
    obtain ⟨hFresh, hRest⟩ := nodup_cons.mp hNodup
    refine ⟨?_, ih hRest⟩
    rw [setJoinOrder_of_notMem hFresh, Function.update_self]

/-- After toggling, a table function checks exactly the conditions due at its table. -/
theorem mem_enabled {order : JoinOrder n} (hPrefix : q.prefixOrder <+: order.tables) {flagArr flags : Nat → Bool}
    (hToggle : q.togglePredicateFlags hash order.tables flagArr = .ok flags) (table : Fin n)
    (condition : Condition n V) :
    condition ∈ q.enabled hash flags table ↔ condition ∈ q.due order.tables table := by
  have hSpec := @togglePredicateFlags_spec n V q hash order hPrefix flagArr
  have hTables : order.tables ≠ [] := ne_nil_of_mem (order.complete table)
  split at hSpec
  · rename_i hAll
    obtain ⟨same, hSame, hFlags⟩ := hSpec
    rw [hToggle] at hSame
    cases hSame
    simp only [Query.enabled, mem_filterMap, (hash.entries_perm _).mem_iff, Prod.exists,
      Option.ite_none_right_eq_some, Query.due, mem_filter, decide_eq_true_eq]
    constructor
    · rintro ⟨pred, other, flag, hEntry, ⟨rfl, hSet⟩, hCondition⟩
      have hLookup := (lookup_eq_some (predTableToFlag_keys ▸ flagKeys_nodup)).mpr hEntry
      exact ⟨mem_of_getElem? hCondition, (hFlags pred condition other flag hCondition hLookup).mp hSet⟩
    · rintro ⟨hCondition, hLast⟩
      obtain ⟨pred, hPred⟩ := mem_iff_getElem?.mp hCondition
      obtain ⟨before, after, hOrder⟩ := append_of_mem (order.complete table)
      have hIn := ((lastTable_eq_some (hOrder ▸ order.nodup)).mp (hOrder ▸ hLast)).1
      obtain ⟨other, hOther, hFirst⟩ := hAll condition hCondition
      obtain ⟨flag, hFlag⟩ := Option.isSome_iff_exists.mp (isSome_lookup_predTableToFlag.mpr
        ⟨condition, hPred, hIn, head_ne_lastTable hPrefix hOther hFirst hLast⟩)
      exact ⟨pred, table, flag, (lookup_eq_some (predTableToFlag_keys ▸ flagKeys_nodup)).mp hFlag,
        ⟨rfl, (hFlags pred condition table flag hPred hFlag).mpr hLast⟩, hPred⟩
  · rw [hSpec hTables] at hToggle
    cases hToggle

end

section

variable {n : Nat} {V : Type} [DecidableEq V] {q : Query n V} {hash : HashOrder n} {offset progress : Fin n → Int}

theorem validTuple_walks {order before : List (Fin n)} {path : List Int} (resume : Bool) (budget : Int) {g : Globals n V}
    (hAligned : Aligned q offset progress order before path g) :
    Walks q offset progress order before path budget (q.traceBelow offset progress order [] path resume)
      (g.entered true) (some (validTupleHandler budget g)) :=
  ⟨_, rfl, rfl, ⟨hAligned.offsetArr, hAligned.progressArr, hAligned.values⟩⟩

/-- The wired table functions walk along the trace of their join order. -/
theorem tableFunction_walks {wiring : Wiring n} {before after : List (Fin n)} {table : Fin n} {path : List Int}
    (hOrder : SplitOrder before table after) (hLength : path.length = before.length)
    (hWired : Wired wiring.handler (table :: after))
    (hEnabled : ∀ other condition, condition ∈ q.enabled hash wiring.flagArr other ↔
      condition ∈ q.due (before ++ table :: after) other)
    {depth : Nat} (hDepth : after.length < depth) {budget : Int} (hBudget : 1 ≤ budget) (resume : Bool) {g : Globals n V}
    (hAligned : Aligned q offset progress (before ++ table :: after) before path g) :
    WalksFrom q offset progress before after table path budget resume g
      (tableFunction q hash wiring depth table budget resume g) := by
  induction after generalizing before table path depth budget resume g with
  | nil =>
    obtain ⟨depth, rfl⟩ := Nat.exists_eq_succ_of_ne_zero (Nat.ne_zero_of_lt hDepth)
    have hHandler : wiring.handler table = .validTuple := hWired
    have hPasses := passes_eq_levelAccepts hOrder hLength (hEnabled table) hAligned.values
    rw [tableFunction]
    simp only [hHandler]
    exact tableBody_walks hOrder hLength (hEnabled table) hAligned (fun _ _ => rfl) (fun _ _ => hPasses)
      (fun _ _ _ _ row _ => hPasses row) (fun row budget flag g _ hg => validTuple_walks flag budget hg) hBudget resume
  | cons next after ih =>
    obtain ⟨depth, rfl⟩ := Nat.exists_eq_succ_of_ne_zero (Nat.ne_zero_of_lt hDepth)
    have hPasses := passes_eq_levelAccepts hOrder hLength (hEnabled table) hAligned.values
    rw [tableFunction]
    simp only [hWired.1]
    refine tableBody_walks hOrder hLength (hEnabled table) hAligned (fun _ _ => rfl) (fun _ _ => hPasses)
      (fun _ _ _ _ row _ => hPasses row) (fun row budget flag g hPos hg => ?_) hBudget resume
    have hSplit : before ++ table :: next :: after = (before ++ [table]) ++ next :: after := by simp
    have hNext := @ih (before ++ [table]) next (path ++ [row]) ⟨hSplit ▸ hOrder.nodup, hSplit ▸ hOrder.complete⟩
      (by simp [hLength]) hWired.2 (hSplit ▸ hEnabled) depth (by simpa using hDepth) budget hPos flag g (hSplit ▸ hg)
    rw [WalksFrom, ← hSplit] at hNext
    exact hNext

end

end KushDB.Skinner
