import KushDB.Skinner.Environment
import KushDB.Skinner.Recompiling

/-! # The hybrid engine, and that the engines agree

The hybrid translator counts how often a join order was asked for. The first nine times it wires the permutable
functions for it, leaving whatever earlier orders have wired in the other places, and from then on it uses a
function compiled for the order. Whichever form an order is executed in, the episode is the same.
-/

namespace KushDB.Skinner

open Loops List

structure CacheEntry where
  visits : Nat
  isCompiled : Bool

/-- `RecompilingCache` with an entry for every order, and the handlers and flags of `PermutableCache`. -/
structure HybridCache (n : Nat) where
  entry : List (Fin n) → CacheEntry
  wiring : Wiring n

section

variable {n : Nat} {V : Type} [DecidableEq V] (q : Query n V) (hash : HashOrder n)

def HybridCache.compileJoinOrder (cache : HybridCache n) (order : List (Fin n)) :
    Except JoinError (HybridCache n × (Int → Bool → Globals n V → Option (Int × Globals n V))) :=
  let entry := { cache.entry order with visits := (cache.entry order).visits + 1 }
  if entry.isCompiled then
    .ok ({ cache with entry := Function.update cache.entry order entry }, compiledFunction q [] order)
  else if entry.visits < 10 then
    (wireOrder q hash order cache.wiring).map fun wiring =>
      (⟨Function.update cache.entry order entry, wiring⟩, permutableFunction q hash wiring order)
  else
    .ok ({ cache with entry := Function.update cache.entry order { entry with isCompiled := true } },
      compiledFunction q [] order)

/-- What an environment sees of an episode: the status, the tuples handed out and the last completed tuple. -/
def Query.outcome (order : List (Fin n)) (result : Option (Int × Globals n V)) :
    Option (Int × List (Fin n → Int) × List Int) :=
  result.map fun (status, g) =>
    (status, g.sink.handed, computeLastCompletedTuple q.cardinality order status g.tableCtr g.idxArr)

/-- The permutable functions wired for an order, the function compiled for it and the one the hybrid cache returns
all come to one outcome, whatever their predicate structs hold from before. -/
def Query.EnginesAgree (order : List (Fin n)) (budget : Int) (resume : Bool) (g : Globals n V)
    (permutableStruct compiledStruct hybridStruct : ColRef n → Option V) (wiring : Wiring n)
    (cache : HybridCache n) : Prop :=
  ∃ outcome,
    (∃ wired, wireOrder q hash order wiring = .ok wired ∧
      q.outcome order (permutableFunction q hash wired order budget resume
        { g with predicateStruct := permutableStruct }) = some outcome) ∧
    q.outcome order (compiledFunction q [] order budget resume
      { g with predicateStruct := compiledStruct }) = some outcome ∧
    ∃ next function, cache.compileJoinOrder q hash order = .ok (next, function) ∧
      q.outcome order (function budget resume { g with predicateStruct := hybridStruct }) = some outcome

end

section

variable {n : Nat} {V : Type} [DecidableEq V] {q : Query n V} {hash : HashOrder n}

/-- The episode that the specification prescribes from given globals. -/
def Query.specified (q : Query n V) (order : JoinOrder n) (budget : Int) (resume : Bool) (g : Globals n V) :
    Int × Cursor (Fin n) (Sink n) :=
  consume Sink.insert budget
    (q.traceBelow g.offsetArr g.progressArr order.tables order.tables [] resume) g.cursor

theorem permutableFunction_spec {order : JoinOrder n} (hPrefix : q.prefixOrder <+: order.tables) (hTables : 0 < n)
    {wiring wired : Wiring n} (hWired : wireOrder q hash order.tables wiring = .ok wired) {budget : Int}
    (hBudget : 1 ≤ budget) (resume : Bool) (g : Globals n V) :
    ∃ next, permutableFunction q hash wired order.tables budget resume g =
        some ((q.specified order budget resume g).1, next) ∧ next.cursor = (q.specified order budget resume g).2 := by
  obtain ⟨first, rest, hOrder⟩ := order.exists_cons hTables
  unfold wireOrder at hWired
  cases hToggle : q.togglePredicateFlags hash order.tables wiring.flagArr with
  | error error => simp [hToggle, Except.map] at hWired
  | ok flags =>
    simp only [hToggle, Except.map, Except.ok.injEq] at hWired
    subst hWired
    have hEnabled := mem_enabled hPrefix hToggle
    have hChain := wired_setJoinOrder order.nodup wiring.handler
    have hLength : rest.length < n := by
      have hCount := List.Nodup.length_le_card (hOrder ▸ order.nodup)
      rwa [length_cons, Fintype.card_fin] at hCount
    rw [hOrder] at hEnabled hChain
    obtain ⟨next, hCall, hCursor, _⟩ := @tableFunction_walks n V _ q hash g.offsetArr g.progressArr
      ⟨setJoinOrder order.tables wiring.handler, flags⟩ [] rest first [] (JoinOrder.split hOrder) rfl
      (by simpa [hOrder] using hChain) hEnabled n hLength budget hBudget resume g ⟨rfl, rfl, by simp⟩
    refine ⟨next, ?_, ?_⟩
    · rw [permutableFunction, hOrder, head?_cons, Option.bind_some, ← hOrder, hCall, Query.specified, hOrder]
      rfl
    · rw [hCursor, Query.specified, hOrder]
      rfl

theorem compiledFunction_spec (order : JoinOrder n) (hTables : 0 < n) {budget : Int} (hBudget : 1 ≤ budget)
    (resume : Bool) (g : Globals n V) :
    ∃ next, compiledFunction q [] order.tables budget resume g =
        some ((q.specified order budget resume g).1, next) ∧ next.cursor = (q.specified order budget resume g).2 := by
  obtain ⟨first, rest, hOrder⟩ := order.exists_cons hTables
  obtain ⟨next, hCall, hCursor, _⟩ := @compiledFunction_walks n V _ q g.offsetArr g.progressArr [] rest first []
    (JoinOrder.split hOrder) rfl budget hBudget resume g ⟨rfl, rfl, by simp⟩
  refine ⟨next, ?_, ?_⟩
  · rw [hOrder, hCall, Query.specified, hOrder]
    rfl
  · rw [hCursor, Query.specified, hOrder]
    rfl

omit [DecidableEq V] in
theorem outcome_eq {order : JoinOrder n} {result : Option (Int × Globals n V)} {run : Int × Cursor (Fin n) (Sink n)}
    (h : ∃ next, result = some (run.1, next) ∧ next.cursor = run.2) :
    q.outcome order.tables result = some (run.1, run.2.out.handed,
      computeLastCompletedTuple q.cardinality order.tables run.1 run.2.stopped run.2.idx) := by
  obtain ⟨next, rfl, hCursor⟩ := h
  rw [← hCursor]
  rfl

omit [DecidableEq V] in
theorem wireOrder_ok {order : JoinOrder n} (hPrefix : q.prefixOrder <+: order.tables)
    (hTables : ∀ condition ∈ q.conditions, ∃ left ∈ condition.tables, ∃ right ∈ condition.tables, left ≠ right)
    (wiring : Wiring n) : ∃ wired, wireOrder q hash order.tables wiring = .ok wired := by
  have hSpec := @togglePredicateFlags_spec n V q hash order hPrefix wiring.flagArr
  rw [if_pos] at hSpec
  · obtain ⟨flags, hFlags, _⟩ := hSpec
    exact ⟨_, by rw [wireOrder, hFlags]; rfl⟩
  · intro condition hCondition
    obtain ⟨left, hLeft, right, hRight, hNe⟩ := hTables condition hCondition
    by_cases hHead : q.prefixOrder.head? = some left
    · exact ⟨right, hRight, by rw [hHead]; simpa using hNe⟩
    · exact ⟨left, hLeft, hHead⟩

/-- Whatever its cache holds, the hybrid engine returns one of the two forms. -/
theorem compileJoinOrder_ok {cache : HybridCache n} {order : List (Fin n)} {wired : Wiring n}
    (hWired : wireOrder q hash order cache.wiring = .ok wired) :
    ∃ next function, cache.compileJoinOrder q hash order = .ok (next, function) ∧
      (function = compiledFunction q [] order ∨ function = permutableFunction q hash wired order) := by
  by_cases hCompiled : (cache.entry order).isCompiled = true
  · exact ⟨_, _, by rw [HybridCache.compileJoinOrder, if_pos hCompiled], Or.inl rfl⟩
  · by_cases hVisits : (cache.entry order).visits + 1 < 10
    · exact ⟨_, _, by rw [HybridCache.compileJoinOrder, if_neg hCompiled, if_pos hVisits, hWired]; rfl, Or.inr rfl⟩
    · exact ⟨_, _, by rw [HybridCache.compileJoinOrder, if_neg hCompiled, if_neg hVisits], Or.inl rfl⟩

/-- The three engines agree on every episode of every join order. -/
theorem engines_agree (hTables : 2 ≤ n) (order : JoinOrder n) (hPrefix : q.prefixOrder <+: order.tables)
    (hConditions : ∀ condition ∈ q.conditions, ∃ left ∈ condition.tables, ∃ right ∈ condition.tables, left ≠ right)
    {budget : Int} (hBudget : 1 ≤ budget) (resume : Bool) (g : Globals n V)
    (permutableStruct compiledStruct hybridStruct : ColRef n → Option V) (wiring : Wiring n) (cache : HybridCache n) :
    q.EnginesAgree hash order.tables budget resume g permutableStruct compiledStruct hybridStruct wiring cache := by
  have hPos : 0 < n := by omega
  have hPermutable := fun struct wiring wired hWired => @outcome_eq n V q order _ _
    (@permutableFunction_spec n V _ q hash order hPrefix hPos wiring wired hWired budget hBudget resume
      { g with predicateStruct := struct })
  have hCompiled := fun struct => @outcome_eq n V q order _ _
    (@compiledFunction_spec n V _ q order hPos budget hBudget resume { g with predicateStruct := struct })
  refine ⟨_, ?_, hCompiled compiledStruct, ?_⟩
  · obtain ⟨wired, hWired⟩ := @wireOrder_ok n V q hash order hPrefix hConditions wiring
    exact ⟨wired, hWired, hPermutable permutableStruct wiring wired hWired⟩
  · obtain ⟨wired, hWired⟩ := @wireOrder_ok n V q hash order hPrefix hConditions cache.wiring
    obtain ⟨next, function, hCompile, hForm⟩ := compileJoinOrder_ok hWired
    refine ⟨next, function, hCompile, ?_⟩
    rcases hForm with rfl | rfl
    · exact hCompiled hybridStruct
    · exact hPermutable hybridStruct cache.wiring wired hWired

end

theorem engines_agree_prefixJoin :
    prefixJoin.EnginesAgree (.inserted 2) [0, 1] 3 true
      ⟨fun _ => 0, 0, ⟨[], [], 0⟩, fun _ => 1, fun _ => -1, fun _ => none⟩ (fun _ => none) (fun _ => some 7) (fun _ => none)
      ⟨fun _ => .validTuple, fun _ => true⟩ ⟨fun _ => ⟨8, false⟩, ⟨fun _ => .table 0, fun _ => true⟩⟩ :=
  engines_agree (by decide) ⟨[0, 1], by decide, by decide⟩ (by decide) (by decide) (by decide) true _ _ _ _ _ _

end KushDB.Skinner
