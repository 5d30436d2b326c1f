import KushDB.Planner.EarlyProjection
import KushDB.Planner.Where

/-! # The inputs of a plan

Planned expressions refer to columns that their tables have. So the filter of a selection, which has a conjunct on its
table, refers to a column of the scan below it.
-/

namespace KushDB.Planner

open Fallible Plan List

variable {F : Type}

/-! ## Filters -/

/-- The filter of a selection refers to the scan as child 0, and to some column of it. -/
def Input.RefersToScan : Input F → Prop
  | .scan _ => True
  | .select table expr => expr.RefersOnly (fun reference => reference.1 = 0) ∧
    ∃ columnIdx < table.columns.length, (0, columnIdx) ∈ expr.references

theorem leaves_conjoin {first filter : Expression F} {rest : List (Expression F)} (h : conjoin first rest = .ok filter) :
    filter.leaves = (first :: rest).flatMap Expression.leaves := by
  induction rest generalizing first filter with
  | nil =>
    cases h
    exact (append_nil _).symm
  | cons second rest ih =>
    obtain ⟨tail, hTail, rfl⟩ := conjoin_cons h
    rw [Expression.leaves, ih hTail, ← flatMap_cons]

theorem planInput_refersToScan {table : Catalog.Table} {preds : List (Expression F)} {input : Input F}
    (h : planInput table preds = .ok input) {allowed : Nat × Nat → Prop}
    (hPreds : ∀ pred ∈ preds, pred.RefersOnly allowed ∧
      ∃ reference ∈ pred.references, reference.2 < table.columns.length) :
    input.RefersToScan := by
  cases preds with
  | nil =>
    cases h
    exact trivial
  | cons first rest =>
    obtain ⟨filter, hFilter, ⟨⟩⟩ := bind_eq_ok.mp h
    have hLeaves := leaves_conjoin hFilter
    have hOnly : filter.RefersOnly (· ∈ filter.references) := by
      intro leaf hLeaf
      have hIn := hLeaf
      rw [hLeaves] at hIn
      obtain ⟨pred, hPred, hLeafIn⟩ := mem_flatMap.mp hIn
      rcases (hPreds pred hPred).1 leaf hLeafIn with ⟨type, nullable, childIdx, columnIdx, rfl, -⟩ | hLiteral
      · exact .inl ⟨type, nullable, childIdx, columnIdx, rfl, mem_filterMap.mpr ⟨_, hLeaf, rfl⟩⟩
      · exact .inr hLiteral
    obtain ⟨reference, hReference, hColumn⟩ := (hPreds first mem_cons_self).2
    have hIn : reference ∈ filter.references := by
      rw [Expression.references, hLeaves, flatMap_cons, filterMap_append]
      exact mem_append_left _ hReference
    refine ⟨hOnly.rewrite fun other hOther => ?_, reference.2, hColumn, ?_⟩
    · rw [if_pos (contains_iff_mem.mpr hOther)]
      rfl
    · rw [Expression.references_rewrite]
      refine mem_map.mpr ⟨reference, hIn, ?_⟩
      rw [if_pos (contains_iff_mem.mpr hIn)]
      rfl

theorem planInputs_refersToScan (allowed : Nat × Nat → Prop) {tables : List Catalog.Table}
    {unaryPreds : List (List (Expression F))} {inputs : List (Input F)} (h : planInputs tables unaryPreds = .ok inputs)
    (hPreds : ∀ (childIdx : Nat) (table : Catalog.Table) (preds : List (Expression F)), tables[childIdx]? = some table →
      unaryPreds[childIdx]? = some preds →
      ∀ pred ∈ preds, pred.RefersOnly allowed ∧ ∃ reference ∈ pred.references, reference.2 < table.columns.length) :
    ∀ input ∈ inputs, input.RefersToScan := by
  induction tables generalizing unaryPreds inputs with
  | nil =>
    cases h
    exact fun input hInput => absurd hInput not_mem_nil
  | cons table tables ih =>
    cases unaryPreds with
    | nil =>
      cases h
      exact fun input hInput => absurd hInput not_mem_nil
    | cons preds unaryPreds =>
      rw [planInputs, bind_eq_ok] at h
      obtain ⟨first, hFirst, hBind⟩ := h
      obtain ⟨rest, hRest, hInputs⟩ := bind_eq_ok.mp hBind
      cases hInputs
      intro input hInput
      rcases mem_cons.mp hInput with rfl | hIn
      · exact planInput_refersToScan hFirst (hPreds 0 table preds rfl rfl)
      · exact ih hRest (fun childIdx => hPreds (childIdx + 1)) input hIn

def Source.inputs : Source F → List (Input F)
  | .single input => [input]
  | .skinnerJoin children _ => children

section

variable {enums : EnumManager} {database : List Catalog.Table} {statement : SelectStatement F} {plan : SelectPlan F}
variable {condition : Expression F} {source : Source F} {tables : List Catalog.Table}

theorem planSource_inputs (h : planSource tables condition = .ok source) :
    planInputs tables ((List.range tables.length).map (conjunctsOf (decompose condition))) = .ok source.inputs := by
  rw [planSource, splitPredicates_eq, bind_eq_ok] at h
  obtain ⟨inputs, hInputs, hSource⟩ := h
  rw [hInputs]
  split at hSource
  · cases hSource
    rfl
  · cases hSource
    rfl

theorem planSource_refersToScan (h : planSource tables condition = .ok source)
    (hCondition : condition.RefersOnly (InTables tables)) : ∀ input ∈ source.inputs, input.RefersToScan := by
  refine planInputs_refersToScan (InTables tables) (planSource_inputs h) ?_
  intro childIdx table preds hTable hPreds pred hPred
  rw [getElem?_map] at hPreds
  obtain ⟨found, hFound, rfl⟩ := Option.map_eq_some_iff.mp hPreds
  obtain ⟨_, rfl⟩ := List.getElem?_eq_some_iff.mp hFound
  rw [getElem_range] at hPred
  obtain ⟨hConjunct, hOnly⟩ := mem_filter.mp hPred
  have hChild : childIdx ∈ pred.referencedChildren := by
    rw [of_decide_eq_true hOnly]
    exact mem_cons_self
  obtain ⟨columnIdx, hReference⟩ := Expression.mem_referencedChildren.mp hChild
  obtain ⟨other, hOther, hColumn⟩ := hCondition.reference _ (references_decompose hConjunct hReference)
  obtain rfl : table = other := Option.some.inj (hTable.symm.trans hOther)
  exact ⟨fun leaf hLeaf => hCondition leaf (leaves_decompose hConjunct hLeaf), _, hReference, hColumn⟩

theorem planSelect_refersToScan (h : planSelect enums database statement = .ok plan) :
    ∀ input ∈ plan.source.inputs, input.RefersToScan := by
  rw [planSelect, bind_eq_ok] at h
  obtain ⟨⟨infos, tables⟩, hFrom, hRest⟩ := h
  obtain ⟨condition, hWhere, hRest⟩ := bind_eq_ok.mp hRest
  obtain ⟨source, hSource, hRest⟩ := bind_eq_ok.mp hRest
  obtain ⟨rewritten, -, hRest⟩ := bind_eq_ok.mp hRest
  obtain ⟨aggregates, -, hResult⟩ := bind_eq_ok.mp hRest
  cases hResult
  refine planSource_refersToScan hSource ?_
  exact planExpression_refersTo (planTable_inTables hFrom) statement.condition condition hWhere

end

end KushDB.Planner
