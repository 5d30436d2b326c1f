import KushDB.Planner.OperatorRows

/-! # Joins of projected inputs

Removing columns and moving the references to them leaves the values of the remaining columns as they are. A join whose
conditions refer to remaining columns only then hands out the same choices of rows, each without the removed columns: its
conditions hold for the same choices, the same lookups are made in the same indexes, and there are as many predicate
columns as before.
-/

namespace KushDB.Planner

open Plan Selection Choices List

variable {F : Type}

/-! ## Moved references -/

/-- Where a column is after the projection. -/
def moved (refs : List (Nat × Nat)) (widths : List Nat) (reference : Nat × Nat) : Nat × Nat :=
  (columnRewrites refs widths reference).getD reference

/-- The rows of the children with the referenced columns only. -/
def projectedChoice (refs : List (Nat × Nat)) (choice : List (Row F)) : List (Row F) :=
  choice.mapIdx fun childIdx row => keep (fun i => refs.contains (childIdx, i)) row

def projectedInputs (refs : List (Nat × Nat)) (inputs : List (List (Row F))) : List (List (Row F)) :=
  inputs.mapIdx fun childIdx rows => rows.map (keep fun i => refs.contains (childIdx, i))

def HasWidths (choice : List (Row F)) (widths : List Nat) : Prop :=
  ∀ childIdx, (choice.getD childIdx []).length = widths.getD childIdx 0

section

variable {refs : List (Nat × Nat)} {widths : List Nat}

theorem moved_child (reference : Nat × Nat) : (moved refs widths reference).1 = reference.1 := by
  rw [moved, columnRewrites]
  split
  · rfl
  · rfl

theorem getElem?_keep_moved {α : Type} {values : List α} {reference : Nat × Nat} (hReference : reference ∈ refs)
    (hWidth : values.length = widths.getD reference.1 0) :
    (keep (fun i => refs.contains (reference.1, i)) values)[(moved refs widths reference).2]? = values[reference.2]? := by
  have hKept : refs.contains reference = true := contains_iff_mem.mpr hReference
  rw [moved, columnRewrites, ← hWidth]
  split
  · exact getElem?_keep hKept
  · rename_i hOutside
    have hBeyond : values.length ≤ reference.2 := by
      by_contra hInside
      exact hOutside ⟨not_le.mp hInside, hKept⟩
    rw [Option.getD_none, getElem?_eq_none hBeyond, getElem?_eq_none ((length_keep_le _ _).trans hBeyond)]

/-- Different columns stay different. -/
theorem moved_injective {left right : Nat × Nat} (hLeft : left ∈ refs) (hRight : right ∈ refs)
    (hLeftWidth : left.2 < widths.getD left.1 0) (hRightWidth : right.2 < widths.getD right.1 0)
    (h : moved refs widths left = moved refs widths right) : left = right := by
  have hChild : left.1 = right.1 := by rw [← @moved_child refs widths left, h, moved_child]
  -- The kept positions of the list 0, 1, 2, … say where the columns came from.
  have hLeftAt := @getElem?_keep_moved refs widths Nat (List.range (widths.getD left.1 0)) left hLeft length_range
  have hRightAt := @getElem?_keep_moved refs widths Nat (List.range (widths.getD right.1 0)) right hRight length_range
  rw [getElem?_range hLeftWidth] at hLeftAt
  rw [getElem?_range hRightWidth, ← h, ← hChild, hLeftAt] at hRightAt
  exact Prod.ext hChild (Option.some.inj hRightAt)

theorem getD_projectedChoice (choice : List (Row F)) (childIdx : Nat) :
    (projectedChoice refs choice).getD childIdx [] = keep (fun i => refs.contains (childIdx, i)) (choice.getD childIdx []) := by
  rw [projectedChoice, getD_eq_getElem?_getD, getD_eq_getElem?_getD, getElem?_mapIdx]
  cases choice[childIdx]? with
  | none => rfl
  | some row => rfl

variable {choice : List (Row F)}

theorem valueIn_projectedChoice (hWidths : HasWidths choice widths) {reference : Nat × Nat}
    (hReference : reference ∈ refs) :
    valueIn (projectedChoice refs choice) (moved refs widths reference) = valueIn choice reference := by
  change ((projectedChoice refs choice).getD _ []).getD _ none = (choice.getD _ []).getD _ none
  rw [moved_child, getD_projectedChoice, getD_eq_getElem?_getD, getElem?_keep_moved hReference (hWidths _),
    ← getD_eq_getElem?_getD]

variable {session : Session F}
variable {expr : Expression F}

theorem compute_projectedChoice (hWidths : HasWidths choice widths) (hExpr : expr.references ⊆ refs) :
    session.compute (projectedChoice refs choice) (expr.rewriteColumnReferences (columnRewrites refs widths)) =
      session.compute choice expr :=
  Expression.compute_rewrite rfl fun _ hReference => valueIn_projectedChoice hWidths (hExpr hReference)

theorem holds_projectedChoice (hWidths : HasWidths choice widths) (hExpr : expr.references ⊆ refs) :
    session.holds (projectedChoice refs choice) (expr.rewriteColumnReferences (columnRewrites refs widths)) =
      session.holds choice expr :=
  Expression.holds_congr (compute_projectedChoice hWidths hExpr)

theorem referencedChildren_rewrite (expr : Expression F) :
    (expr.rewriteColumnReferences (columnRewrites refs widths)).referencedChildren = expr.referencedChildren := by
  rw [Expression.referencedChildren, Expression.references_rewrite, map_map, Expression.referencedChildren]
  congr 1
  exact map_congr_left fun reference _ => moved_child reference

end

/-! ## Equalities -/

section

variable {refs : List (Nat × Nat)} {widths : List Nat}

theorem equalityColumns_rewrite (condition : Expression F) :
    equalityColumns (condition.rewriteColumnReferences (columnRewrites refs widths)) =
      (equalityColumns condition).map fun columns => (moved refs widths columns.1, moved refs widths columns.2) := by
  have hReference : ∀ expr : Expression F, (expr.rewriteColumnReferences (columnRewrites refs widths)).reference =
      expr.reference.map (moved refs widths) := by
    intro expr
    cases expr <;> rfl
  cases condition with
  | binary op left right =>
    cases op with
    | eq =>
      change ((left.rewriteColumnReferences _).reference.bind fun _ => (right.rewriteColumnReferences _).reference.map _) =
        (left.reference.bind fun _ => right.reference.map _).map _
      rw [hReference, hReference]
      cases left.reference with
      | none => rfl
      | some leftColumn =>
        cases right.reference with
        | none => rfl
        | some rightColumn => rfl
    | _ => rfl
  | _ => rfl

theorem sidesAt_moved (table : Nat) (columns : (Nat × Nat) × Nat × Nat) :
    sidesAt table (moved refs widths columns.1, moved refs widths columns.2) =
      (moved refs widths (sidesAt table columns).1, moved refs widths (sidesAt table columns).2) := by
  rw [sidesAt, sidesAt, moved_child]
  split
  · rfl
  · rfl

theorem lastOf_moved (order : List Nat) (columns : (Nat × Nat) × Nat × Nat) :
    lastOf order (moved refs widths columns.1, moved refs widths columns.2) = lastOf order columns := by
  rw [lastOf, lastOf, moved_child, moved_child]

theorem sidesAt_mem {condition : Expression F} {columns : (Nat × Nat) × Nat × Nat}
    (h : equalityColumns condition = some columns) (hCondition : condition.references ⊆ refs) (table : Nat) :
    (sidesAt table columns).1 ∈ refs ∧ (sidesAt table columns).2 ∈ refs := by
  rw [references_of_equalityColumns h] at hCondition
  have hLeft : columns.1 ∈ refs := hCondition mem_cons_self
  have hRight : columns.2 ∈ refs := hCondition (mem_cons_of_mem _ mem_cons_self)
  rw [sidesAt]
  split
  · exact ⟨hLeft, hRight⟩
  · exact ⟨hRight, hLeft⟩

end

/-! ## The join -/

/-- The indexes of the remaining columns are those of the columns before the projection. -/
structure ProjectsIndexes (refs : List (Nat × Nat)) (widths : List Nat)
    (index projected : Nat × Nat → Option (Index F)) : Prop where
  same : ∀ reference ∈ refs, projected (moved refs widths reference) = index reference
  inside : ∀ reference, (index reference).isSome → reference.2 < widths.getD reference.1 0

section

variable {refs : List (Nat × Nat)} {widths : List Nat} {index projected : Nat × Nat → Option (Index F)}
  {session : Session F} {inputs : List (List (Row F))} {conditions : List (Expression F)}

section

variable (hIndex : ProjectsIndexes refs widths index projected)
include hIndex

variable {choice : List (Row F)}
variable {condition : Expression F}

theorem found_projectedChoice (hWidths : HasWidths choice widths) (hCondition : condition.references ⊆ refs) :
    found session projected (projectedChoice refs choice)
        (condition.rewriteColumnReferences (columnRewrites refs widths)) =
      found session index choice condition := by
  rw [found, found, equalityColumns_rewrite]
  cases hColumns : equalityColumns condition with
  | none => rfl
  | some columns =>
    obtain ⟨hOwn, hOther⟩ := sidesAt_mem hColumns hCondition (lastOf session.order columns)
    simp only [Option.map_some, lastOf_moved, sidesAt_moved, hIndex.same _ hOwn, valueIn_projectedChoice hWidths hOwn,
      valueIn_projectedChoice hWidths hOther]

theorem passesCondition_projectedChoice (hWidths : HasWidths choice widths) (hCondition : condition.references ⊆ refs) :
    passesCondition session projected (projectedChoice refs choice)
        (condition.rewriteColumnReferences (columnRewrites refs widths)) =
      passesCondition session index choice condition := by
  rw [passesCondition, holds_projectedChoice hWidths hCondition, found_projectedChoice hIndex hWidths hCondition,
    passesCondition]

theorem hasBucket_projectedInputs (hWidths : ∀ childIdx, ∀ row ∈ inputs.getD childIdx [],
      row.length = widths.getD childIdx 0) {own : Nat × Nat} (hOwn : own ∈ refs) (key : Value F) :
    hasBucket session projected (projectedInputs refs inputs) (moved refs widths own) key =
      hasBucket session index inputs own key := by
  have hRows : (projectedInputs refs inputs).getD own.1 [] =
      (inputs.getD own.1 []).map (keep fun i => refs.contains (own.1, i)) := by
    rw [projectedInputs, getD_eq_getElem?_getD, getD_eq_getElem?_getD, getElem?_mapIdx]
    cases inputs[own.1]? with
    | none => rfl
    | some rows => rfl
  rw [hasBucket, hasBucket, moved_child, hRows, any_map, hIndex.same own hOwn, Bool.eq_iff_iff, any_eq_true, any_eq_true]
  refine exists_congr fun row => and_congr_right fun hRow => ?_
  rw [Function.comp_apply, getD_eq_getElem?_getD, getElem?_keep_moved hOwn (hWidths own.1 row hRow),
    ← getD_eq_getElem?_getD]

theorem pushedBuckets_projectedInputs
    (hWidths : ∀ childIdx, ∀ row ∈ inputs.getD childIdx [], row.length = widths.getD childIdx 0)
    (hChoice : HasWidths choice widths) (table : Nat) {due : List (Expression F)}
    (hDue : ∀ condition ∈ due, condition.references ⊆ refs) :
    pushedBuckets session projected (projectedInputs refs inputs) table (projectedChoice refs choice)
        (due.map (Expression.rewriteColumnReferences (columnRewrites refs widths))) =
      pushedBuckets session index inputs table choice due := by
  induction due with
  | nil => rfl
  | cons condition due ih =>
    obtain ⟨hFirst, hRest⟩ := forall_mem_cons.mp hDue
    rw [map_cons, pushedBuckets, pushedBuckets, equalityColumns_rewrite, ih hRest]
    cases hColumns : equalityColumns condition with
    | none => rfl
    | some columns =>
      obtain ⟨hOwn, hOther⟩ := sidesAt_mem hColumns hFirst table
      simp only [Option.map_some, sidesAt_moved, valueIn_projectedChoice hChoice hOther,
        hasBucket_projectedInputs hIndex hWidths hOwn]

end

theorem any_isEmpty_mapIdx (f : Nat → Row F → Row F) (inputs : List (List (Row F))) :
    (inputs.mapIdx fun childIdx rows => rows.map (f childIdx)).any List.isEmpty = inputs.any List.isEmpty := by
  induction inputs generalizing f with
  | nil => rfl
  | cons rows inputs ih => rw [mapIdx_cons, any_cons, any_cons, isEmpty_map, ih fun i => f (i + 1)]

/-- The predicate columns of a join that can be translated are as many as before. -/
theorem length_predicateColumns (hIndex : ProjectsIndexes refs widths index projected)
    (hConditions : ∀ condition ∈ conditions, condition.references ⊆ refs)
    (hTranslates : ∀ column ∈ conditions.flatMap Expression.references, (index column).isSome) :
    ((conditions.map (Expression.rewriteColumnReferences (columnRewrites refs widths))).flatMap
        Expression.references).dedup.length = (conditions.flatMap Expression.references).dedup.length := by
  have hColumns : (conditions.map (Expression.rewriteColumnReferences (columnRewrites refs widths))).flatMap
      Expression.references = (conditions.flatMap Expression.references).map (moved refs widths) := by
    rw [flatMap_map, map_flatMap]
    exact flatMap_congr fun condition _ => Expression.references_rewrite _ condition
  have hRefs : ∀ column ∈ conditions.flatMap Expression.references, column ∈ refs := by
    intro column hColumn
    obtain ⟨condition, hCondition, hIn⟩ := mem_flatMap.mp hColumn
    exact hConditions condition hCondition hIn
  have hNodup : ((conditions.flatMap Expression.references).dedup.map (moved refs widths)).Nodup := by
    refine (nodup_dedup _).map_on fun left hLeft right hRight h => ?_
    rw [mem_dedup] at hLeft hRight
    exact moved_injective (hRefs left hLeft) (hRefs right hRight) (hIndex.inside left (hTranslates left hLeft))
      (hIndex.inside right (hTranslates right hRight)) h
  have hPerm : ((conditions.flatMap Expression.references).map (moved refs widths)).dedup.Perm
      ((conditions.flatMap Expression.references).dedup.map (moved refs widths)) :=
    (perm_ext_iff_of_nodup (nodup_dedup _) hNodup).mpr fun column => by simp only [mem_dedup, mem_map]
  rw [hColumns, hPerm.length_eq, length_map]

theorem executedOf_rewrite : executedOf (conditions.map (Expression.rewriteColumnReferences (columnRewrites refs widths))) =
    (executedOf conditions).map (Expression.rewriteColumnReferences (columnRewrites refs widths)) := by
  rw [executedOf, filter_map]
  congr 1
  refine filter_congr fun condition _ => ?_
  rw [Function.comp_apply, referencedChildren_rewrite]

section

variable (hIndex : ProjectsIndexes refs widths index projected)
  (hConditions : ∀ condition ∈ conditions, condition.references ⊆ refs)
include hIndex hConditions

theorem translates_rewrite :
    translates projected (conditions.map (Expression.rewriteColumnReferences (columnRewrites refs widths))) =
      translates index conditions := by
  rw [translates, translates, executedOf_rewrite, all_map, flatMap_map, all_flatMap, all_flatMap]
  congr 1
  · rw [Bool.eq_iff_iff, all_eq_true, all_eq_true]
    refine forall₂_congr fun condition hCondition => ?_
    rw [Expression.references_rewrite, all_map, all_eq_true, all_eq_true]
    refine forall₂_congr fun column hColumn => ?_
    exact iff_of_eq (congrArg (fun found => found.isSome = true) (hIndex.same column (hConditions condition hCondition hColumn)))
  · congr 1
    funext condition
    rw [Function.comp_apply, Expression.isPredicate_rewrite, equalityColumns_rewrite]
    cases equalityColumns condition with
    | none => rfl
    | some columns =>
      simp only [Option.map_some, Option.all_some, moved_child]

theorem overflows_projectedInputs
    (hTranslates : ∀ column ∈ conditions.flatMap Expression.references, (index column).isSome)
    (hWidths : ∀ childIdx, ∀ row ∈ inputs.getD childIdx [], row.length = widths.getD childIdx 0)
    (hChoices : ∀ choice ∈ inputs.sections, HasWidths choice widths) :
    overflows session projected (projectedInputs refs inputs)
        (conditions.map (Expression.rewriteColumnReferences (columnRewrites refs widths))) =
      overflows session index inputs conditions := by
  have hSections : (projectedInputs refs inputs).sections = inputs.sections.map (projectedChoice refs) :=
    sections_mapIdx _ inputs
  rw [overflows, overflows, length_predicateColumns hIndex hConditions hTranslates, hSections, length_map]
  congr 1
  funext position
  -- The conditions that are due with a table are the same, in the same order.
  have hDue : ((session.lookups (List.range conditions.length)).filterMap
        ((conditions.map (Expression.rewriteColumnReferences (columnRewrites refs widths)))[·]?)).filter
          (shouldExecute (session.order.getD position 0) (session.order.take position)) =
      (((session.lookups (List.range conditions.length)).filterMap (conditions[·]?)).filter
        (shouldExecute (session.order.getD position 0) (session.order.take position))).map
          (Expression.rewriteColumnReferences (columnRewrites refs widths)) := by
    simp only [getElem?_map]
    rw [← map_filterMap, filter_map]
    congr 1
    refine filter_congr fun condition _ => ?_
    rw [Function.comp_apply, shouldExecute, shouldExecute, referencedChildren_rewrite]
  have hDueRefers : ∀ condition ∈ ((session.lookups (List.range conditions.length)).filterMap (conditions[·]?)).filter
      (shouldExecute (session.order.getD position 0) (session.order.take position)), condition.references ⊆ refs := by
    intro condition hCondition
    obtain ⟨_, _, hAt⟩ := mem_filterMap.mp (mem_filter.mp hCondition).1
    exact hConditions condition (mem_of_getElem? hAt)
  simp only [hDue]
  rw [any_map, Bool.eq_iff_iff, any_eq_true, any_eq_true]
  refine exists_congr fun choice => and_congr_right fun hChoice => ?_
  rw [Function.comp_apply, pushedBuckets_projectedInputs hIndex hWidths (hChoices choice hChoice) _ hDueRefers,
    Bool.and_eq_true, Bool.and_eq_true, all_map, all_eq_true, all_eq_true]
  refine and_congr_left fun _ => forall₂_congr fun condition hCondition => ?_
  rw [Function.comp_apply, referencedChildren_rewrite,
    passesCondition_projectedChoice hIndex (hChoices choice hChoice) (hConditions condition hCondition)]

theorem skinnerJoinChoices_projectedInputs
    (hWidths : ∀ childIdx, ∀ row ∈ inputs.getD childIdx [], row.length = widths.getD childIdx 0)
    (hChoices : ∀ choice ∈ inputs.sections, HasWidths choice widths) :
    skinnerJoinChoices session projected (projectedInputs refs inputs)
        (conditions.map (Expression.rewriteColumnReferences (columnRewrites refs widths))) =
      (skinnerJoinChoices session index inputs conditions).map fun choices => choices.map (projectedChoice refs) := by
  have hEmpty : (projectedInputs refs inputs).any List.isEmpty = inputs.any List.isEmpty := any_isEmpty_mapIdx _ inputs
  have hSections : (projectedInputs refs inputs).sections = inputs.sections.map (projectedChoice refs) :=
    sections_mapIdx _ inputs
  rw [skinnerJoinChoices, skinnerJoinChoices, translates_rewrite hIndex hConditions, executedOf_rewrite, hEmpty, length_map,
    length_map, hSections]
  split
  · rename_i hTranslates
    have hIndexed : ∀ column ∈ conditions.flatMap Expression.references, (index column).isSome :=
      all_eq_true.mp (Bool.and_eq_true _ _ ▸ hTranslates).1
    rw [overflows_projectedInputs hIndex hConditions hIndexed hWidths hChoices]
    split
    · rfl
    · split
      · rfl
      · split
        · rfl
        · rw [filter_map, Option.map_some]
          congr 2
          refine filter_congr fun choice hChoice => ?_
          rw [Function.comp_apply, all_map, Bool.eq_iff_iff, all_eq_true, all_eq_true]
          refine forall₂_congr fun condition hCondition => ?_
          rw [Function.comp_apply, passesCondition_projectedChoice hIndex (hChoices choice hChoice)
            (hConditions condition (mem_filter.mp hCondition).1)]
  · rfl

end

end

end KushDB.Planner
