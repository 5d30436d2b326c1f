import KushDB.Planner.EarlyProjection
import KushDB.Planner.Predicates

/-! # Selections over scans

A selection over a scan refers to the scan as its only child. Its conjuncts over the virtual columns let the same rows
pass as its expression over the columns of the scan, so putting both operators into one does not change the rows of a
tree.
-/

namespace KushDB.Planner

open Fallible Plan Selection List

variable {F : Type}

mutual

/-- Every selection refers to columns of its child 0 only. -/
def Operator.OnFirstChild : Operator F → Prop
  | .scan _ _ => True
  | .select schema child expr => (∀ column ∈ schema, column.childIdx = 0) ∧
    expr.RefersOnly (fun reference => reference.1 = 0) ∧ child.OnFirstChild
  | .scanSelect _ _ _ _ => True
  | .skinnerJoin _ children _ => AllOnFirstChild children
  | .aggregate _ child _ => child.OnFirstChild

def AllOnFirstChild : List (Operator F) → Prop
  | [] => True
  | child :: children => child.OnFirstChild ∧ AllOnFirstChild children

end

theorem childIdx_rewriteColumnReferences (refs : List (Nat × Nat)) (widths : List Nat) (column : SchemaColumn) :
    (column.rewriteColumnReferences (columnRewrites refs widths)).childIdx = column.childIdx := by
  have hChild := @moved_child refs widths column.reference
  rw [moved] at hChild
  rw [SchemaColumn.rewriteColumnReferences]
  cases hRewrite : columnRewrites refs widths column.reference with
  | none => rfl
  | some found =>
    rw [hRewrite] at hChild
    exact hChild

mutual

theorem onFirstChild_earlyProjection (op : Operator F) {kept : Nat → Bool} {projected : Operator F}
    (h : earlyProjection kept op = .ok projected) (hOp : op.OnFirstChild) : projected.OnFirstChild := by
  cases op with
  | scan schema relation =>
    cases h
    exact trivial
  | select schema child expr =>
    obtain ⟨found, hFound, ⟨⟩⟩ := bind_eq_ok.mp h
    obtain ⟨hSchema, hExpr, hChild⟩ := hOp
    refine ⟨fun column hColumn => ?_, hExpr.rewrite fun reference hReference => ?_,
      onFirstChild_earlyProjection child hFound hChild⟩
    · obtain ⟨old, hOld, rfl⟩ := mem_map.mp hColumn
      rw [childIdx_rewriteColumnReferences]
      exact hSchema old (mem_of_mem_keep hOld)
    · exact (moved_child reference).trans hReference
  | scanSelect selectSchema scanSchema relation filters => cases h
  | skinnerJoin schema children conditions =>
    obtain ⟨found, hFound, ⟨⟩⟩ := bind_eq_ok.mp h
    exact allOnFirstChild_earlyProjections children hFound hOp
  | aggregate schema child aggExprs =>
    obtain ⟨found, hFound, ⟨⟩⟩ := bind_eq_ok.mp h
    have hChild : found.OnFirstChild := onFirstChild_earlyProjection child hFound hOp
    exact hChild

theorem allOnFirstChild_earlyProjections (children : List (Operator F)) {refs : List (Nat × Nat)} {childIdx : Nat}
    {projected : List (Operator F)} (h : earlyProjections refs childIdx children = .ok projected)
    (hChildren : AllOnFirstChild children) : AllOnFirstChild projected := by
  cases children with
  | nil =>
    cases h
    exact trivial
  | cons child children =>
    obtain ⟨found, hFound, hBind⟩ := bind_eq_ok.mp h
    obtain ⟨others, hOthers, ⟨⟩⟩ := bind_eq_ok.mp hBind
    exact ⟨onFirstChild_earlyProjection child hFound hChildren.1,
      allOnFirstChild_earlyProjections children hOthers hChildren.2⟩

end

section

variable {session : Session F} {aggregator : AggregateType → List (Option (Value F)) → Option (Value F)}

theorem isPredicate_rewriteColRefToVirtColRef (expr : Expression F) :
    (rewriteColRefToVirtColRef expr).isPredicate = expr.isPredicate := by
  rw [Expression.isPredicate, rewriteColRefToVirtColRef,
    Expression.accepted_mapColumnRefs (fun _ _ _ _ => rfl) (fun _ _ _ _ => rfl),
    Expression.type_mapColumnRefs fun _ _ _ _ => rfl, Expression.isPredicate]

variable {expr : Expression F}

theorem holds_rewriteColRefToVirtColRef (h : expr.RefersOnly fun reference => reference.1 = 0) (row : Row F) :
    (rewriteColRefToVirtColRef expr).holds session.f64 session.enums session.re2 (virtualValuesIn row) =
      session.holds [row] expr := by
  refine Expression.holds_congr (Expression.compute_mapColumnRefs fun leaf hLeaf => ?_)
  rcases h leaf hLeaf with ⟨type, nullable, childIdx, columnIdx, rfl, hChild⟩ | ⟨value, null, rfl⟩
  · obtain rfl : childIdx = 0 := hChild
    rfl
  · rfl

theorem rows_scanSelect {schema scanSchema : List SchemaColumn} {relation : Catalog.Table}
    (hSchema : ∀ column ∈ schema, column.childIdx = 0) (hExpr : expr.RefersOnly fun reference => reference.1 = 0) :
    (Operator.scanSelect (schema.map SchemaColumn.virtual) scanSchema relation
        ((decompose expr).map rewriteColRefToVirtColRef)).rows session aggregator =
      (Operator.select schema (.scan scanSchema relation) expr).rows session aggregator := by
  have hPredicates : ((decompose expr).map rewriteColRefToVirtColRef).all Expression.isPredicate = expr.isPredicate := by
    rw [isPredicate_decompose expr, all_map]
    congr 1
    exact funext isPredicate_rewriteColRefToVirtColRef
  have hFilters : (fun row => ((decompose expr).map rewriteColRefToVirtColRef).all fun filter =>
      filter.holds session.f64 session.enums session.re2 (virtualValuesIn row)) = fun row => session.holds [row] expr := by
    funext row
    rw [all_map, Session.holds, holds_decompose, Bool.eq_iff_iff, all_eq_true, all_eq_true]
    refine forall₂_congr fun conjunct hConjunct => ?_
    rw [Function.comp_apply, holds_rewriteColRefToVirtColRef fun leaf hLeaf =>
      hExpr leaf (leaves_decompose hConjunct hLeaf), Session.holds]
  rw [Operator.rows, Operator.rows, Operator.rows, hPredicates, hFilters]
  split
  · congr 1
    funext rows
    refine map_congr_left fun row _ => ?_
    rw [map_map]
    refine map_congr_left fun column hColumn => ?_
    rw [Function.comp_apply, SchemaColumn.value, SchemaColumn.reference, hSchema column hColumn]
    rfl
  · rfl

theorem index_adaptiveScanSelect (op : Operator F) (childIdx columnIdx : Nat) :
    (adaptiveScanSelect op).index session childIdx columnIdx = op.index session childIdx columnIdx := by
  cases op with
  | select schema child expr =>
    cases child with
    | scan scanSchema relation =>
      rw [adaptiveScanSelect, Operator.index, Operator.index, Operator.columnNames, Operator.columnNames, map_map]
      rfl
    | _ => rfl
  | _ => rfl

theorem indexOf_adaptiveScanSelects (children : List (Operator F)) :
    indexOf session (adaptiveScanSelects children) = indexOf session children := by
  have hMap : adaptiveScanSelects children = children.map adaptiveScanSelect := by
    induction children with
    | nil => rfl
    | cons child children ih => rw [adaptiveScanSelects, ih, map_cons]
  funext column
  rw [indexOf, indexOf, hMap, getElem?_map]
  cases children[column.1]? with
  | none => rfl
  | some child => exact index_adaptiveScanSelect child column.1 column.2

mutual

theorem rows_adaptiveScanSelect (op : Operator F) (h : op.OnFirstChild) :
    (adaptiveScanSelect op).rows session aggregator =
      op.rows session aggregator := by
  cases op with
  | scan schema relation => rfl
  | select schema child expr =>
    obtain ⟨hSchema, hExpr, hChild⟩ := h
    cases child with
    | scan scanSchema relation => exact rows_scanSelect hSchema hExpr
    | _ =>
      rw [adaptiveScanSelect, Operator.rows, Operator.rows, rows_adaptiveScanSelect _ hChild]
      intro scanSchema relation hScan
      cases hScan
  | scanSelect selectSchema scanSchema relation filters => rfl
  | skinnerJoin schema children conditions =>
    rw [adaptiveScanSelect, Operator.rows, Operator.rows, inputRows_adaptiveScanSelects children h,
      indexOf_adaptiveScanSelects]
  | aggregate schema child aggExprs =>
    rw [adaptiveScanSelect, Operator.rows, Operator.rows, rows_adaptiveScanSelect child h]

theorem inputRows_adaptiveScanSelects (children : List (Operator F)) (h : AllOnFirstChild children) :
    inputRows session aggregator (adaptiveScanSelects children) =
      inputRows session aggregator children := by
  cases children with
  | nil => rfl
  | cons child children =>
    rw [adaptiveScanSelects, inputRows, inputRows, rows_adaptiveScanSelect child h.1,
      inputRows_adaptiveScanSelects children h.2]

end

end

end KushDB.Planner
