import KushDB.Library.Fallible
import KushDB.Planner.JoinRows

/-! # Splitting the WHERE expression

The conjuncts of a WHERE expression hold together exactly when it does. Those that mention one table only are put
together again and filter the scan of that table.
-/

namespace KushDB.Planner

open Fallible Plan List

section

variable {F : Type} {f64 : Float64 F} {enums : EnumManager} {re2 : Re2} {source : SchemaValues F}

theorem holds_decompose (expr : Expression F) :
    expr.holds f64 enums re2 source = (decompose expr).all fun conjunct => conjunct.holds f64 enums re2 source := by
  fun_induction decompose expr with
  | case1 left right ihLeft ihRight => rw [Expression.holds_and, all_append, ihLeft, ihRight]
  | case2 expr => simp

theorem isPredicate_decompose (expr : Expression F) :
    expr.isPredicate = (decompose expr).all Expression.isPredicate := by
  fun_induction decompose expr with
  | case1 left right ihLeft ihRight => rw [Expression.isPredicate_and, all_append, ihLeft, ihRight]
  | case2 expr => simp

variable {conjunct expr : Expression F}

theorem leaves_decompose (h : conjunct ∈ decompose expr) : conjunct.leaves ⊆ expr.leaves := by
  fun_induction decompose expr with
  | case1 left right ihLeft ihRight =>
    rcases mem_append.mp h with hIn | hIn
    · exact fun leaf hLeaf => mem_append_left _ (ihLeft hIn hLeaf)
    · exact fun leaf hLeaf => mem_append_right _ (ihRight hIn hLeaf)
  | case2 expr =>
    rw [mem_singleton.mp h]
    exact List.Subset.refl _

theorem references_decompose (h : conjunct ∈ decompose expr) : conjunct.references ⊆ expr.references :=
  filterMap_subset _ (leaves_decompose h)

/-! ## Predicates of single tables -/

/-- The conjuncts that mention one table only. -/
def conjunctsOf (conjuncts : List (Expression F)) (table : Nat) : List (Expression F) :=
  conjuncts.filter fun conjunct => conjunct.referencedChildren = [table]

theorem addPredicate_eq (numTables : Nat) (found : Nat → List (Expression F)) (joinPreds : List (Expression F))
    (expr : Expression F) : addPredicate ⟨(List.range numTables).map found, joinPreds⟩ expr =
      ⟨(List.range numTables).map fun table => found table ++ conjunctsOf [expr] table,
        joinPreds ++ [expr].filter fun conjunct => conjunct.referencedChildren.length ≠ 1⟩ := by
  unfold addPredicate conjunctsOf
  split
  · rename_i only hOnly
    have hModify : ((List.range numTables).map found).modify only (· ++ [expr]) = (List.range numTables).map fun table =>
        found table ++ [expr].filter fun conjunct => conjunct.referencedChildren = [table] := by
      refine ext_getElem? fun table => ?_
      rw [getElem?_modify, getElem?_map, getElem?_map]
      by_cases hTable : table < numTables
      · by_cases hEq : only = table
        · simp [getElem?_range hTable, hEq, hOnly]
        · simp [getElem?_range hTable, hEq, hOnly]
      · simp [getElem?_eq_none (show (List.range numTables).length ≤ table by simpa using hTable)]
    simp [hModify, hOnly]
  · rename_i hNone
    have hLength : expr.referencedChildren.length ≠ 1 := by
      intro hOne
      obtain ⟨only, hOnly⟩ := length_eq_one_iff.mp hOne
      exact hNone only hOnly
    have hNe : ∀ table, expr.referencedChildren ≠ [table] := fun table hTable => hNone table hTable
    simp [hLength, hNe]

theorem foldl_addPredicate (numTables : Nat) (exprs : List (Expression F)) (found : Nat → List (Expression F))
    (joinPreds : List (Expression F)) : exprs.foldl addPredicate ⟨(List.range numTables).map found, joinPreds⟩ =
      ⟨(List.range numTables).map fun table => found table ++ conjunctsOf exprs table,
        joinPreds ++ exprs.filter fun conjunct => conjunct.referencedChildren.length ≠ 1⟩ := by
  induction exprs generalizing found joinPreds with
  | nil => simp [conjunctsOf]
  | cons expr exprs ih =>
    have hSplit : ∀ table, conjunctsOf (expr :: exprs) table = conjunctsOf [expr] table ++ conjunctsOf exprs table :=
      fun table => filter_append [expr] exprs
    rw [foldl_cons, addPredicate_eq, ih, append_assoc, ← filter_append]
    simp only [hSplit, append_assoc, singleton_append]

theorem splitPredicates_eq (numTables : Nat) (exprs : List (Expression F)) :
    splitPredicates numTables exprs = ⟨(List.range numTables).map (conjunctsOf exprs),
      exprs.filter fun conjunct => conjunct.referencedChildren.length ≠ 1⟩ := by
  have hEmpty : List.replicate numTables [] = (List.range numTables).map fun _ => ([] : List (Expression F)) := by simp
  rw [splitPredicates, hEmpty, foldl_addPredicate]
  simp only [nil_append]

theorem conjoin_cons {first second filter : Expression F} {rest : List (Expression F)}
    (h : conjoin first (second :: rest) = .ok filter) :
    ∃ tail, conjoin second rest = .ok tail ∧ filter = .binary .and first tail := by
  rw [conjoin, bind_eq_ok] at h
  obtain ⟨tail, hTail, hAnd⟩ := h
  unfold binaryArithmeticExpression at hAnd
  cases hType : calculateBinaryType .and first.type tail.type with
  | error message =>
    rw [hType] at hAnd
    cases hAnd
  | ok type =>
    rw [hType] at hAnd
    cases hAnd
    exact ⟨tail, hTail, rfl⟩

variable {session : Session F}

/-- The columns of a row, whatever child of the join an expression calls its table. -/
def valuesOn (row : Row F) : SchemaValues F where
  schemaValues _ columnIdx := row.getD columnIdx none
  virtualSchemaValues _ := none

/-- A row of a table satisfies conditions on the table. -/
def passes (session : Session F) (preds : List (Expression F)) (row : Row F) : Bool :=
  preds.all fun pred => pred.holds session.f64 session.enums session.re2 (valuesOn row)

end

end KushDB.Planner
