import KushDB.Compile.ExpressionTranslator
import KushDB.Planner.LikeCorrectness

/-! # NULL in scalar operators

Every operator has a branch of its own for NULL. Most of them return NULL there. The conversion of an integer, the
match with a regular expression and the test of an enum return a value, so that a NULL below them is not seen.
-/

namespace KushDB.Plan

open Planner

variable {F : Type}

namespace Expression

/-- Comparisons, arithmetic, string predicates, enum IN, EXTRACT, the conversion of integers and NOT. -/
def isScalar : Expression F → Bool
  | columnRef .. | virtualColumnRef .. | literal .. => true
  | unary op child => op = .not && child.isScalar
  | binary op left right => op ∉ [.and, .or] && left.isScalar && right.isScalar
  | case .. => false
  | intToFloatConversion child | extract child _ | regexpMatching child _ | enumIn child _ => child.isScalar

/-- The leaves with no conversion, no regular expression and no enum IN above them. -/
def exposedLeaves : Expression F → List (Expression F)
  | columnRef type nullable childIdx columnIdx => [columnRef type nullable childIdx columnIdx]
  | virtualColumnRef type nullable columnIdx => [virtualColumnRef type nullable columnIdx]
  | literal value null => [literal value null]
  | unary _ child | extract child _ => child.exposedLeaves
  | binary _ left right => left.exposedLeaves ++ right.exposedLeaves
  | case cond thenExpr elseExpr => cond.exposedLeaves ++ thenExpr.exposedLeaves ++ elseExpr.exposedLeaves
  | intToFloatConversion _ | regexpMatching _ _ | enumIn _ _ => []

variable (f64 : Float64 F) (enums : EnumManager) (re2 : Re2)

/-- A NULL in one of the leaves makes the expression NULL, and its negation keeps no row then. -/
def PropagatesNull (source : SchemaValues F) (expr : Expression F) : Prop :=
  (∃ leaf ∈ expr.leaves, leaf.compute f64 enums re2 source = none) →
    expr.compute f64 enums re2 source = none ∧ (unary .not expr).holds f64 enums re2 source = false

variable {f64 : Float64 F} {enums : EnumManager} {re2 : Re2} {source : SchemaValues F}
variable {value : Value F} {child : Expression F}

theorem value_of_boolean (h : value.type = .boolean) : ∃ result, value = .boolean result := by
  cases value <;> first | exact ⟨_, rfl⟩ | cases h

theorem value_of_date (h : value.type = .date) : ∃ result, value = .date result := by
  cases value <;> first | exact ⟨_, rfl⟩ | cases h

theorem value_of_integer (h : value.type ∈ [.smallInt, .int, .bigInt]) :
    ∃ result, value = .smallInt result ∨ value = .int result ∨ value = .bigInt result := by
  cases value <;> simp [Value.type] at h ⊢

/-! ## One operator -/

theorem compute_not_eq_none (hAccepted : child.accepted = true) (hType : child.type = .boolean)
    (hTyped : child.TypedIn source) :
    (unary .not child).compute f64 enums re2 source = none ↔ child.compute f64 enums re2 source = none := by
  rw [compute]
  cases hValue : child.compute f64 enums re2 source with
  | none => exact Iff.rfl
  | some value =>
    obtain ⟨result, rfl⟩ := value_of_boolean ((compute_type hAccepted hTyped value hValue).trans hType)
    simp

theorem compute_binary_eq_none {op : BinaryArithmeticExpressionType} {left right : Expression F}
    (hConnective : op ∉ [.and, .or]) (hLeft : left.accepted = true) (hRight : right.accepted = true)
    (hOp : acceptsOperator op left.type right.type = true) (hLeftTyped : left.TypedIn source)
    (hRightTyped : right.TypedIn source) :
    (binary op left right).compute f64 enums re2 source = none ↔
      left.compute f64 enums re2 source = none ∨ right.compute f64 enums re2 source = none := by
  have hOther : op ≠ .and ∧ op ≠ .or := by simpa using hConnective
  rw [compute_binary hOther.1 hOther.2]
  cases hLeftValue : left.compute f64 enums re2 source with
  | none => simp
  | some leftValue =>
    cases hRightValue : right.compute f64 enums re2 source with
    | none => simp
    | some rightValue =>
      rw [← compute_type hLeft hLeftTyped leftValue hLeftValue,
        ← compute_type hRight hRightTyped rightValue hRightValue] at hOp
      obtain ⟨value, hValue, _⟩ := @evaluateBinary_typed F f64 enums op leftValue rightValue hOp
      simp [hValue]

theorem compute_extract_eq_none {part : ExtractValue} (hAccepted : child.accepted = true) (hType : child.type = .date)
    (hTyped : child.TypedIn source) :
    (extract child part).compute f64 enums re2 source = none ↔ child.compute f64 enums re2 source = none := by
  cases part
  rw [compute]
  cases hValue : child.compute f64 enums re2 source with
  | none => exact Iff.rfl
  | some value =>
    obtain ⟨result, rfl⟩ := value_of_date ((compute_type hAccepted hTyped value hValue).trans hType)
    simp

theorem compute_intToFloatConversion_ne_none (hAccepted : child.accepted = true)
    (hType : child.type ∈ [.smallInt, .int, .bigInt]) (hTyped : child.TypedIn source) :
    (intToFloatConversion child).compute f64 enums re2 source ≠ none := by
  rw [compute]
  cases hValue : child.compute f64 enums re2 source with
  | none => simp
  | some value =>
    rw [← compute_type hAccepted hTyped value hValue] at hType
    obtain ⟨result, rfl | rfl | rfl⟩ := value_of_integer hType <;> simp

theorem compute_regexpMatching_ne_none (child : Expression F) (regex : List Char) :
    (regexpMatching child regex).compute f64 enums re2 source ≠ none := by
  rw [compute]
  split <;> simp

theorem compute_enumIn_ne_none (child : Expression F) (values : List Int) :
    (enumIn child values).compute f64 enums re2 source ≠ none := by
  rw [compute]
  split <;> simp

/-! ## Trees -/

variable {expr : Expression F}

/-- A tree is NULL exactly when one of its exposed leaves is. -/
theorem compute_eq_none_iff (hScalar : expr.isScalar = true) (hAccepted : expr.accepted = true)
    (hTyped : expr.TypedIn source) :
    expr.compute f64 enums re2 source = none ↔
      ∃ leaf ∈ expr.exposedLeaves, leaf.compute f64 enums re2 source = none := by
  induction expr with
  | columnRef type nullable childIdx columnIdx => simp [exposedLeaves]
  | virtualColumnRef type nullable columnIdx => simp [exposedLeaves]
  | literal value null => simp [exposedLeaves]
  | unary op child ih =>
    simp only [isScalar, Bool.and_eq_true, decide_eq_true_eq] at hScalar
    obtain ⟨rfl, hScalar⟩ := hScalar
    simp only [accepted, Bool.and_eq_true, decide_eq_true_eq] at hAccepted
    rw [compute_not_eq_none hAccepted.1 hAccepted.2 hTyped, ih hScalar hAccepted.1 hTyped, exposedLeaves]
  | binary op left right ihLeft ihRight =>
    simp only [isScalar, Bool.and_eq_true, decide_eq_true_eq] at hScalar
    simp only [accepted, Bool.and_eq_true] at hAccepted
    rw [compute_binary_eq_none hScalar.1.1 hAccepted.1.1 hAccepted.1.2 hAccepted.2 hTyped.1 hTyped.2,
      ihLeft hScalar.1.2 hAccepted.1.1 hTyped.1, ihRight hScalar.2 hAccepted.1.2 hTyped.2, exposedLeaves]
    simp only [List.mem_append, or_and_right, exists_or]
  | case cond thenExpr elseExpr => simp [isScalar] at hScalar
  | intToFloatConversion child ih =>
    simp only [accepted, Bool.and_eq_true, decide_eq_true_eq] at hAccepted
    exact iff_of_false (compute_intToFloatConversion_ne_none hAccepted.1 hAccepted.2 hTyped) (by simp [exposedLeaves])
  | extract child part ih =>
    simp only [accepted, Bool.and_eq_true, decide_eq_true_eq] at hAccepted
    rw [compute_extract_eq_none hAccepted.1 hAccepted.2 hTyped, ih hScalar hAccepted.1 hTyped, exposedLeaves]
  | regexpMatching child regex ih =>
    exact iff_of_false (compute_regexpMatching_ne_none child regex) (by simp [exposedLeaves])
  | enumIn child values ih => exact iff_of_false (compute_enumIn_ne_none child values) (by simp [exposedLeaves])

theorem keeps_not_of_none (h : expr.compute f64 enums re2 source = none) :
    (unary .not expr).holds f64 enums re2 source = false := by
  rw [holds, compute, h]

/-- NULL is propagated exactly when one of the NULL leaves, if there is one, is exposed. -/
theorem propagatesNull_iff {expr : Expression F} (hScalar : expr.isScalar = true)
    (hAccepted : expr.accepted = true) (hTyped : expr.TypedIn source) :
    expr.PropagatesNull f64 enums re2 source ↔
      ((∃ leaf ∈ expr.leaves, leaf.compute f64 enums re2 source = none) →
        ∃ leaf ∈ expr.exposedLeaves, leaf.compute f64 enums re2 source = none) := by
  rw [← compute_eq_none_iff hScalar hAccepted hTyped]
  refine imp_congr_right fun _ => ?_
  exact and_iff_left_of_imp keeps_not_of_none

end Expression

/-- A row with NULL in its first column and a number in its second. -/
def nullAndOne : SchemaValues Rat where
  schemaValues _ columnIdx := if columnIdx = 0 then none else some (.int 1)
  virtualSchemaValues _ := none

theorem propagatesNull_lessThan :
    ∃ expr : Expression Rat,
      expr = .binary .lt (.columnRef .int true 0 0) (.columnRef .int false 0 1) ∧ expr.isScalar = true ∧
      expr.accepted = true ∧ expr.TypedIn nullAndOne ∧
      expr.PropagatesNull exactFloat64 ⟨fun _ => []⟩ Re2.reference nullAndOne := by
  refine ⟨_, rfl, rfl, rfl, ?_, (Expression.propagatesNull_iff rfl rfl ?_).mpr fun _ => ?_⟩
  · constructor <;> simp [Expression.TypedIn, nullAndOne, Value.type]
  · constructor <;> simp [Expression.TypedIn, nullAndOne, Value.type]
  · exact ⟨.columnRef .int true 0 0, by simp [Expression.exposedLeaves], rfl⟩

/-- NOT (x LIKE '_') keeps a row with x NULL, 0.0 stands for a NULL integer, and an enum that is NULL is not in a
list. -/
theorem not_propagatesNull :
    ¬(Expression.regexpMatching (.columnRef .text true 0 0) ['^', '.', '$']).PropagatesNull exactFloat64
        ⟨fun _ => []⟩ Re2.reference nullAndOne ∧
      ¬(Expression.intToFloatConversion (.columnRef .int true 0 0)).PropagatesNull exactFloat64
        ⟨fun _ => []⟩ Re2.reference nullAndOne ∧
      ¬(Expression.enumIn (.columnRef (.enum 0) true 0 0) [0]).PropagatesNull exactFloat64
        ⟨fun _ => []⟩ Re2.reference nullAndOne := by
  refine ⟨fun h => ?_, fun h => ?_, fun h => ?_⟩
  all_goals exact absurd (h ⟨_, List.mem_cons_self, rfl⟩).1 (by simp [Expression.compute, nullAndOne])

/-! ## Enum IN -/

namespace Expression

/-- The vector compares of an enum IN test membership in its list. -/
theorem compute_enumIn (f64 : Float64 F) (enums : EnumManager) (re2 : Re2) (source : SchemaValues F)
    (child : Expression F) (values : List Int) (enumId value : Int) (hValue : 0 ≤ value)
    (hChild : child.compute f64 enums re2 source = some (.enum enumId value)) :
    (enumIn child values).compute f64 enums re2 source = some (.boolean (decide (value ∈ values))) := by
  rw [compute, hChild]
  refine congrArg (fun found => some (Value.boolean found)) ?_
  rw [Bool.eq_iff_iff, decide_eq_true_eq]
  exact generateValues_eq_true_iff values hValue

/-- Eleven ids: one compare of eight, and a padded one of the last three that finds the value of the column. -/
theorem compute_enumIn_eleven : ∃ (expr : Expression Rat) (source : SchemaValues Rat),
    expr = .enumIn (.columnRef (.enum 0) false 0 1) [4, 1, 7, 0, 3, 5, 2, 8, 11, 9, 6] ∧
    source.schemaValues 0 1 = some (.enum 0 9) ∧
    expr.compute exactFloat64 ⟨fun _ => []⟩ Re2.reference source =
      some (.boolean (decide ((9 : Int) ∈ [4, 1, 7, 0, 3, 5, 2, 8, 11, 9, 6]))) :=
  ⟨_, ⟨fun _ columnIdx => if columnIdx = 0 then none else some (.enum 0 9), fun _ => none⟩, rfl, rfl,
    compute_enumIn exactFloat64 ⟨fun _ => []⟩ Re2.reference _ _ _ 0 9 (by decide) rfl⟩

end Expression

end KushDB.Plan
