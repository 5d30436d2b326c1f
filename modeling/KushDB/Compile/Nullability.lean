import KushDB.Compile.NullPropagation
import KushDB.Compile.Struct

/-! # Static nullability

The constructors of the expressions compute whether an expression may be NULL. The generated code has a branch for NULL
in every operator, and takes it only where a leaf that may be NULL is NULL.
-/

namespace KushDB.Plan

open Compile Planner

variable {F : Type}

namespace Expression

def nullable : Expression F → Bool
  | columnRef _ nullable _ _ | virtualColumnRef _ nullable _ => nullable
  | literal _ null => null
  | unary .isNull _ => false
  | unary .not child => child.nullable
  | binary _ left right => left.nullable || right.nullable
  | case _ thenExpr elseExpr => thenExpr.nullable || elseExpr.nullable
  | intToFloatConversion child | extract child _ => child.nullable
  | regexpMatching _ _ | enumIn _ _ => false

/-- The columns that are not nullable hold values. -/
def NotNullIn (source : SchemaValues F) : Expression F → Prop
  | columnRef _ nullable childIdx columnIdx => nullable = false → source.schemaValues childIdx columnIdx ≠ none
  | virtualColumnRef _ nullable columnIdx => nullable = false → source.virtualSchemaValues columnIdx ≠ none
  | literal .. => True
  | unary _ child | intToFloatConversion child | extract child _ | regexpMatching child _ | enumIn child _ =>
    child.NotNullIn source
  | binary _ left right => left.NotNullIn source ∧ right.NotNullIn source
  | case cond thenExpr elseExpr => cond.NotNullIn source ∧ thenExpr.NotNullIn source ∧ elseExpr.NotNullIn source

variable {f64 : Float64 F} {enums : EnumManager} {re2 : Re2} {source : SchemaValues F}

/-- A connective looks at its left operand and may return the right one. -/
theorem compute_connective_ne_none {op : BinaryArithmeticExpressionType} {left right : Expression F}
    (hConnective : op = .and ∨ op = .or) {value : Bool}
    (hLeft : left.compute f64 enums re2 source = some (.boolean value))
    (hRight : right.compute f64 enums re2 source ≠ none) :
    (binary op left right).compute f64 enums re2 source ≠ none := by
  rcases hConnective with rfl | rfl <;> rw [compute, hLeft] <;> cases value
  · simp
  · exact hRight
  · exact hRight
  · simp

/-- Code that was generated for an expression that is not nullable computes a value. -/
theorem compute_ne_none_of_not_nullable {expr : Expression F} (hAccepted : expr.accepted = true)
    (hTyped : expr.TypedIn source) (hColumns : expr.NotNullIn source) (hNullable : expr.nullable = false) :
    expr.compute f64 enums re2 source ≠ none := by
  induction expr with
  | columnRef type nullable childIdx columnIdx | virtualColumnRef type nullable columnIdx => exact hColumns hNullable
  | literal value null =>
    rw [nullable] at hNullable
    simp [compute, hNullable]
  | unary op child ih =>
    cases op with
    | isNull => simp [compute]
    | not =>
      simp only [accepted, Bool.and_eq_true, decide_eq_true_eq] at hAccepted
      rw [ne_eq, compute_not_eq_none hAccepted.1 hAccepted.2 hTyped]
      exact ih hAccepted.1 hTyped hColumns hNullable
  | binary op left right ihLeft ihRight =>
    simp only [accepted, Bool.and_eq_true] at hAccepted
    obtain ⟨⟨hLeft, hRight⟩, hOp⟩ := hAccepted
    rw [nullable, Bool.or_eq_false_iff] at hNullable
    have hLeftValue := ihLeft hLeft hTyped.1 hColumns.1 hNullable.1
    have hRightValue := ihRight hRight hTyped.2 hColumns.2 hNullable.2
    by_cases hConnective : op = .and ∨ op = .or
    · have hType : left.type = .boolean := by
        rcases hConnective with rfl | rfl <;> exact (of_decide_eq_true hOp).1
      obtain ⟨value, hValue⟩ := Option.ne_none_iff_exists'.mp hLeftValue
      obtain ⟨result, rfl⟩ := value_of_boolean ((compute_type hLeft hTyped.1 value hValue).trans hType)
      exact compute_connective_ne_none hConnective hValue hRightValue
    · have hNot : op ∉ [.and, .or] := by simpa using hConnective
      rw [ne_eq, compute_binary_eq_none hNot hLeft hRight hOp hTyped.1 hTyped.2, not_or]
      exact ⟨hLeftValue, hRightValue⟩
  | case cond thenExpr elseExpr _ ihThen ihElse =>
    simp only [accepted, Bool.and_eq_true, decide_eq_true_eq] at hAccepted
    obtain ⟨⟨⟨⟨_, hThen⟩, hElse⟩, _⟩, _⟩ := hAccepted
    rw [nullable, Bool.or_eq_false_iff] at hNullable
    -- a condition that is NULL selects the second branch, so the condition itself does not matter
    rw [compute]
    split
    · exact ihThen hThen hTyped.2.1 hColumns.2.1 hNullable.1
    · exact ihElse hElse hTyped.2.2 hColumns.2.2 hNullable.2
  | intToFloatConversion child ih =>
    simp only [accepted, Bool.and_eq_true, decide_eq_true_eq] at hAccepted
    rw [compute]
    cases hValue : child.compute f64 enums re2 source with
    | none => simp
    | some value =>
      have hType := compute_type hAccepted.1 hTyped value hValue
      obtain ⟨result, rfl | rfl | rfl⟩ := value_of_integer (hType ▸ hAccepted.2) <;> simp
  | extract child valueToExtract ih =>
    simp only [accepted, Bool.and_eq_true, decide_eq_true_eq] at hAccepted
    obtain ⟨value, hValue⟩ := Option.ne_none_iff_exists'.mp (ih hAccepted.1 hTyped hColumns hNullable)
    obtain ⟨result, rfl⟩ := value_of_date ((compute_type hAccepted.1 hTyped value hValue).trans hAccepted.2)
    simp [compute, hValue]
  | regexpMatching child regex ih | enumIn child values ih =>
    rw [compute]
    split <;> simp

/-- An expression that is not nullable has a value in every row, and a struct with a field for it loses nothing. -/
theorem nullable_sound (f64 : Float64 F) (enums : EnumManager) (re2 : Re2) (source : SchemaValues F)
    (expr : Expression F) (hAccepted : expr.accepted = true) (hTyped : expr.TypedIn source)
    (hColumns : expr.NotNullIn source) :
    (expr.nullable = false → ∃ value, expr.compute f64 enums re2 source = some value) ∧
      ∀ (placeholder : Value F) (field : StructField (Value F)), field.nullable = expr.nullable →
        (field.update placeholder (expr.compute f64 enums re2 source)).get = expr.compute f64 enums re2 source := by
  have hValue : expr.nullable = false → expr.compute f64 enums re2 source ≠ none :=
    compute_ne_none_of_not_nullable hAccepted hTyped hColumns
  refine ⟨fun hNullable => Option.ne_none_iff_exists'.mp (hValue hNullable), fun placeholder field hField => ?_⟩
  apply StructField.get_update
  intro hFlag
  exact hValue (hField ▸ hFlag)

/-- A condition on a column that is NULL selects between two expressions that are not nullable. -/
theorem nullable_sound_case : ∃ expr : Expression Rat,
    expr = .case (.binary .lt (.columnRef .int true 0 0) (.columnRef .int false 0 1)) (.columnRef .int false 0 1)
      (.literal (.int 5) false) ∧ expr.nullable = false ∧
    (∃ value, expr.compute exactFloat64 ⟨fun _ => []⟩ Re2.reference nullAndOne = some value) := by
  refine ⟨_, rfl, rfl, (nullable_sound exactFloat64 ⟨fun _ => []⟩ Re2.reference nullAndOne _ (by decide) ?_ ?_).1 rfl⟩
  · simp [TypedIn, nullAndOne, Value.type]
  · simp [NotNullIn, nullAndOne]

end Expression

end KushDB.Plan
