import KushDB.Plan.Evaluate

/-! # Types of computed values

The translator throws on no expression that was accepted, and the generated code computes values of the type that the
constructors have computed for the expression.
-/

namespace KushDB.Plan

open Planner

variable {F : Type}

/-- The columns hold values of the types their references state. -/
def Expression.TypedIn (source : SchemaValues F) : Expression F → Prop
  | .columnRef type _ childIdx columnIdx => ∀ value ∈ source.schemaValues childIdx columnIdx, value.type = type
  | .virtualColumnRef type _ columnIdx => ∀ value ∈ source.virtualSchemaValues columnIdx, value.type = type
  | .literal .. => True
  | .unary _ child | .intToFloatConversion child | .extract child _ | .regexpMatching child _ | .enumIn child _ =>
    child.TypedIn source
  | .binary _ left right => left.TypedIn source ∧ right.TypedIn source
  | .case cond thenExpr elseExpr => cond.TypedIn source ∧ thenExpr.TypedIn source ∧ elseExpr.TypedIn source

/-- The type of the result of a binary operator. -/
def binaryType (op : BinaryArithmeticExpressionType) (left : SqlType) : SqlType :=
  match op with
  | .add | .sub | .mul | .div => left
  | _ => .boolean

theorem Expression.type_binary (op : BinaryArithmeticExpressionType) (left right : Expression F) :
    (binary op left right).type = binaryType op left.type := by
  cases op <;> rfl

variable {f64 : Float64 F} {enums : EnumManager} {re2 : Re2}
variable {op : BinaryArithmeticExpressionType}

theorem evaluateBinaryInteger_typed (width : Nat) (make : Int → Value F) (type : SqlType)
    (hMake : ∀ value, (make value).type = type) (hType : type ∈ [.smallInt, .int, .bigInt])
    (h : acceptsOperator op type type = true) (left right : Int) :
    ∃ value, evaluateBinaryInteger width make op left right = some value ∧ value.type = binaryType op type := by
  cases op with
  | and | or | startsWith | endsWith | contains | div =>
    simp only [List.mem_cons, List.not_mem_nil, or_false] at hType
    rcases hType with rfl | rfl | rfl <;> exact absurd h (by decide)
  | add | sub | mul => exact ⟨_, rfl, hMake _⟩
  | _ => exact ⟨_, rfl, rfl⟩

theorem evaluateBinaryReal_typed (h : acceptsOperator op .real .real = true) (left right : F) :
    ∃ value, evaluateBinaryReal f64 op left right = some value ∧ value.type = binaryType op .real := by
  cases op with
  | and | or | startsWith | endsWith | contains => exact absurd h (by decide)
  | add | sub | mul | div => exact ⟨_, rfl, rfl⟩
  | _ =>
    unfold evaluateBinaryReal realArithmetic realComparison
    split
    · simp_all
    · split <;> exact ⟨_, rfl, rfl⟩

theorem acceptsOperator_types {left right : SqlType} (h : acceptsOperator op left right = true) :
    left = right ∨ (∃ id, left = .enum id) ∧ right = .text := by
  cases op <;> cases left <;> simp_all [acceptsOperator, or_comm]

/-- The translator throws on no operator that was accepted, and the result has the computed type. -/
theorem evaluateBinary_typed {op : BinaryArithmeticExpressionType} {left right : Value F}
    (h : acceptsOperator op left.type right.type = true) :
    ∃ value, evaluateBinary f64 enums op left right = some value ∧ value.type = binaryType op left.type := by
  have hTypes := acceptsOperator_types h
  cases left <;> cases right <;> try (simp [Value.type] at hTypes; done)
  case smallInt.smallInt left right =>
    exact evaluateBinaryInteger_typed 16 .smallInt .smallInt (fun _ => rfl) (by decide) h left right
  case int.int left right => exact evaluateBinaryInteger_typed 32 .int .int (fun _ => rfl) (by decide) h left right
  case bigInt.bigInt left right =>
    exact evaluateBinaryInteger_typed 64 .bigInt .bigInt (fun _ => rfl) (by decide) h left right
  case real.real left right => exact evaluateBinaryReal_typed h left right
  all_goals cases op <;> first | exact ⟨_, rfl, rfl⟩ | simp [acceptsOperator, Value.type] at h

namespace Expression

variable {source : SchemaValues F}

/-- The generated code computes values of the type of the expression. -/
theorem compute_type {expr : Expression F} (hAccepted : expr.accepted = true) (hTyped : expr.TypedIn source) :
    ∀ value, expr.compute f64 enums re2 source = some value → value.type = expr.type := by
  induction expr with
  | columnRef type nullable childIdx columnIdx => exact hTyped
  | virtualColumnRef type nullable columnIdx => exact hTyped
  | literal value null | intToFloatConversion child ih | extract child valueToExtract ih
  | regexpMatching child regex ih | enumIn child values ih =>
    intro result hResult
    rw [compute] at hResult
    split at hResult <;> cases hResult <;> rfl
  | unary op child ih =>
    intro result hResult
    cases op with
    | isNull =>
      cases hResult
      rfl
    | not =>
      rw [compute] at hResult
      split at hResult <;> cases hResult
      rfl
  | binary op left right ihLeft ihRight =>
    intro result hResult
    simp only [accepted, Bool.and_eq_true] at hAccepted
    obtain ⟨⟨hLeft, hRight⟩, hOp⟩ := hAccepted
    rw [type_binary]
    by_cases hConnective : op = .and ∨ op = .or
    · have hType : right.type = .boolean := by
        rcases hConnective with rfl | rfl <;> exact (of_decide_eq_true hOp).2
      have hBoolean := ihRight hRight hTyped.2
      rw [hType] at hBoolean
      rcases hConnective with rfl | rfl
      all_goals
        rw [compute] at hResult
        split at hResult
      · exact hBoolean result hResult
      · cases hResult
        rfl
      · cases hResult
      · cases hResult
        rfl
      · exact hBoolean result hResult
    · rw [not_or] at hConnective
      rw [compute_binary hConnective.1 hConnective.2, Option.bind_eq_some_iff] at hResult
      obtain ⟨leftValue, hLeftValue, hResult⟩ := hResult
      obtain ⟨rightValue, hRightValue, hResult⟩ := Option.bind_eq_some_iff.mp hResult
      rw [← ihLeft hLeft hTyped.1 leftValue hLeftValue, ← ihRight hRight hTyped.2 rightValue hRightValue] at hOp
      obtain ⟨value, hValue, hType⟩ := @evaluateBinary_typed F f64 enums op leftValue rightValue hOp
      rw [hValue] at hResult
      cases hResult
      rw [hType, ihLeft hLeft hTyped.1 leftValue hLeftValue]
  | case cond thenExpr elseExpr ihCond ihThen ihElse =>
    intro result hResult
    simp only [accepted, Bool.and_eq_true, decide_eq_true_eq] at hAccepted
    obtain ⟨⟨⟨⟨hCond, hThen⟩, hElse⟩, _⟩, hSame⟩ := hAccepted
    rw [compute] at hResult
    split at hResult
    · exact ihThen hThen hTyped.2.1 result hResult
    · exact (ihElse hElse hTyped.2.2 result hResult).trans hSame.symm
end Expression

end KushDB.Plan
