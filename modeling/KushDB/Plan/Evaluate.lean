import KushDB.Plan.Expression
import KushDB.Planner.Like
import KushDB.Runtime.Date
import Mathlib.Algebra.Order.Ring.Rat

/-! # The value of an expression

The expression translator generates code that computes an expression from the columns of an operator. Integers have the
width of their type and wrap around. Of the doubles only the instructions are known. NULL is `none`. What the translator
does not accept, although the constructors did, is stated apart: a connective over something that is not boolean, or an
order on booleans.
-/

namespace KushDB.Plan

open Planner List

/-- The instructions on doubles. Two doubles may be unordered. -/
structure Float64 (F : Type) where
  zero : F
  add : F → F → F
  sub : F → F → F
  mul : F → F → F
  div : F → F → F
  compare : F → F → Option Ordering
  ofInt : Int → F

/-- Doubles without rounding, for which no two are unordered. -/
def exactFloat64 : Float64 Rat where
  zero := 0
  add := (· + ·)
  sub := (· - ·)
  mul := (· * ·)
  div := (· / ·)
  compare left right := some (compare left right)
  ofInt value := value

/-- The dictionaries of the enum types. -/
structure EnumManager where
  keys : Int → List (List Char)

def EnumManager.getKey (enums : EnumManager) (id value : Int) : List Char := (enums.keys id).getD value.toNat []

def EnumManager.getValue (enums : EnumManager) (id : Int) (key : List Char) : Int :=
  match (enums.keys id).idxOf? key with
  | some value => value
  | none => -1

/-- Membership in a list of enum values, tested eight at a time; short lists are filled up. -/
def generateValues : List Int → Int → Bool
  | a :: b :: c :: d :: e :: f :: g :: h :: i :: rest, value =>
    [a, b, c, d, e, f, g, h].contains value || generateValues (i :: rest) value
  | values, value =>
    if 5 ≤ values.length then (values ++ List.replicate (8 - values.length) (-1)).contains value
    else if 2 ≤ values.length then (values ++ List.replicate (4 - values.length) (-1)).contains value
    else values.contains value

/-- The padding is no id, so a value that is one is found exactly if it is in the list. -/
theorem generateValues_eq_true_iff (values : List Int) {value : Int} (hValue : 0 ≤ value) :
    generateValues values value = true ↔ value ∈ values := by
  have hPadded : ∀ (part : List Int) (count : Nat),
      (part ++ List.replicate count (-1)).contains value = true ↔ value ∈ part := by
    intro part count
    rw [contains_iff_mem, mem_append, mem_replicate]
    constructor
    · rintro (hMem | ⟨-, hPad⟩)
      · exact hMem
      · omega
    · exact Or.inl
  fun_induction generateValues values value with
  | case1 a b c d e f g h i rest value ih =>
    have hRest : generateValues (i :: rest) value = true ↔ value ∈ i :: rest := ih hValue hPadded
    rw [Bool.or_eq_true, contains_iff_mem, hRest, ← mem_append]
    rfl
  | case2 values value hShort hFive => exact hPadded values _
  | case3 values value hShort hFive hTwo => exact hPadded values _
  | case4 values value hShort hFive hTwo => exact contains_iff_mem

def comparison (op : BinaryArithmeticExpressionType) (order : Ordering) : Option Bool :=
  match op with
  | .eq => some (order = .eq)
  | .neq => some (order ≠ .eq)
  | .lt => some (order = .lt)
  | .leq => some (order ≠ .gt)
  | .gt => some (order = .gt)
  | .geq => some (order ≠ .lt)
  | _ => none

def compareText (left right : List Char) : Ordering :=
  if left = right then .eq else if left < right then .lt else .gt

/-- Comparisons and tests of strings. The left one may be the key of an enum. -/
def evaluateBinaryString (op : BinaryArithmeticExpressionType) (left right : List Char) : Option Bool :=
  match op with
  | .startsWith => some (startsWith left right)
  | .endsWith => some (endsWith left right)
  | .contains => some (contains left right)
  | op => comparison op (compareText left right)

variable {F : Type}

/-! ## Operators on values that are not NULL -/

/-- Arithmetic in the given number of bits. There is no division of integers. -/
def integerArithmetic (width : Nat) (op : BinaryArithmeticExpressionType) (left right : Int) : Option Int :=
  match op with
  | .add => some ((left + right).bmod (2 ^ width))
  | .sub => some ((left - right).bmod (2 ^ width))
  | .mul => some ((left * right).bmod (2 ^ width))
  | _ => none

def realArithmetic (f64 : Float64 F) (op : BinaryArithmeticExpressionType) (left right : F) : Option F :=
  match op with
  | .add => some (f64.add left right)
  | .sub => some (f64.sub left right)
  | .mul => some (f64.mul left right)
  | .div => some (f64.div left right)
  | _ => none

/-- All comparisons of unordered doubles are false. -/
def realComparison (f64 : Float64 F) (op : BinaryArithmeticExpressionType) (left right : F) : Option Bool :=
  match f64.compare left right with
  | some order => comparison op order
  | none => (comparison op .eq).map fun _ => false

def evaluateBinaryInteger (width : Nat) (make : Int → Value F) (op : BinaryArithmeticExpressionType)
    (left right : Int) : Option (Value F) :=
  match integerArithmetic width op left right with
  | some value => some (make value)
  | none => (comparison op (compare left right)).map .boolean

def evaluateBinaryReal (f64 : Float64 F) (op : BinaryArithmeticExpressionType) (left right : F) :
    Option (Value F) :=
  match realArithmetic f64 op left right with
  | some value => some (.real value)
  | none => (realComparison f64 op left right).map .boolean

def evaluateBinaryBool (op : BinaryArithmeticExpressionType) (left right : Bool) : Option Bool :=
  match op with
  | .and => some (left && right)
  | .or => some (left || right)
  | .eq => some (left = right)
  | .neq => some (left ≠ right)
  | _ => none

def evaluateBinaryEnum (enums : EnumManager) (op : BinaryArithmeticExpressionType) (leftId left rightId right : Int) :
    Option Bool :=
  match op with
  | .eq => some (left = right)
  | .neq => some (left ≠ right)
  | op => comparison op (compareText (enums.getKey leftId left) (enums.getKey rightId right))

/-- An enum is not compared with a text for equality. -/
def evaluateBinaryEnumText (enums : EnumManager) (op : BinaryArithmeticExpressionType) (id left : Int)
    (right : List Char) : Option Bool :=
  match op with
  | .eq | .neq => none
  | op => evaluateBinaryString op (enums.getKey id left) right

/-- No result stands for an operator that the translator throws on. -/
def evaluateBinary (f64 : Float64 F) (enums : EnumManager) (op : BinaryArithmeticExpressionType) :
    Value F → Value F → Option (Value F)
  | .boolean left, .boolean right => (evaluateBinaryBool op left right).map .boolean
  | .smallInt left, .smallInt right => evaluateBinaryInteger 16 .smallInt op left right
  | .int left, .int right => evaluateBinaryInteger 32 .int op left right
  | .bigInt left, .bigInt right => evaluateBinaryInteger 64 .bigInt op left right
  | .date left, .date right => (comparison op (compare left right)).map .boolean
  | .real left, .real right => evaluateBinaryReal f64 op left right
  | .text left, .text right => (evaluateBinaryString op left right).map .boolean
  | .enum leftId left, .enum rightId right => (evaluateBinaryEnum enums op leftId left rightId right).map .boolean
  | .enum id left, .text right => (evaluateBinaryEnumText enums op id left right).map .boolean
  | _, _ => none

/-! ## The generated code -/

/-- What an operator reads: the rows of its children and its own virtual columns. -/
structure SchemaValues (F : Type) where
  schemaValues : Nat → Nat → Option (Value F)
  virtualSchemaValues : Nat → Option (Value F)

section

variable (f64 : Float64 F) (enums : EnumManager) (re2 : Re2)

def Expression.compute (source : SchemaValues F) : Expression F → Option (Value F)
  | .columnRef _ _ childIdx columnIdx => source.schemaValues childIdx columnIdx
  | .virtualColumnRef _ _ columnIdx => source.virtualSchemaValues columnIdx
  | .literal value null => if null then none else some value
  | .unary .isNull child => some (.boolean (child.compute source).isNone)
  | .unary .not child =>
    match child.compute source with
    | some (.boolean value) => some (.boolean !value)
    | _ => none
  -- The left operand alone decides whether the right one is looked at.
  | .binary .and left right =>
    match left.compute source with
    | some (.boolean true) => right.compute source
    | some (.boolean false) => some (.boolean false)
    | _ => none
  | .binary .or left right =>
    match left.compute source with
    | some (.boolean true) => some (.boolean true)
    | _ => right.compute source
  | .binary op left right =>
    match left.compute source, right.compute source with
    | some leftValue, some rightValue => evaluateBinary f64 enums op leftValue rightValue
    | _, _ => none
  | .case cond thenExpr elseExpr =>
    match cond.compute source with
    | some (.boolean true) => thenExpr.compute source
    | _ => elseExpr.compute source
  | .intToFloatConversion child =>
    match child.compute source with
    | none => some (.real f64.zero)
    | some (.smallInt value) | some (.int value) | some (.bigInt value) => some (.real (f64.ofInt value))
    | some _ => none
  | .extract child .year =>
    match child.compute source with
    | some (.date value) => some (.int (Date.extractYear value))
    | _ => none
  | .regexpMatching child regex =>
    match child.compute source with
    | some (.text text) => some (.boolean (re2.fullMatch text regex))
    | some (.enum id value) => some (.boolean (re2.fullMatch (enums.getKey id value) regex))
    | _ => some (.boolean false)
  | .enumIn child values =>
    match child.compute source with
    | some (.enum _ value) => some (.boolean (generateValues values value))
    | _ => some (.boolean false)

/-- A filter keeps the row: the expression is true, neither false nor NULL. -/
def Expression.holds (source : SchemaValues F) (expr : Expression F) : Bool :=
  match expr.compute f64 enums re2 source with
  | some (.boolean value) => value
  | _ => false

end

/-! ## What is accepted -/

/-- The operators for which code is generated, given the types of the arguments. -/
def acceptsOperator (op : BinaryArithmeticExpressionType) (left right : SqlType) : Bool :=
  match op with
  | .and | .or => left = .boolean ∧ right = .boolean
  | .eq | .neq => left = right
  | .lt | .leq | .gt | .geq =>
    match left with
    | .boolean => false
    | .enum _ => right = .text ∨ left = right
    | _ => left = right
  | .startsWith | .endsWith | .contains =>
    match left with
    | .text | .enum _ => right = .text
    | _ => false
  | .add | .sub | .mul => left = right ∧ left ∈ [.smallInt, .int, .bigInt, .real]
  | .div => left = right ∧ left = .real

namespace Expression

/-- The constructors and the translator accept the expression. -/
def accepted : Expression F → Bool
  | columnRef .. | virtualColumnRef .. | literal .. => true
  | unary .not child => child.accepted && child.type = .boolean
  | unary .isNull child => child.accepted
  | binary op left right => left.accepted && right.accepted && acceptsOperator op left.type right.type
  | case cond thenExpr elseExpr =>
    cond.accepted && thenExpr.accepted && elseExpr.accepted && cond.type = .boolean && thenExpr.type = elseExpr.type
  | intToFloatConversion child => child.accepted && child.type ∈ [.smallInt, .int, .bigInt]
  | extract child _ => child.accepted && child.type = .date
  | regexpMatching child _ => child.accepted && (calculateRegexpType child.type).isOk
  | enumIn child values => child.accepted && (calculateEnumInType child.type).isOk && values ≠ []

/-- An expression that rows can be filtered by. -/
def isPredicate (expr : Expression F) : Bool := expr.accepted && expr.type = .boolean

variable {left right expr : Expression F}

theorem isPredicate_and : (binary .and left right).isPredicate = (left.isPredicate && right.isPredicate) := by
  simp only [isPredicate, accepted, acceptsOperator, type, decide_true, Bool.and_true]
  cases left.accepted <;> cases right.accepted <;> simp

variable {rewrite : SqlType → Bool → Nat → Nat → Expression F}

theorem accepted_mapColumnRefs
    (hType : ∀ type nullable childIdx columnIdx, (rewrite type nullable childIdx columnIdx).type = type)
    (h : ∀ type nullable childIdx columnIdx, (rewrite type nullable childIdx columnIdx).accepted = true)
    (expr : Expression F) : (expr.mapColumnRefs rewrite).accepted = expr.accepted := by
  induction expr with
  | columnRef type nullable childIdx columnIdx => exact h type nullable childIdx columnIdx
  | virtualColumnRef type nullable columnIdx => rfl
  | literal value null => rfl
  | unary op child ih => cases op <;> simp only [mapColumnRefs, accepted, ih, type_mapColumnRefs hType]
  | binary op left right ihLeft ihRight =>
    simp only [mapColumnRefs, accepted, ihLeft, ihRight, type_mapColumnRefs hType]
  | case cond thenExpr elseExpr ihCond ihThen ihElse =>
    simp only [mapColumnRefs, accepted, ihCond, ihThen, ihElse, type_mapColumnRefs hType]
  | intToFloatConversion child ih | extract child _ ih | regexpMatching child _ ih | enumIn child _ ih =>
    simp only [mapColumnRefs, accepted, ih, type_mapColumnRefs hType]

theorem accepted_rewrite (rewrites : Nat × Nat → Option (Nat × Nat)) (expr : Expression F) :
    (expr.rewriteColumnReferences rewrites).accepted = expr.accepted :=
  accepted_mapColumnRefs (fun _ _ _ _ => rfl) (fun _ _ _ _ => rfl) expr

theorem isPredicate_rewrite (rewrites : Nat × Nat → Option (Nat × Nat)) (expr : Expression F) :
    (expr.rewriteColumnReferences rewrites).isPredicate = expr.isPredicate := by
  rw [isPredicate, accepted_rewrite, rewriteColumnReferences, type_mapColumnRefs fun _ _ _ _ => rfl, isPredicate]

/-! ## What an expression depends on -/

variable {f64 : Float64 F} {enums : EnumManager} {re2 : Re2} {source other : SchemaValues F}

theorem compute_binary {op : BinaryArithmeticExpressionType} (hAnd : op ≠ .and) (hOr : op ≠ .or)
    (left right : Expression F) :
    (binary op left right).compute f64 enums re2 source =
      (left.compute f64 enums re2 source).bind fun leftValue =>
        (right.compute f64 enums re2 source).bind fun rightValue =>
          evaluateBinary f64 enums op leftValue rightValue := by
  cases op with
  | and => exact absurd rfl hAnd
  | or => exact absurd rfl hOr
  | _ =>
    simp only [compute]
    cases left.compute f64 enums re2 source <;> cases right.compute f64 enums re2 source <;> rfl

/-- An expression with other leaves has the same value where they have the values of the old ones. -/
theorem compute_mapColumnRefs (h : ∀ leaf ∈ expr.leaves,
      (leaf.mapColumnRefs rewrite).compute f64 enums re2 source = leaf.compute f64 enums re2 other) :
    (expr.mapColumnRefs rewrite).compute f64 enums re2 source = expr.compute f64 enums re2 other := by
  induction expr with
  | columnRef | virtualColumnRef | literal => exact h _ mem_cons_self
  | unary op child ih => cases op <;> simp only [mapColumnRefs, compute, ih h]
  | binary op left right ihLeft ihRight =>
    have hLeft := ihLeft fun leaf hLeaf => h leaf (mem_append_left _ hLeaf)
    have hRight := ihRight fun leaf hLeaf => h leaf (mem_append_right _ hLeaf)
    cases op <;> simp only [mapColumnRefs, compute, hLeft, hRight]
  | case cond thenExpr elseExpr ihCond ihThen ihElse =>
    have hCond := ihCond fun leaf hLeaf => h leaf (mem_append_left _ (mem_append_left _ hLeaf))
    have hThen := ihThen fun leaf hLeaf => h leaf (mem_append_left _ (mem_append_right _ hLeaf))
    have hElse := ihElse fun leaf hLeaf => h leaf (mem_append_right _ hLeaf)
    simp only [mapColumnRefs, compute, hCond, hThen, hElse]
  | extract child part ih =>
    cases part
    simp only [mapColumnRefs, compute, ih h]
  | intToFloatConversion child ih | regexpMatching child _ ih | enumIn child _ ih =>
    simp only [mapColumnRefs, compute, ih h]

theorem mapColumnRefs_columnRef (expr : Expression F) : expr.mapColumnRefs columnRef = expr := by
  induction expr with
  | columnRef | virtualColumnRef | literal => rfl
  | binary op left right ihLeft ihRight => rw [mapColumnRefs, ihLeft, ihRight]
  | case cond thenExpr elseExpr ihCond ihThen ihElse => rw [mapColumnRefs, ihCond, ihThen, ihElse]
  | unary _ child ih | intToFloatConversion child ih | extract child _ ih | regexpMatching child _ ih
  | enumIn child _ ih => rw [mapColumnRefs, ih]

/-- Rewriting the references of an expression and looking at other rows come to the same. -/
theorem compute_rewrite {rewrites : Nat × Nat → Option (Nat × Nat)}
    (hVirtual : source.virtualSchemaValues = other.virtualSchemaValues) (h : ∀ reference ∈ expr.references,
      source.schemaValues ((rewrites reference).getD reference).1 ((rewrites reference).getD reference).2 =
        other.schemaValues reference.1 reference.2) :
    (expr.rewriteColumnReferences rewrites).compute f64 enums re2 source = expr.compute f64 enums re2 other := by
  refine compute_mapColumnRefs fun leaf hLeaf => ?_
  rcases leaf_cases hLeaf with ⟨type, nullable, childIdx, columnIdx, rfl⟩ | ⟨type, nullable, columnIdx, rfl⟩ |
    ⟨value, null, rfl⟩
  · exact h _ (mem_filterMap.mpr ⟨_, hLeaf, rfl⟩)
  · exact congrFun hVirtual columnIdx
  · rfl

theorem compute_congr (hVirtual : source.virtualSchemaValues = other.virtualSchemaValues)
    (h : ∀ reference ∈ expr.references,
      source.schemaValues reference.1 reference.2 = other.schemaValues reference.1 reference.2) :
    expr.compute f64 enums re2 source = expr.compute f64 enums re2 other := by
  have hRewrite : expr.rewriteColumnReferences (fun _ => none) = expr := mapColumnRefs_columnRef expr
  rw [← hRewrite]
  exact (compute_rewrite hVirtual h).trans (by rw [hRewrite])

theorem holds_congr (h : left.compute f64 enums re2 source = right.compute f64 enums re2 other) :
    left.holds f64 enums re2 source = right.holds f64 enums re2 other := by
  rw [holds, h, holds]

theorem holds_iff :
    expr.holds f64 enums re2 source = true ↔ expr.compute f64 enums re2 source = some (.boolean true) := by
  rw [holds]
  split
  · rename_i value hValue
    cases value <;> simp [hValue]
  · rename_i hOther
    exact iff_of_false Bool.false_ne_true (hOther true)

theorem holds_and :
    (binary .and left right).holds f64 enums re2 source =
      (left.holds f64 enums re2 source && right.holds f64 enums re2 source) := by
  rw [Bool.eq_iff_iff, Bool.and_eq_true, holds_iff, holds_iff, holds_iff, compute]
  cases left.compute f64 enums re2 source with
  | none => simp
  | some value =>
    cases value with
    | boolean value => cases value <;> simp
    | _ => simp

end Expression

end KushDB.Plan
