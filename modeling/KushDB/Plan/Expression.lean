import Mathlib.Data.List.Dedup
import Mathlib.Data.Rat.Defs

/-! # Expressions of a plan

Every expression has a type. The constructors of the operators check the types of their children and throw, so that
an expression that was built is typed. What a double is stays open, and a date is its day number.
-/

namespace KushDB.Plan

open List

inductive SqlType
  | smallInt
  | int
  | bigInt
  | real
  | date
  | text
  | boolean
  | enum (enumId : Int)
deriving DecidableEq, Repr

inductive Value (F : Type)
  | smallInt (value : Int)
  | int (value : Int)
  | bigInt (value : Int)
  | real (value : F)
  | date (value : Int)
  | text (value : List Char)
  | boolean (value : Bool)
  | enum (enumId value : Int)
deriving DecidableEq, Repr

/-- The columns of a row; NULL is `none`. -/
abbrev Row (F : Type) := List (Option (Value F))

variable {F : Type}

def Value.type : Value F → SqlType
  | .smallInt _ => .smallInt
  | .int _ => .int
  | .bigInt _ => .bigInt
  | .real _ => .real
  | .date _ => .date
  | .text _ => .text
  | .boolean _ => .boolean
  | .enum enumId _ => .enum enumId

inductive UnaryArithmeticExpressionType
  | not
  | isNull
deriving DecidableEq, Repr

inductive BinaryArithmeticExpressionType
  | add
  | sub
  | mul
  | div
  | eq
  | neq
  | lt
  | leq
  | gt
  | geq
  | and
  | or
  | startsWith
  | endsWith
  | contains
deriving DecidableEq, Repr

inductive ExtractValue
  | year
deriving DecidableEq, Repr

inductive AggregateType
  | sum
  | avg
  | count
  | min
  | max
deriving DecidableEq, Repr

inductive Expression (F : Type)
  | columnRef (type : SqlType) (nullable : Bool) (childIdx columnIdx : Nat)
  | virtualColumnRef (type : SqlType) (nullable : Bool) (columnIdx : Nat)
  | literal (value : Value F) (null : Bool)
  | unary (op : UnaryArithmeticExpressionType) (child : Expression F)
  | binary (op : BinaryArithmeticExpressionType) (left right : Expression F)
  | case (cond thenExpr elseExpr : Expression F)
  | intToFloatConversion (child : Expression F)
  | extract (child : Expression F) (valueToExtract : ExtractValue)
  | regexpMatching (child : Expression F) (regex : List Char)
  | enumIn (child : Expression F) (values : List Int)
deriving Repr

/-! ## Types -/

def calculateBinaryType (op : BinaryArithmeticExpressionType) (left right : SqlType) : Except String SqlType :=
  match left with
  | .enum _ =>
    match op with
    | .eq | .neq => if left = right then .ok .boolean else .error "Require same type arguments"
    | .lt | .leq | .gt | .geq | .startsWith | .endsWith | .contains =>
      if right = .text ∨ left = right then .ok .boolean else .error "Require same type arguments"
    | _ => .error "Invalid expr type"
  | _ =>
    match right with
    | .enum _ => .error "not supported yet"
    | _ =>
      if left = right then
        match op with
        | .add | .sub | .mul | .div => .ok left
        | _ => .ok .boolean
      else .error "Require same type arguments"

def calculateUnaryType (op : UnaryArithmeticExpressionType) (child : SqlType) : Except String SqlType :=
  match op with
  | .not => if child = .boolean then .ok .boolean else .error "Not boolean child"
  | .isNull => .ok .boolean

def calculateEnumInType (child : SqlType) : Except String SqlType :=
  match child with
  | .enum _ => .ok .boolean
  | _ => .error "Invalid child type for Enum in. Expected enum."

def calculateRegexpType (child : SqlType) : Except String SqlType :=
  match child with
  | .text | .enum _ => .ok .boolean
  | _ => .error "Invalid child type for LIKE. Expected text/enum."

def calculateAggTypeId (aggType : AggregateType) (child : SqlType) : Except String SqlType :=
  match aggType with
  | .sum =>
    if child ∈ [.int, .smallInt, .bigInt, .real] then .ok child else .error "Invalid input type for sum aggregate"
  | .avg =>
    if child ∈ [.int, .smallInt, .bigInt, .real] then .ok .real else .error "Invalid input type for avg aggregate"
  | .count => .ok .bigInt
  | .min | .max => if child ≠ .boolean then .ok child else .error "Invalid input type for max/min aggregate"

def Expression.type : Expression F → SqlType
  | .columnRef type _ _ _ | .virtualColumnRef type _ _ => type
  | .literal value _ => value.type
  | .binary .add left _ | .binary .sub left _ | .binary .mul left _ | .binary .div left _ => left.type
  | .unary _ _ | .binary _ _ _ | .regexpMatching _ _ | .enumIn _ _ => .boolean
  | .case _ thenExpr _ => thenExpr.type
  | .intToFloatConversion _ => .real
  | .extract _ _ => .int

def unaryArithmeticExpression (op : UnaryArithmeticExpressionType) (child : Expression F) :
    Except String (Expression F) :=
  (calculateUnaryType op child.type).map fun _ => .unary op child

def binaryArithmeticExpression (op : BinaryArithmeticExpressionType) (left right : Expression F) :
    Except String (Expression F) :=
  (calculateBinaryType op left.type right.type).map fun _ => .binary op left right

def enumInExpression (child : Expression F) (values : List Int) : Except String (Expression F) :=
  (calculateEnumInType child.type).map fun _ => .enumIn child values

def regexpMatchingExpression (child : Expression F) (regex : List Char) : Except String (Expression F) :=
  (calculateRegexpType child.type).map fun _ => .regexpMatching child regex

/-! ## Leaves and column references -/

namespace Expression

def leaves : Expression F → List (Expression F)
  | columnRef type nullable childIdx columnIdx => [columnRef type nullable childIdx columnIdx]
  | virtualColumnRef type nullable columnIdx => [virtualColumnRef type nullable columnIdx]
  | literal value null => [literal value null]
  | unary _ child | intToFloatConversion child | extract child _ | regexpMatching child _ | enumIn child _ => child.leaves
  | binary _ left right => left.leaves ++ right.leaves
  | case cond thenExpr elseExpr => cond.leaves ++ thenExpr.leaves ++ elseExpr.leaves

def reference : Expression F → Option (Nat × Nat)
  | columnRef _ _ childIdx columnIdx => some (childIdx, columnIdx)
  | _ => none

/-- The columns an expression mentions, as pairs of a child and a column of it. -/
def references (expr : Expression F) : List (Nat × Nat) := expr.leaves.filterMap reference

def referencedChildren (expr : Expression F) : List Nat := (expr.references.map Prod.fst).dedup

/-- The expression with something else in place of its column references. -/
def mapColumnRefs (rewrite : SqlType → Bool → Nat → Nat → Expression F) : Expression F → Expression F
  | columnRef type nullable childIdx columnIdx => rewrite type nullable childIdx columnIdx
  | virtualColumnRef type nullable columnIdx => virtualColumnRef type nullable columnIdx
  | literal value null => literal value null
  | unary op child => unary op (child.mapColumnRefs rewrite)
  | binary op left right => binary op (left.mapColumnRefs rewrite) (right.mapColumnRefs rewrite)
  | case cond thenExpr elseExpr =>
    case (cond.mapColumnRefs rewrite) (thenExpr.mapColumnRefs rewrite) (elseExpr.mapColumnRefs rewrite)
  | intToFloatConversion child => intToFloatConversion (child.mapColumnRefs rewrite)
  | extract child valueToExtract => extract (child.mapColumnRefs rewrite) valueToExtract
  | regexpMatching child regex => regexpMatching (child.mapColumnRefs rewrite) regex
  | enumIn child values => enumIn (child.mapColumnRefs rewrite) values

def rewriteColumnReferences (rewrites : Nat × Nat → Option (Nat × Nat)) : Expression F → Expression F :=
  mapColumnRefs fun type nullable childIdx columnIdx =>
    let target := (rewrites (childIdx, columnIdx)).getD (childIdx, columnIdx)
    columnRef type nullable target.1 target.2

/-- The leaves are columns that are allowed and literals. -/
def RefersOnly (allowed : Nat × Nat → Prop) (expr : Expression F) : Prop :=
  ∀ leaf ∈ expr.leaves, (∃ type nullable childIdx columnIdx,
    leaf = columnRef type nullable childIdx columnIdx ∧ allowed (childIdx, columnIdx)) ∨ ∃ value null, leaf = literal value null

variable {expr : Expression F}

theorem mem_referencedChildren {childIdx : Nat} :
    childIdx ∈ expr.referencedChildren ↔ ∃ columnIdx, (childIdx, columnIdx) ∈ expr.references := by
  simp [referencedChildren]

theorem RefersOnly.reference {allowed : Nat × Nat → Prop} {expr : Expression F} (h : expr.RefersOnly allowed) :
    ∀ reference ∈ expr.references, allowed reference := by
  intro reference hReference
  obtain ⟨leaf, hLeaf, hSome⟩ := List.mem_filterMap.mp hReference
  rcases h leaf hLeaf with ⟨type, nullable, childIdx, columnIdx, rfl, hAllowed⟩ | ⟨value, null, rfl⟩
  · cases hSome
    exact hAllowed
  · cases hSome

theorem leaf_cases {leaf : Expression F} (h : leaf ∈ expr.leaves) :
    (∃ type nullable childIdx columnIdx, leaf = columnRef type nullable childIdx columnIdx) ∨
      (∃ type nullable columnIdx, leaf = virtualColumnRef type nullable columnIdx) ∨
        ∃ value null, leaf = literal value null := by
  induction expr with
  | columnRef type nullable childIdx columnIdx => exact .inl ⟨_, _, _, _, List.mem_singleton.mp h⟩
  | virtualColumnRef type nullable columnIdx => exact .inr (.inl ⟨_, _, _, List.mem_singleton.mp h⟩)
  | literal value null => exact .inr (.inr ⟨_, _, List.mem_singleton.mp h⟩)
  | binary op left right ihLeft ihRight =>
    rcases List.mem_append.mp h with hIn | hIn
    · exact ihLeft hIn
    · exact ihRight hIn
  | case cond thenExpr elseExpr ihCond ihThen ihElse =>
    rcases List.mem_append.mp h with hIn | hIn
    · rcases List.mem_append.mp hIn with hIn | hIn
      · exact ihCond hIn
      · exact ihThen hIn
    · exact ihElse hIn
  | unary _ child ih | intToFloatConversion child ih | extract child _ ih | regexpMatching child _ ih
  | enumIn child _ ih => exact ih h

theorem leaves_mapColumnRefs (rewrite : SqlType → Bool → Nat → Nat → Expression F) (expr : Expression F) :
    (expr.mapColumnRefs rewrite).leaves = expr.leaves.flatMap fun leaf => (leaf.mapColumnRefs rewrite).leaves := by
  induction expr with
  | columnRef | virtualColumnRef | literal => exact (append_nil _).symm
  | binary op left right ihLeft ihRight => rw [mapColumnRefs, leaves, leaves, ihLeft, ihRight, flatMap_append]
  | case cond thenExpr elseExpr ihCond ihThen ihElse =>
    rw [mapColumnRefs, leaves, leaves, ihCond, ihThen, ihElse, flatMap_append, flatMap_append]
  | unary _ child ih | intToFloatConversion child ih | extract child _ ih | regexpMatching child _ ih
  | enumIn child _ ih => exact ih

theorem references_rewrite (rewrites : Nat × Nat → Option (Nat × Nat)) (expr : Expression F) :
    (expr.rewriteColumnReferences rewrites).references =
      expr.references.map fun reference => (rewrites reference).getD reference := by
  rw [references, rewriteColumnReferences, leaves_mapColumnRefs, filterMap_flatMap, references,
    map_filterMap, filterMap_eq_flatMap_toList _ expr.leaves]
  refine flatMap_congr fun leaf hLeaf => ?_
  rcases leaf_cases hLeaf with ⟨type, nullable, childIdx, columnIdx, rfl⟩ | ⟨type, nullable, columnIdx, rfl⟩ |
    ⟨value, null, rfl⟩
  · rfl
  · rfl
  · rfl

theorem RefersOnly.rewrite {allowed others : Nat × Nat → Prop} (h : expr.RefersOnly allowed)
    {rewrites : Nat × Nat → Option (Nat × Nat)}
    (hRewrites : ∀ reference, allowed reference → others ((rewrites reference).getD reference)) :
    (expr.rewriteColumnReferences rewrites).RefersOnly others := by
  intro leaf hLeaf
  rw [rewriteColumnReferences, leaves_mapColumnRefs, mem_flatMap] at hLeaf
  obtain ⟨old, hOld, hIn⟩ := hLeaf
  rcases h old hOld with ⟨type, nullable, childIdx, columnIdx, rfl, hAllowed⟩ | ⟨value, null, rfl⟩
  · exact .inl ⟨type, nullable, _, _, List.mem_singleton.mp hIn, hRewrites _ hAllowed⟩
  · exact .inr ⟨value, null, List.mem_singleton.mp hIn⟩

theorem type_mapColumnRefs {rewrite : SqlType → Bool → Nat → Nat → Expression F}
    (h : ∀ type nullable childIdx columnIdx, (rewrite type nullable childIdx columnIdx).type = type)
    (expr : Expression F) : (expr.mapColumnRefs rewrite).type = expr.type := by
  induction expr with
  | columnRef type nullable childIdx columnIdx => exact h type nullable childIdx columnIdx
  | binary op left right ihLeft ihRight => cases op <;> simp only [mapColumnRefs, type, ihLeft]
  | case cond thenExpr elseExpr ihCond ihThen ihElse => exact ihThen
  | _ => rfl

end Expression

end KushDB.Plan
