import KushDB.Compile.ExpressionTranslator
import KushDB.Planner.LikeCorrectness
import Mathlib.Data.Fintype.Option

/-! # Three-valued logic

The connectives are compiled to code that looks at the left operand first. Kleene's tables are what SQL asks for. The
two differ exactly on an operand NULL on the left and FALSE on the right, for AND as for OR. In a tree such an operand
may not be reached, and a wrong value may not matter.
-/

namespace KushDB.Plan

open Planner List

/-- Trees of connectives. A leaf is a boolean column. -/
inductive BooleanTree
  | leaf (columnIdx : Nat)
  | not (child : BooleanTree)
  | and (left right : BooleanTree)
  | or (left right : BooleanTree)
deriving DecidableEq, Repr

namespace BooleanTree

/-- What one operand hands up to the root, where the other operands are left behind or never looked at. -/
inductive Way
  | leaf (columnIdx : Nat)
  | not (way : Way)
  | and (way : Way) (other : BooleanTree)
  | or (way : Way) (other : BooleanTree)

/-- The value of the leaf at the end of the way, negated by the NOTs on it. -/
def Way.value (assignment : Nat → Option Bool) : Way → Option Bool
  | leaf columnIdx => assignment columnIdx
  | not way => (way.value assignment).map (!·)
  | and way _ | or way _ => way.value assignment

/-- The way to the leaf at which the evaluation ends. Only a left operand that is TRUE sends an AND to its right
operand and keeps an OR from it. -/
def way (assignment : Nat → Option Bool) : BooleanTree → Way
  | leaf columnIdx => .leaf columnIdx
  | not child => .not (child.way assignment)
  | and left right =>
    if (left.way assignment).value assignment = some true then .and (right.way assignment) left
    else .and (left.way assignment) right
  | or left right =>
    if (left.way assignment).value assignment = some true then .or (left.way assignment) right
    else .or (right.way assignment) left

end BooleanTree

def rowOf {F : Type} (assignment : Nat → Option Bool) : SchemaValues F where
  schemaValues _ columnIdx := (assignment columnIdx).map .boolean
  virtualSchemaValues _ := none

section

variable {F : Type} (f64 : Float64 F) (enums : EnumManager) (re2 : Re2)

end

namespace BooleanTree

variable {F : Type} {f64 : Float64 F} {enums : EnumManager} {re2 : Re2}

variable {assignment : Nat → Option Bool} {tree : BooleanTree}

end BooleanTree

end KushDB.Plan
