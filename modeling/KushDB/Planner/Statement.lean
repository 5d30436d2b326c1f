import KushDB.Plan.Evaluate

/-! # Planning the expressions of a statement

The parser leaves columns as names. The planner looks them up among the columns of the FROM list, rewrites the
literals an enum column is compared with to enum values, and folds a list of literals for an enum column into one test;
where no literal of the list is a value of the enum, that is the literal false.
-/

namespace KushDB.Parse

inductive Literal (F : Type)
  | smallInt (value : Int)
  | int (value : Int)
  | bigInt (value : Int)
  | real (value : F)
  | text (value : List Char)
  | boolean (value : Bool)

inductive BinaryArithmeticExpressionType
  | and
  | or
  | eq
  | neq
  | lt
  | leq
  | gt
  | geq
  | like
deriving DecidableEq, Repr

/-- The list of an IN has at least one case. -/
inductive Expression (F : Type)
  | columnRef (tableName columnName : String)
  | literal (value : Literal F)
  | unary (op : Plan.UnaryArithmeticExpressionType) (child : Expression F)
  | binary (op : BinaryArithmeticExpressionType) (left right : Expression F)
  | inList (base first : Expression F) (rest : List (Expression F))

structure BaseTable where
  name : String
  aliasName : String

inductive Table
  | base (table : BaseTable)
  | crossProduct (children : List BaseTable)

end KushDB.Parse

namespace KushDB.Planner

open Plan List

variable {F : Type}

structure ColumnInfo where
  childIdx : Nat
  colIdx : Nat
  type : SqlType
  nullable : Bool

/-- `table_col_to_info_`, an entry made later hiding the earlier ones of its key. -/
abbrev ColumnInfos := List ((String × String) × ColumnInfo)

def planLiteral : Parse.Literal F → Expression F
  | .smallInt value => .literal (.smallInt value) false
  | .int value => .literal (.int value) false
  | .bigInt value => .literal (.bigInt value) false
  | .real value => .literal (.real value) false
  | .text value => .literal (.text value) false
  | .boolean value => .literal (.boolean value) false

section

variable (enums : EnumManager)

/-- A literal as a value of an enum. The visitor has a function for strings only. -/
def enumLiteral (enumId : Int) : Value F → Except String Int
  | .text key => .ok (enums.getValue enumId key)
  | _ => .error "bad_function_call"

/-- EQ and NEQ. -/
def planEquality (op : BinaryArithmeticExpressionType) (left right : Expression F) : Except String (Expression F) :=
  match left.type, right with
  | .enum enumId, .literal value _ => do
    let value ← enumLiteral enums enumId value
    binaryArithmeticExpression op left (.literal (.enum enumId value) false)
  | _, _ => binaryArithmeticExpression op left right

def planLikeExpression (left : Except String (Expression F)) : Parse.Expression F → Except String (Expression F)
  | .literal (.text pattern) => do
    let left ← left
    match planLike pattern with
    | .startsWith part => binaryArithmeticExpression .startsWith left (.literal (.text part) false)
    | .endsWith part => binaryArithmeticExpression .endsWith left (.literal (.text part) false)
    | .contains part => binaryArithmeticExpression .contains left (.literal (.text part) false)
    | .regexpMatching regex => regexpMatchingExpression left regex
  | .literal _ => .error "variant does not hold string value."
  | _ => .error "Non const argument to like"

/-- The values of the cases for an enum, or nothing if one of them is no literal. -/
def enumValues (enumId : Int) : List (Except String (Expression F)) → Except String (Option (List Int))
  | [] => .ok (some [])
  | right :: cases => do
    match ← right with
    | .literal value _ =>
      let id ← enumLiteral enums enumId value
      let values ← enumValues enumId cases
      return values.map fun values => if id = -1 then values else id :: values
    | _ => return none

def planCase (base : Expression F) (right : Except String (Expression F)) : Except String (Expression F) := do
  planEquality enums .eq base (← right)

def planDisjunction (base : Expression F) :
    Except String (Expression F) → List (Except String (Expression F)) → Except String (Expression F)
  | result, [] => result
  | result, right :: cases =>
    planDisjunction base (do
      let result ← result
      let eq ← planCase enums base right
      binaryArithmeticExpression .or result eq) cases

def caseValues (base : Expression F) (cases : List (Except String (Expression F))) : Except String (Option (List Int)) :=
  match base.type with
  | .enum enumId => enumValues enums enumId cases
  | _ => .ok none

def planIn (base first : Except String (Expression F)) (rest : List (Except String (Expression F))) :
    Except String (Expression F) := do
  let base ← base
  match ← caseValues enums base (first :: rest) with
  | some [] => return .literal (.boolean false) false
  | some values => enumInExpression base values
  | none => planDisjunction enums base (planCase enums base first) rest

variable (infos : ColumnInfos)

def planColumnRef (tableName columnName : String) : Except String (Expression F) :=
  match infos.lookup (tableName, columnName) with
  | some info => .ok (.columnRef info.type info.nullable info.childIdx info.colIdx)
  | none => .error "flat_hash_map::at"

mutual

def planExpression : Parse.Expression F → Except String (Expression F)
  | .columnRef tableName columnName => planColumnRef infos tableName columnName
  | .literal value => .ok (planLiteral value)
  | .unary op child => do unaryArithmeticExpression op (← planExpression child)
  | .binary .and left right => do binaryArithmeticExpression .and (← planExpression left) (← planExpression right)
  | .binary .or left right => do binaryArithmeticExpression .or (← planExpression left) (← planExpression right)
  | .binary .eq left right => do planEquality enums .eq (← planExpression left) (← planExpression right)
  | .binary .neq left right => do planEquality enums .neq (← planExpression left) (← planExpression right)
  | .binary .lt left right => do binaryArithmeticExpression .lt (← planExpression left) (← planExpression right)
  | .binary .leq left right => do binaryArithmeticExpression .leq (← planExpression left) (← planExpression right)
  | .binary .gt left right => do binaryArithmeticExpression .gt (← planExpression left) (← planExpression right)
  | .binary .geq left right => do binaryArithmeticExpression .geq (← planExpression left) (← planExpression right)
  | .binary .like left right => planLikeExpression (planExpression left) right
  | .inList base first rest => planIn enums (planExpression base) (planExpression first) (planExpressions rest)

def planExpressions : List (Parse.Expression F) → List (Except String (Expression F))
  | [] => []
  | expr :: exprs => planExpression expr :: planExpressions exprs

end

end

/-! ## What a planned expression refers to -/

section

variable {allowed : Nat × Nat → Prop}

/-- Every column that an expression mentions is allowed, and none is virtual. -/
def RefersTo (allowed : Nat × Nat → Prop) (result : Except String (Expression F)) : Prop :=
  ∀ expr, result = .ok expr → expr.RefersOnly allowed

variable {result : Except String (Expression F)} {expr left right base : Expression F}

theorem refersTo_bind {next : Expression F → Except String (Expression F)} (hResult : RefersTo allowed result)
    (hNext : ∀ expr, RefersTo allowed (.ok expr) → RefersTo allowed (next expr)) :
    RefersTo allowed (result >>= next) := by
  cases result with
  | error message =>
    intro expr hExpr
    cases hExpr
  | ok expr => exact hNext expr hResult

theorem refersTo_error (message : String) : RefersTo allowed (.error message : Except String (Expression F)) := by
  intro expr hExpr
  cases hExpr

theorem refersTo_ok (h : expr.RefersOnly allowed) : RefersTo allowed (.ok expr) := by
  intro other hOther
  cases hOther
  exact h

theorem refersTo_map {α : Type} {result : Except String α} (h : expr.RefersOnly allowed) :
    RefersTo allowed (result.map fun _ => expr) := by
  cases result with
  | error message => exact refersTo_error message
  | ok value => exact refersTo_ok h

theorem refersTo_unary (op : UnaryArithmeticExpressionType) {child : Expression F}
    (h : RefersTo allowed (.ok child)) : RefersTo allowed (unaryArithmeticExpression op child) :=
  refersTo_map (h child rfl)

theorem refersTo_binary (op : BinaryArithmeticExpressionType) (hLeft : RefersTo allowed (.ok left))
    (hRight : RefersTo allowed (.ok right)) : RefersTo allowed (binaryArithmeticExpression op left right) := by
  refine refersTo_map fun leaf hLeaf => ?_
  rcases mem_append.mp hLeaf with hIn | hIn
  · exact hLeft left rfl leaf hIn
  · exact hRight right rfl leaf hIn

theorem refersTo_literal (value : Value F) (null : Bool) : RefersTo allowed (.ok (.literal value null)) :=
  refersTo_ok fun _ hLeaf => .inr ⟨value, null, mem_singleton.mp hLeaf⟩

variable {enums : EnumManager} {infos : ColumnInfos}

theorem refersTo_equality (op : BinaryArithmeticExpressionType) (hLeft : RefersTo allowed (.ok left))
    (hRight : RefersTo allowed (.ok right)) : RefersTo allowed (planEquality enums op left right) := by
  unfold planEquality
  split
  · rename_i enumId value null hType
    cases enumLiteral enums enumId value with
    | error message => exact refersTo_error message
    | ok value => exact refersTo_binary op hLeft (refersTo_literal _ _)
  · exact refersTo_binary op hLeft hRight

theorem refersTo_like {left : Except String (Expression F)} (hLeft : RefersTo allowed left) (right : Parse.Expression F) :
    RefersTo allowed (planLikeExpression left right) := by
  unfold planLikeExpression
  split
  · refine refersTo_bind hLeft fun expr hExpr => ?_
    split
    · exact refersTo_binary _ hExpr (refersTo_literal _ _)
    · exact refersTo_binary _ hExpr (refersTo_literal _ _)
    · exact refersTo_binary _ hExpr (refersTo_literal _ _)
    · exact refersTo_map (hExpr expr rfl)
  · exact refersTo_error _
  · exact refersTo_error _

theorem refersTo_case {right : Except String (Expression F)} (hBase : RefersTo allowed (.ok base))
    (hRight : RefersTo allowed right) : RefersTo allowed (planCase enums base right) :=
  refersTo_bind hRight fun _ hExpr => refersTo_equality .eq hBase hExpr

theorem refersTo_disjunction (hBase : RefersTo allowed (.ok base)) {cases : List (Except String (Expression F))}
    (hCases : ∀ right ∈ cases, RefersTo allowed right) (hResult : RefersTo allowed result) :
    RefersTo allowed (planDisjunction enums base result cases) := by
  induction cases generalizing result with
  | nil => exact hResult
  | cons right cases ih =>
    refine ih (fun other hOther => hCases other (mem_cons_of_mem _ hOther)) ?_
    refine refersTo_bind hResult fun expr hExpr => ?_
    exact refersTo_bind (refersTo_case hBase (hCases right mem_cons_self)) fun eq hEq => refersTo_binary .or hExpr hEq

theorem refersTo_in {base first : Except String (Expression F)} {rest : List (Except String (Expression F))}
    (hBase : RefersTo allowed base) (hFirst : RefersTo allowed first) (hRest : ∀ right ∈ rest, RefersTo allowed right) :
    RefersTo allowed (planIn enums base first rest) := by
  refine refersTo_bind hBase fun expr hExpr => ?_
  cases caseValues enums expr (first :: rest) with
  | error message => exact refersTo_error message
  | ok values =>
    rcases values with _ | _ | _
    · exact refersTo_disjunction hExpr hRest (refersTo_case hExpr hFirst)
    · exact refersTo_literal _ _
    · exact refersTo_map (hExpr expr rfl)

theorem refersTo_columnRef (hInfos : ∀ entry ∈ infos, allowed (entry.2.childIdx, entry.2.colIdx))
    (tableName columnName : String) :
    RefersTo allowed (planColumnRef infos tableName columnName : Except String (Expression F)) := by
  unfold planColumnRef
  split
  · rename_i info hLookup
    obtain ⟨before, after, hSplit, -⟩ := lookup_eq_some_iff.mp hLookup
    refine refersTo_ok fun leaf hLeaf => .inl ⟨_, _, _, _, mem_singleton.mp hLeaf, ?_⟩
    exact hInfos ((tableName, columnName), info) (hSplit ▸ mem_append_right _ mem_cons_self)
  · exact refersTo_error _

mutual

theorem planExpression_refersTo (hInfos : ∀ entry ∈ infos, allowed (entry.2.childIdx, entry.2.colIdx)) :
    ∀ expr : Parse.Expression F, RefersTo allowed (planExpression enums infos expr)
  | .columnRef tableName columnName => refersTo_columnRef hInfos tableName columnName
  | .literal value => by cases value <;> exact refersTo_literal _ _
  | .unary op child => refersTo_bind (planExpression_refersTo hInfos child) fun _ h => refersTo_unary op h
  | .binary op left right => by
    have hLeft := planExpression_refersTo hInfos left
    have hRight := planExpression_refersTo hInfos right
    cases op with
    | eq | neq => exact refersTo_bind hLeft fun _ h => refersTo_bind hRight fun _ h' => refersTo_equality _ h h'
    | like => exact refersTo_like hLeft right
    | _ => exact refersTo_bind hLeft fun _ h => refersTo_bind hRight fun _ h' => refersTo_binary _ h h'
  | .inList base first rest => refersTo_in (planExpression_refersTo hInfos base) (planExpression_refersTo hInfos first)
    (planExpressions_refersTo hInfos rest)

theorem planExpressions_refersTo (hInfos : ∀ entry ∈ infos, allowed (entry.2.childIdx, entry.2.colIdx)) :
    ∀ exprs : List (Parse.Expression F), ∀ right ∈ planExpressions enums infos exprs, RefersTo allowed right
  | [], _, hRight => absurd hRight List.not_mem_nil
  | expr :: exprs, right, hRight => by
    rcases List.mem_cons.mp hRight with rfl | hIn
    · exact planExpression_refersTo hInfos expr
    · exact planExpressions_refersTo hInfos exprs right hIn

end

end

end KushDB.Planner
