import KushDB.Khir.Function

/-! # Values read and written by an instruction

The address of a load or a store may be computed from the base and the index of a pointer computation instead of being
kept in a location of its own. Which pointer computations are materialised is decided once for the function; the
values an instruction reads and writes follow from that choice.
-/

namespace KushDB.Khir

/-- The operand whose pointer computation an instruction needs in a location of its own. -/
def Instr.marked (instr : Instr) : List Value :=
  match instr.opcode with
  | .gepDynamic | .returnValue | .callIndirect | .ptrCast | .callArg => [instr.arg]
  | .ptrStore | .phiMember => [instr.arg1]
  | .gepStaticOffset | .ptrCmpNullptr => [instr.arg0]
  | _ => []

def Body.computeGEPMaterialize (body : Body) (i : Nat) : Bool :=
  (body.opcode i).isGep && body.order.any fun user => (body.instr user).marked.any fun v => v == ⟨i, false⟩

def Body.isGep (body : Body) (v : Value) : Bool :=
  !v.isConstantGlobal && (body.opcode v.idx).isGep

/-- How an opcode writes: its own value, a value if the call returns one, the phi of a member, or nothing. -/
inductive WriteForm
  | own | call | phiMember | gep | nothing

def Opcode.writeForm : Opcode → WriteForm
  | .i1And | .i1Or | .i1CmpEq | .i1CmpNe | .i8Add | .i8Mul | .i8Sub | .i8CmpEq | .i8CmpNe | .i8CmpLt | .i8CmpLe
  | .i8CmpGt | .i8CmpGe | .i16Add | .i16Mul | .i16Sub | .i16CmpEq | .i16CmpNe | .i16CmpLt | .i16CmpLe | .i16CmpGt
  | .i16CmpGe | .i32Add | .i32Mul | .i32Sub | .i32CmpEq | .i32CmpNe | .i32CmpLt | .i32CmpLe | .i32CmpGt
  | .i32CmpGe | .i32Vec8CmpEq | .i32Vec8CmpNe | .i32Vec8CmpLt | .i32Vec8CmpLe | .i32Vec8CmpGt | .i32Vec8CmpGe
  | .i32Vec8Permute | .i32Vec8Add | .i1Vec8And | .i1Vec8Or | .i1Vec8Not | .maskToPermute | .i64Popcount
  | .i1Vec8MaskExtract | .i32CmpEqAnyConstVec4 | .i32CmpEqAnyConstVec8 | .i64Add | .i64Mul | .i64Sub | .i64Lshift
  | .i64Rshift | .i64And | .i64Or | .i64Xor | .i64CmpEq | .i64CmpNe | .i64CmpLt | .i64CmpLe | .i64CmpGt
  | .i64CmpGe | .f64Add | .f64Mul | .f64Sub | .f64Div | .f64CmpEq | .f64CmpNe | .f64CmpLt | .f64CmpLe | .f64CmpGt
  | .f64CmpGe | .i1Lnot | .i1ZextI8 | .i1ZextI64 | .i8ZextI64 | .i8ConvF64 | .i16ZextI64 | .i16ConvF64
  | .i32ZextI64 | .i32ConvF64 | .i32ConvI32Vec8 | .i64ConvF64 | .i64TruncI16 | .i64TruncI32 | .f64ConvI64
  | .i1Load | .i8Load | .i16Load | .i32Load | .i32Vec8Load | .i64Load | .f64Load | .funcArg | .ptrCast | .ptrLoad
  | .callArg | .ptrCmpNullptr => .own
  | .call | .callIndirect => .call
  | .phiMember => .phiMember
  | .gepDynamic | .gepStatic => .gep
  | .i8Store | .i16Store | .i32Store | .i64Store | .f64Store | .ptrStore | .i32Vec8MaskStore
  | .i32Vec8MaskStoreInfo | .gepStaticOffset | .gepDynamicOffset | .br | .condbr | .ret | .returnValue | .phi =>
    .nothing

/-- How an opcode reads. -/
inductive ReadForm
  | operands | phiMember | operand | ptrCmpNullptr | load | ptrCast | ptrLoad | store | condbr | passed | callIndirect
  | call | gep | maskStore | nothing

def Opcode.readForm : Opcode → ReadForm
  | .i1And | .i1Or | .i1CmpEq | .i1CmpNe | .i8Add | .i8Mul | .i8Sub | .i8CmpEq | .i8CmpNe | .i8CmpLt | .i8CmpLe
  | .i8CmpGt | .i8CmpGe | .i16Add | .i16Mul | .i16Sub | .i16CmpEq | .i16CmpNe | .i16CmpLt | .i16CmpLe | .i16CmpGt
  | .i16CmpGe | .i32Add | .i32Mul | .i32Sub | .i32CmpEq | .i32CmpNe | .i32CmpLt | .i32CmpLe | .i32CmpGt
  | .i32CmpGe | .i32Vec8CmpEq | .i32Vec8CmpNe | .i32Vec8CmpLt | .i32Vec8CmpLe | .i32Vec8CmpGt | .i32Vec8CmpGe
  | .i32Vec8Add | .i1Vec8And | .i32Vec8Permute | .i1Vec8Or | .i64Add | .i64Mul | .i64Sub | .i64Lshift | .i64Rshift
  | .i64And | .i64Or | .i64Xor | .i64CmpEq | .i64CmpNe | .i64CmpLt | .i64CmpLe | .i64CmpGt | .i64CmpGe | .f64Add
  | .f64Mul | .f64Sub | .f64Div | .f64CmpEq | .f64CmpNe | .f64CmpLt | .f64CmpLe | .f64CmpGt | .f64CmpGe
  | .i32CmpEqAnyConstVec4 | .i32CmpEqAnyConstVec8 => .operands
  | .phiMember => .phiMember
  | .i1Lnot | .maskToPermute | .i64Popcount | .i1Vec8MaskExtract | .i1Vec8Not | .i1ZextI8 | .i1ZextI64
  | .i8ZextI64 | .i8ConvF64 | .i16ZextI64 | .i16ConvF64 | .i32ZextI64 | .i32ConvF64 | .i32ConvI32Vec8
  | .i64ConvF64 | .i64TruncI16 | .i64TruncI32 | .f64ConvI64 => .operand
  | .ptrCmpNullptr => .ptrCmpNullptr
  | .i1Load | .i8Load | .i16Load | .i32Load | .i32Vec8Load | .i64Load | .f64Load => .load
  | .ptrCast => .ptrCast
  | .ptrLoad => .ptrLoad
  | .i8Store | .i16Store | .i32Store | .i64Store | .f64Store | .ptrStore => .store
  | .condbr => .condbr
  | .returnValue | .callArg => .passed
  | .callIndirect => .callIndirect
  | .call => .call
  | .gepDynamic | .gepStatic => .gep
  | .i32Vec8MaskStore => .maskStore
  | .ret | .br | .funcArg | .gepStaticOffset | .gepDynamicOffset | .phi | .i32Vec8MaskStoreInfo => .nothing

section Values

variable (body : Body) (materialize : Nat → Bool)

def getWrittenValue (i : Nat) : Option Nat :=
  match (body.opcode i).writeForm with
  | .own => some i
  | .call => if (body.instr i).typeId = .void then none else some i
  -- the phi is written here
  | .phiMember => some (body.instr i).arg0.idx
  | .gep => if materialize i then some i else none
  | .nothing => none

def getReadValuesGEP (i : Nat) : Except String (List Nat) :=
  match body.opcode i with
  | .gepStatic =>
    let offset := body.instr (i - 1)
    if offset.opcode ≠ .gepStaticOffset then .error "Invalid GEP_STATIC_OFFSET" else .ok offset.arg0.instruction
  | .gepDynamic =>
    let offset := body.instr (i - 1)
    if offset.opcode ≠ .gepDynamicOffset then .error "Invalid GEP_DYNAMIC_OFFSET"
    else .ok ((body.instr i).arg.instruction ++ offset.arg0.instruction ++ offset.arg1.instruction)
  | _ => .error "Not a GEP"

/-- An operand that is read from its own location. -/
def materialized (message : String) (v : Value) : Except String (List Nat) :=
  if body.isGep v && !materialize v.idx then .error message else .ok v.instruction

/-- An address, which may be recomputed from the operands of its pointer computation. -/
def address (v : Value) : Except String (List Nat) :=
  if body.isGep v && !materialize v.idx then getReadValuesGEP body v.idx else .ok v.instruction

/-- The arguments directly before `i`, back to the start of the segment. -/
def callArgsBefore (segStart : Nat) : Nat → List Nat
  | 0 => []
  | j + 1 => if segStart ≤ j ∧ body.opcode j = .callArg then j :: callArgsBefore segStart j else []

def getReadValues (segStart i : Nat) : Except String (List Nat) :=
  let instr := body.instr i
  match instr.opcode.readForm with
  | .operands => .ok (instr.arg0.instruction ++ instr.arg1.instruction)
  | .phiMember => materialized body materialize "Requried materialized GEP into PHI_MEMBER." instr.arg1
  | .operand => .ok instr.arg0.instruction
  | .ptrCmpNullptr => materialized body materialize "Requried materialized GEP into PTR_CMP_NULLPTR." instr.arg0
  | .load => address body materialize instr.arg0
  | .ptrCast => materialized body materialize "Required materialized GEP into PTR_CAST." instr.arg
  | .ptrLoad => address body materialize instr.arg
  | .store => do
    let pointer ← address body materialize instr.arg0
    let stored ← materialized body materialize "Required materialized GEP into XXX_STORE." instr.arg1
    return pointer ++ stored
  | .condbr => .ok instr.arg.instruction
  | .passed => materialized body materialize "Required materialized GEP into RETURN_VALUE/CALL_ARG." instr.arg
  | .callIndirect => do
    let pointer ← materialized body materialize "Required materialized GEP into CALL_INDIRECT." instr.arg
    return pointer ++ callArgsBefore body segStart i
  | .call => .ok (callArgsBefore body segStart i)
  | .gep => if materialize i then getReadValuesGEP body i else .ok []
  | .maskStore => do
    let pointer ← address body materialize instr.arg0
    let stored ← materialized body materialize "Required materialized GEP into XXX_STORE." instr.arg1
    return pointer ++ stored ++ (body.instr (i - 1)).arg0.instruction
  | .nothing => .ok []

end Values

end KushDB.Khir
