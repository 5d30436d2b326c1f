/-! # Instructions of the intermediate representation

An instruction is a word whose fields depend on its opcode: two operands for arithmetic, loads and stores, one operand
with a type for casts, calls and arguments, one operand with two block numbers for branches. A field that an opcode
does not use reads as zero. Types are kept by what the type manager can tell apart; element types are left out.
-/

namespace KushDB.Khir

inductive Opcode
  | ret | i1CmpEq | i1CmpNe | i1Lnot | i1And | i1Or | i1ZextI64 | i1ZextI8 | i8Add | i8Mul | i8Sub | i8CmpEq
  | i8CmpNe | i8CmpLt | i8CmpLe | i8CmpGt | i8CmpGe | i8ZextI64 | i8ConvF64 | i16Add | i16Mul | i16Sub | i16CmpEq
  | i16CmpNe | i16CmpLt | i16CmpLe | i16CmpGt | i16CmpGe | i16ZextI64 | i16ConvF64 | i32Add | i32Mul | i32Sub
  | i32CmpEqAnyConstVec4 | i32CmpEqAnyConstVec8 | i32CmpEq | i32CmpNe | i32CmpLt | i32CmpLe | i32CmpGt | i32CmpGe
  | i32Vec8CmpEq | i32Vec8CmpNe | i32Vec8CmpLt | i32Vec8CmpLe | i32Vec8CmpGt | i32Vec8CmpGe | i1Vec8Not | i1Vec8And
  | i1Vec8Or | i1Vec8MaskExtract | i64Popcount | maskToPermute | i32Vec8Permute | i32ZextI64 | i32ConvF64
  | i32ConvI32Vec8 | i32Vec8Add | i32Vec8Load | i32Vec8MaskStoreInfo | i32Vec8MaskStore | i64Add | i64Mul | i64Sub
  | i64Lshift | i64Rshift | i64And | i64Xor | i64Or | i64TruncI16 | i64TruncI32 | i64CmpEq | i64CmpNe | i64CmpLt
  | i64CmpLe | i64CmpGt | i64CmpGe | i64ConvF64 | f64Add | f64Mul | f64Sub | f64Div | f64CmpEq | f64CmpNe | f64CmpLt
  | f64CmpLe | f64CmpGt | f64CmpGe | f64ConvI64 | i8Store | i16Store | i32Store | i64Store | f64Store | ptrStore
  | condbr | i1Load | i8Load | i16Load | i32Load | i64Load | f64Load | ptrLoad | returnValue | br | phiMember | call
  | phi | ptrCast | funcArg | callArg | callIndirect | ptrCmpNullptr | gepStatic | gepStaticOffset | gepDynamic
  | gepDynamicOffset
  deriving DecidableEq, Repr

inductive TypeKind
  | void | i1 | i8 | i16 | i32 | i64 | f64 | i1Vec8 | i32Vec8 | pointer | array | function | struct | opaqueType
  deriving DecidableEq, Repr

/-- An operand: the number of an instruction of the function, or of a constant or global of the program. -/
structure Value where
  idx : Nat
  isConstantGlobal : Bool := false
  deriving DecidableEq, Repr

structure Instr where
  opcode : Opcode
  arg0 : Value := ⟨0, false⟩
  arg1 : Value := ⟨0, false⟩
  arg : Value := ⟨0, false⟩
  typeId : TypeKind := .void
  deriving DecidableEq, Repr

instance : Inhabited Instr := ⟨{ opcode := .ret }⟩

/-- The instruction that holds the value, if it is not a constant or a global. -/
def Value.instruction (v : Value) : List Nat :=
  if v.isConstantGlobal then [] else [v.idx]

def Opcode.isGep : Opcode → Bool
  | .gepStatic | .gepDynamic => true
  | _ => false

def Opcode.isCall : Opcode → Bool
  | .call | .callIndirect => true
  | _ => false

/-- Instructions whose number never stands for a value: the builder does not hand it out. -/
def Opcode.isUnnamed : Opcode → Bool
  | .callArg | .i8Store | .i16Store | .i32Store | .i64Store | .f64Store | .ptrStore | .i32Vec8MaskStore => true
  | _ => false

/-- What may follow an argument of a call. -/
def Opcode.continuesCall : Opcode → Bool
  | .callArg | .call | .callIndirect => true
  | _ => false

def Opcode.isStore : Opcode → Bool
  | .i8Store | .i16Store | .i32Store | .i64Store | .f64Store | .ptrStore | .i32Vec8MaskStore => true
  | _ => false

/-- The operands in the fields that the opcode uses. -/
def Instr.operands (instr : Instr) : List Value :=
  match instr.opcode with
  | .ret | .br | .funcArg | .phi | .call | .gepStatic => []
  | .i1Lnot | .maskToPermute | .i64Popcount | .i1Vec8MaskExtract | .i1Vec8Not | .i1ZextI8 | .i1ZextI64 | .i8ZextI64
  | .i8ConvF64 | .i16ZextI64 | .i16ConvF64 | .i32ZextI64 | .i32ConvF64 | .i32ConvI32Vec8 | .i64ConvF64 | .i64TruncI16
  | .i64TruncI32 | .f64ConvI64 | .ptrCmpNullptr | .i1Load | .i8Load | .i16Load | .i32Load | .i32Vec8Load | .i64Load
  | .f64Load | .i32Vec8MaskStoreInfo => [instr.arg0]
  | .ptrCast | .ptrLoad | .condbr | .returnValue | .callArg | .callIndirect | .gepDynamic => [instr.arg]
  | _ => [instr.arg0, instr.arg1]

def Instr.typeOf (instr : Instr) : TypeKind :=
  match instr.opcode with
  | .i1And | .i1Or | .i1CmpEq | .i1CmpNe | .i1Lnot | .i8CmpEq | .i8CmpNe | .i8CmpLt | .i8CmpLe | .i8CmpGt
  | .i8CmpGe | .i16CmpEq | .i16CmpNe | .i16CmpLt | .i16CmpLe | .i16CmpGt | .i16CmpGe | .i32CmpEq | .i32CmpNe
  | .i32CmpLt | .i32CmpLe | .i32CmpGt | .i32CmpGe | .i64CmpEq | .i64CmpNe | .i64CmpLt | .i64CmpLe | .i64CmpGt
  | .i64CmpGe | .f64CmpEq | .f64CmpNe | .f64CmpLt | .f64CmpLe | .f64CmpGt | .f64CmpGe | .ptrCmpNullptr | .i1Load
  | .i32CmpEqAnyConstVec4 | .i32CmpEqAnyConstVec8 => .i1
  | .maskToPermute => .pointer
  | .i64Popcount | .i1Vec8MaskExtract => .i64
  | .i32Vec8CmpEq | .i32Vec8CmpNe | .i32Vec8CmpLt | .i32Vec8CmpLe | .i32Vec8CmpGt | .i32Vec8CmpGe | .i1Vec8And
  | .i1Vec8Or | .i1Vec8Not => .i1Vec8
  | .i8Add | .i8Mul | .i8Sub | .i8Load | .i1ZextI8 => .i8
  | .i16Add | .i16Mul | .i16Sub | .i16Load | .i64TruncI16 => .i16
  | .i32Add | .i32Mul | .i32Sub | .i32Load | .i64TruncI32 => .i32
  | .i32Vec8Add | .i32ConvI32Vec8 | .i32Vec8Load | .i32Vec8Permute => .i32Vec8
  | .i64Lshift | .i64Rshift | .i64And | .i64Xor | .i64Or | .i64Add | .i64Mul | .i64Sub | .i1ZextI64 | .i8ZextI64
  | .i16ZextI64 | .i32ZextI64 | .f64ConvI64 | .i64Load => .i64
  | .f64Add | .f64Mul | .f64Sub | .f64Div | .i8ConvF64 | .i16ConvF64 | .i32ConvF64 | .i64ConvF64 | .f64Load => .f64
  | .ret | .i8Store | .i16Store | .i32Store | .i64Store | .f64Store | .ptrStore | .i32Vec8MaskStore | .returnValue
  | .condbr | .br => .void
  | .callIndirect | .phi | .call | .ptrLoad | .ptrCast | .gepStatic | .gepDynamic | .funcArg => instr.typeId
  | .gepStaticOffset | .gepDynamicOffset | .phiMember | .callArg | .i32Vec8MaskStoreInfo => .void

end KushDB.Khir
