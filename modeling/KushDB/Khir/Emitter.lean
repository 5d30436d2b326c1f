import KushDB.Library.Moves
import KushDB.Khir.LinearScan

/-! # The machine code of moves and calls

The emitter keeps a value in the register it was given or else in a stack slot of its own. An argument of a call emits
nothing: it is put aside, and the call moves all arguments put aside to where the calling convention wants them, first
the floating point ones, then the others in order, the last ones into the outgoing stack slots. Contents are 64-bit
words; of a vector register only the low word matters here.
-/

namespace KushDB.Khir

open Moves

inductive Location
  | register (id : Nat)
  | slot (value : Nat)
  | outgoing (number : Nat)
  deriving DecidableEq, Repr

abbrev Machine := Location → BitVec 64

abbrev MachineMove := Move Location (BitVec 64)

abbrev MachineSource := Source Location (BitVec 64)

inductive PtrConstant
  | null | pointer | global
  deriving DecidableEq, Repr

/-- The constants and globals of a program: their contents, and how a pointer is written down. -/
structure Constants where
  bits : Nat → BitVec 64
  pointer : Nat → PtrConstant

/-- `mov` to a part of a word, which leaves the rest as it is. -/
def replaced (width : Nat) (old new : BitVec 64) : BitVec 64 :=
  ((old >>> width) <<< width) ||| (new.setWidth width).setWidth 64

def zeroExtended (width : Nat) (_ new : BitVec 64) : BitVec 64 :=
  (new.setWidth width).setWidth 64

def signExtended (width : Nat) (_ new : BitVec 64) : BitVec 64 :=
  (new.setWidth width).signExtend 64

def whole (_ new : BitVec 64) : BitVec 64 :=
  new

def TypeKind.width : TypeKind → Nat
  | .i1 | .i8 => 8
  | .i16 => 16
  | .i32 => 32
  | _ => 64

def rax : Location :=
  .register GPRegister.rax

def xmm15 : Location :=
  .register (VRegister.m 15)

section Moves

variable (assignments : Nat → Option Nat) (constants : Constants)

/-- Where a value is kept. -/
def home (v : Nat) : Location :=
  match assignments v with
  | some register => .register register
  | none => .slot v

def operandIn (valid : Nat → Bool) (message : String) (v : Value) : Except String MachineSource :=
  if v.isConstantGlobal then .ok (.constant (constants.bits v.idx))
  else match assignments v.idx with
    | some register => if valid register then .ok (.location (.register register)) else .error message
    | none => .ok (.location (.slot v.idx))

def gpOperand (v : Value) : Except String MachineSource :=
  operandIn assignments constants GPRegister.isGPRegister "Invalid GPRegister ID." v

def vectorOperand (v : Value) : Except String MachineSource :=
  operandIn assignments constants VRegister.isVRegister "Invalid VRegister ID." v

/-- A move into a register is left out when the value is there already; a move from memory to memory goes through a
scratch register. -/
def emitMove (dest : Location) (source : MachineSource) (inRegister inMemory : BitVec 64 → BitVec 64 → BitVec 64)
    (constantScratch : Bool) (leave : BitVec 64 → BitVec 64) : List MachineMove :=
  match dest with
  | .register _ => if source = .location dest then [] else [⟨dest, source, inRegister, none⟩]
  | _ => match source with
    | .location (.register _) => [⟨dest, source, inMemory, none⟩]
    | .location _ => [⟨dest, source, inMemory, some (rax, leave)⟩]
    | .constant _ => [⟨dest, source, inMemory, if constantScratch then some (rax, leave) else none⟩]

def moveByteValue (dest : Location) (v : Value) : Except String (List MachineMove) := do
  let source ← gpOperand assignments constants v
  return emitMove dest source (replaced 8) (replaced 8) false fun w => ((w.setWidth 8).signExtend 32).setWidth 64

def moveWordValue (dest : Location) (v : Value) : Except String (List MachineMove) := do
  let source ← gpOperand assignments constants v
  return emitMove dest source (replaced 16) (replaced 16) false fun w => ((w.setWidth 16).signExtend 32).setWidth 64

def moveDWordValue (dest : Location) (v : Value) : Except String (List MachineMove) := do
  let source ← gpOperand assignments constants v
  return emitMove dest source (zeroExtended 32) (replaced 32) false fun w => (w.setWidth 32).setWidth 64

def moveQWordValue (dest : Location) (v : Value) : Except String (List MachineMove) := do
  let source ← gpOperand assignments constants v
  return emitMove dest source whole whole true id

def movePtrValue (dest : Location) (v : Value) : Except String (List MachineMove) :=
  if v.isConstantGlobal then
    let source := Source.constant (constants.bits v.idx)
    match constants.pointer v.idx with
    | .null => .ok [⟨dest, source, whole, none⟩]
    | .pointer => .ok (emitMove dest source whole whole true id)
    -- the address of a global is computed in the scratch register first
    | .global => .ok [⟨dest, source, whole, some (rax, id)⟩]
  else do
    let source ← gpOperand assignments constants v
    return emitMove dest source whole whole true id

def moveF64Value (dest : Location) (v : Value) : Except String (List MachineMove) := do
  let source ← vectorOperand assignments constants v
  match dest with
  | .register _ => return [⟨dest, source, whole, none⟩]
  | _ => match source with
    | .location (.register _) => return [⟨dest, source, whole, none⟩]
    | _ => return [⟨dest, source, whole, some (xmm15, id)⟩]

def sextByteValue (dest : Location) (v : Value) : Except String (List MachineMove) := do
  let source ← gpOperand assignments constants v
  return [⟨dest, source, signExtended 8, none⟩]

def sextWordValue (dest : Location) (v : Value) : Except String (List MachineMove) := do
  let source ← gpOperand assignments constants v
  return [⟨dest, source, signExtended 16, none⟩]

end Moves

/-- The arguments put aside for the next call. -/
structure PendingArgs where
  floatingPoint : List Value := []
  regular : List (Value × TypeKind) := []
  deriving DecidableEq, Repr

section Calls

variable (assignments : Nat → Option Nat) (constants : Constants)

def passInRegister (argument : Value × TypeKind) (register : Nat) : Except String (List MachineMove) :=
  match argument.2 with
  | .i1 | .i8 => sextByteValue assignments constants (.register register) argument.1
  | .i16 => sextWordValue assignments constants (.register register) argument.1
  | .i32 => moveDWordValue assignments constants (.register register) argument.1
  | .i64 => moveQWordValue assignments constants (.register register) argument.1
  | .pointer => movePtrValue assignments constants (.register register) argument.1
  | _ => .error "Invalid argument type."

def passOnStack (argument : Value × TypeKind) (number : Nat) : Except String (List MachineMove) :=
  match argument.2 with
  | .i1 | .i8 => moveByteValue assignments constants (.outgoing number) argument.1
  | .i16 => moveWordValue assignments constants (.outgoing number) argument.1
  | .i32 => moveDWordValue assignments constants (.outgoing number) argument.1
  | .i64 => moveQWordValue assignments constants (.outgoing number) argument.1
  | .pointer => movePtrValue assignments constants (.outgoing number) argument.1
  | _ => .error "Invalid argument type."

def callMoves (pending : PendingArgs) : Except String (List MachineMove) := do
  let floats ← (pending.floatingPoint.zip fpArgReg).mapM fun (v, register) =>
    moveF64Value assignments constants (.register register) v
  if fpArgReg.length < pending.floatingPoint.length then
    throw "Too many floating point args for the call."
  let inRegisters ← (pending.regular.zip normalArgReg).mapM fun (argument, register) =>
    passInRegister assignments constants argument register
  let onStack ← (pending.regular.drop normalArgReg.length).zipIdx.mapM fun (argument, number) =>
    passOnStack assignments constants argument number
  return floats.flatten ++ inRegisters.flatten ++ onStack.flatten

end Calls

section Pending

variable (body : Body)

/-- What an instruction does to the arguments put aside. -/
def pendingStep (pending : PendingArgs) (i : Nat) : PendingArgs :=
  match body.opcode i with
  | .callArg =>
    if (body.instr i).typeId = .f64 then
      { pending with floatingPoint := pending.floatingPoint ++ [(body.instr i).arg] }
    else { pending with regular := pending.regular ++ [((body.instr i).arg, (body.instr i).typeId)] }
  | .call | .callIndirect => {}
  | _ => pending

/-- The arguments put aside at the `k`-th instruction of a block when the given blocks have been emitted before it. -/
def pendingAt (emitted : List Nat) (b k : Nat) : PendingArgs :=
  (emitted.flatMap (fun c => (body.block c).code) ++ (body.block b).code.take k).foldl (pendingStep body) {}

end Pending

end KushDB.Khir
