import KushDB.Khir.Emitter

/-! # What the moves of operands bring over

Each of the emitter's moves reads its operand from the location of the value, or takes the constant, and brings over as
many bits as the type has. It writes the destination and at most a scratch register, which no value is ever kept in.
-/

namespace KushDB.Khir

open Moves List

section Widths

variable {width : Nat}

theorem setWidth_replaced (hWidth : width ≤ 64) (old new : BitVec 64) :
    (replaced width old new).setWidth width = new.setWidth width := by
  apply BitVec.eq_of_getLsbD_eq
  intro i hi
  have hLt : i < 64 := Nat.lt_of_lt_of_le hi hWidth
  simp [replaced, hi, hLt]

theorem setWidth_zeroExtended (hWidth : width ≤ 64) (old new : BitVec 64) :
    (zeroExtended width old new).setWidth width = new.setWidth width := by
  apply BitVec.eq_of_getLsbD_eq
  intro i hi
  have hLt : i < 64 := Nat.lt_of_lt_of_le hi hWidth
  simp [zeroExtended, hi, hLt]

theorem setWidth_signExtended (hWidth : width ≤ 64) (old new : BitVec 64) :
    (signExtended width old new).setWidth width = new.setWidth width := by
  apply BitVec.eq_of_getLsbD_eq
  intro i hi
  have hLt : i < 64 := Nat.lt_of_lt_of_le hi hWidth
  simp only [signExtended, BitVec.getLsbD_setWidth, BitVec.getLsbD_signExtend, hi, hLt]
  simp

end Widths

/-- The low bits are the same. -/
def SameLow (width : Nat) (a b : BitVec 64) : Prop :=
  a.setWidth width = b.setWidth width

def scratch : List Location :=
  [rax, xmm15]

section Operands

variable (assignments : Nat → Option Nat) (constants : Constants)

/-- Where an operand is read. -/
def operandSource (v : Value) : MachineSource :=
  if v.isConstantGlobal then .constant (constants.bits v.idx) else .location (home assignments v.idx)

/-- The operand is a constant, or its value is spilled or in a register of the class. -/
def InClass (valid : Nat → Bool) (v : Value) : Prop :=
  ∀ x ∈ v.instruction, ∀ r, assignments x = some r → valid r = true

variable {assignments constants}
variable {message : String} {v : Value} {valid : Nat → Bool}

theorem operandIn_of_inClass (h : InClass assignments valid v) :
    operandIn assignments constants valid message v = .ok (operandSource assignments constants v) := by
  rw [operandIn, operandSource]
  split
  case isTrue => rfl
  case isFalse hVariable =>
    rw [home]
    split
    case h_1 r hRegister =>
      rw [if_pos (h v.idx (by simp [Value.instruction, hVariable]) r hRegister)]
    case h_2 => rfl

theorem operandIn_of_not_inClass (h : ¬ InClass assignments valid v) :
    operandIn assignments constants valid message v = .error message := by
  simp only [InClass, not_forall] at h
  obtain ⟨x, hMem, r, hRegister, hInvalid⟩ := h
  rw [Value.instruction] at hMem
  split at hMem
  case isTrue => exact absurd hMem not_mem_nil
  case isFalse hVariable =>
    obtain rfl := mem_singleton.mp hMem
    rw [operandIn, if_neg hVariable, hRegister]
    exact if_neg hInvalid

end Operands

section Carried

variable {assignments : Nat → Option Nat} {constants : Constants}
variable {dest : Location} {source : MachineSource} {width : Nat}

/-- One move that takes over the low bits. -/
theorem carriedOut_single {merge : BitVec 64 → BitVec 64 → BitVec 64}
    {spoils : Option (Location × (BitVec 64 → BitVec 64))} (hMerge : ∀ old new, SameLow width (merge old new) new)
    (hSpoils : ∀ spoiled ∈ spoils, spoiled.1 ∈ scratch) :
    Transfer.CarriedOut scratch ⟨dest, source, SameLow width, [⟨dest, source, merge, spoils⟩]⟩ where
  writes move hMove place hPlace := by
    obtain rfl := mem_singleton.mp hMove
    rcases mem_cons.mp hPlace with hDest | hSpoiled
    · exact Or.inl hDest
    · obtain ⟨spoiled, hSome, rfl⟩ := Option.map_eq_some_iff.mp (Option.mem_toList.mp hSpoiled)
      exact Or.inr (hSpoils spoiled hSome)
  arrives state := by
    have hDest := exec_dest ⟨dest, source, merge, spoils⟩ state
    show SameLow width (Move.exec _ state dest) _
    rw [hDest]
    exact hMerge _ _

theorem rax_mem_scratch : rax ∈ scratch := mem_cons_self

theorem carriedOut_emitMove {inRegister inMemory : BitVec 64 → BitVec 64 → BitVec 64} {constantScratch : Bool}
    {leave : BitVec 64 → BitVec 64} (hRegister : ∀ old new, SameLow width (inRegister old new) new)
    (hMemory : ∀ old new, SameLow width (inMemory old new) new) :
    Transfer.CarriedOut scratch
      ⟨dest, source, SameLow width, emitMove dest source inRegister inMemory constantScratch leave⟩ := by
  have hRax : ∀ spoiled ∈ some (rax, leave), spoiled.1 ∈ scratch := by
    intro spoiled hSome
    obtain rfl := Option.some.inj hSome
    exact rax_mem_scratch
  unfold emitMove
  split
  case h_1 =>
    split
    case isTrue hSame =>
      refine ⟨fun move hMove => absurd hMove not_mem_nil, fun state => ?_⟩
      rw [hSame]
      rfl
    case isFalse => exact carriedOut_single hRegister (by simp)
  case h_2 =>
    split
    case h_1 => exact carriedOut_single hMemory (by simp)
    case h_2 => exact carriedOut_single hMemory hRax
    case h_3 =>
      split
      · exact carriedOut_single hMemory hRax
      · exact carriedOut_single hMemory (by simp)

theorem sameLow_whole (width : Nat) (old new : BitVec 64) : SameLow width (whole old new) new := rfl

section Emitted

variable {dest : Location} {v : Value}

/-- The result is a list of moves that carries out the transfer. -/
def Brings (assignments : Nat → Option Nat) (constants : Constants) (dest : Location) (v : Value) (width : Nat)
    (result : Except String (List MachineMove)) : Prop :=
  ∃ moves, result = .ok moves ∧
    Transfer.CarriedOut scratch ⟨dest, operandSource assignments constants v, SameLow width, moves⟩

theorem gpOperand_eq (h : InClass assignments GPRegister.isGPRegister v) :
    gpOperand assignments constants v = .ok (operandSource assignments constants v) := operandIn_of_inClass h

theorem vectorOperand_eq (h : InClass assignments VRegister.isVRegister v) :
    vectorOperand assignments constants v = .ok (operandSource assignments constants v) := operandIn_of_inClass h

section

variable (h : InClass assignments GPRegister.isGPRegister v)
include h

theorem moveByteValue_brings : Brings assignments constants dest v 8 (moveByteValue assignments constants dest v) := by
  refine ⟨_, by rw [moveByteValue, gpOperand_eq h]; rfl, ?_⟩
  exact carriedOut_emitMove (setWidth_replaced (by decide)) (setWidth_replaced (by decide))

theorem moveWordValue_brings : Brings assignments constants dest v 16 (moveWordValue assignments constants dest v) := by
  refine ⟨_, by rw [moveWordValue, gpOperand_eq h]; rfl, ?_⟩
  exact carriedOut_emitMove (setWidth_replaced (by decide)) (setWidth_replaced (by decide))

theorem moveDWordValue_brings :
    Brings assignments constants dest v 32 (moveDWordValue assignments constants dest v) := by
  refine ⟨_, by rw [moveDWordValue, gpOperand_eq h]; rfl, ?_⟩
  exact carriedOut_emitMove (setWidth_zeroExtended (by decide)) (setWidth_replaced (by decide))

theorem moveQWordValue_brings :
    Brings assignments constants dest v 64 (moveQWordValue assignments constants dest v) := by
  refine ⟨_, by rw [moveQWordValue, gpOperand_eq h]; rfl, ?_⟩
  exact carriedOut_emitMove (sameLow_whole 64) (sameLow_whole 64)

theorem movePtrValue_brings : Brings assignments constants dest v 64 (movePtrValue assignments constants dest v) := by
  rw [movePtrValue]
  split
  case isTrue hConstant =>
    have hSource : operandSource assignments constants v = .constant (constants.bits v.idx) := by
      rw [operandSource, if_pos hConstant]
    rw [Brings, hSource]
    dsimp only
    split
    case h_1 => exact ⟨_, rfl, carriedOut_single (sameLow_whole 64) (by simp)⟩
    case h_2 => exact ⟨_, rfl, carriedOut_emitMove (sameLow_whole 64) (sameLow_whole 64)⟩
    case h_3 => exact ⟨_, rfl, carriedOut_single (sameLow_whole 64) (by simp [scratch])⟩
  case isFalse =>
    refine ⟨_, by rw [gpOperand_eq h]; rfl, ?_⟩
    exact carriedOut_emitMove (sameLow_whole 64) (sameLow_whole 64)

end

theorem moveF64Value_brings (h : InClass assignments VRegister.isVRegister v) :
    Brings assignments constants dest v 64 (moveF64Value assignments constants dest v) := by
  rw [moveF64Value, vectorOperand_eq h]
  dsimp only [bind, Except.bind]
  split
  case h_1 => exact ⟨_, rfl, carriedOut_single (sameLow_whole 64) (by simp)⟩
  case h_2 =>
    split
    case h_1 => exact ⟨_, rfl, carriedOut_single (sameLow_whole 64) (by simp)⟩
    case h_2 => exact ⟨_, rfl, carriedOut_single (sameLow_whole 64) (by simp [scratch])⟩

theorem sextByteValue_brings (h : InClass assignments GPRegister.isGPRegister v) :
    Brings assignments constants dest v 8 (sextByteValue assignments constants dest v) := by
  refine ⟨_, by rw [sextByteValue, gpOperand_eq h]; rfl, ?_⟩
  exact carriedOut_single (setWidth_signExtended (by decide)) (by simp)

theorem sextWordValue_brings (h : InClass assignments GPRegister.isGPRegister v) :
    Brings assignments constants dest v 16 (sextWordValue assignments constants dest v) := by
  refine ⟨_, by rw [sextWordValue, gpOperand_eq h]; rfl, ?_⟩
  exact carriedOut_single (setWidth_signExtended (by decide)) (by simp)

end Emitted

end Carried

end KushDB.Khir
