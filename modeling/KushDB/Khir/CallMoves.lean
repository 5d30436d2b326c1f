import KushDB.Library.Fallible
import KushDB.Khir.OperandMoves
import KushDB.Khir.LinearScanInvariant
import KushDB.Khir.Reservations

/-! # The moves of a call as transfers

A call brings its arguments over one after the other: the floating point ones, then the others in registers and on the
stack. All destinations are different.
-/

namespace KushDB.Khir

open Fallible Moves List

def TypeKind.isPassed : TypeKind → Bool
  | .i1 | .i8 | .i16 | .i32 | .i64 | .pointer => true
  | _ => false

def okMoves : Except String (List MachineMove) → List MachineMove
  | .ok moves => moves
  | .error _ => []

/-- Where the convention wants the argument of a number that is not a floating point one. -/
def regularPlace (number : Nat) : Location :=
  match normalArgReg[number]? with
  | some register => .register register
  | none => .outgoing (number - normalArgReg.length)

section Transfers

variable (assignments : Nat → Option Nat) (constants : Constants)

def passRegular (argument : Value × TypeKind) (number : Nat) : Except String (List MachineMove) :=
  match normalArgReg[number]? with
  | some register => passInRegister assignments constants argument register
  | none => passOnStack assignments constants argument (number - normalArgReg.length)

def floatTransfer (v : Value) (register : Nat) : Transfer Location (BitVec 64) :=
  ⟨.register register, operandSource assignments constants v, SameLow 64,
    okMoves (moveF64Value assignments constants (.register register) v)⟩

def regularTransfer (argument : Value × TypeKind) (number : Nat) : Transfer Location (BitVec 64) :=
  ⟨regularPlace number, operandSource assignments constants argument.1, SameLow argument.2.width,
    okMoves (passRegular assignments constants argument number)⟩

def floatTransfers (pending : PendingArgs) : List (Transfer Location (BitVec 64)) :=
  (pending.floatingPoint.zip fpArgReg).map fun (v, register) => floatTransfer assignments constants v register

def regularTransfers (pending : PendingArgs) : List (Transfer Location (BitVec 64)) :=
  pending.regular.mapIdx fun number argument => regularTransfer assignments constants argument number

def callTransfers (pending : PendingArgs) : List (Transfer Location (BitVec 64)) :=
  floatTransfers assignments constants pending ++ regularTransfers assignments constants pending

/-- The arguments put aside are kept in registers of their classes, and an integer argument is in no argument register
of an earlier one. -/
structure PendingPlaced (pending : PendingArgs) : Prop where
  floats : ∀ v ∈ pending.floatingPoint, ∀ x ∈ v.instruction, ∀ r, assignments x = some r → r ∈ vectorPool
  regular : ∀ a ∈ pending.regular, ∀ x ∈ a.1.instruction, ∀ r, assignments x = some r → r ∈ normalPool
  types : ∀ a ∈ pending.regular, a.2.isPassed = true
  count : pending.floatingPoint.length ≤ fpArgReg.length
  apart : ∀ (m : Nat) (a : Value × TypeKind), pending.regular[m]? = some a → ∀ x ∈ a.1.instruction, ∀ n < m, ∀ r,
    normalArgReg[n]? = some r → assignments x ≠ some r

end Transfers

section Carried

variable {assignments : Nat → Option Nat} {constants : Constants} {pending : PendingArgs}
variable {argument : Value × TypeKind} {dest : Location} {result : Except String (List MachineMove)} {width : Nat}

theorem passRegular_brings (hType : argument.2.isPassed = true)
    (h : InClass assignments GPRegister.isGPRegister argument.1) (number : Nat) :
    Brings assignments constants (regularPlace number) argument.1 argument.2.width
      (passRegular assignments constants argument number) := by
  obtain ⟨v, type⟩ := argument
  rw [regularPlace, passRegular]
  cases normalArgReg[number]? with
  | some register =>
    cases type with
    | i1 | i8 => exact sextByteValue_brings h
    | i16 => exact sextWordValue_brings h
    | i32 => exact moveDWordValue_brings h
    | i64 => exact moveQWordValue_brings h
    | pointer => exact movePtrValue_brings h
    | _ => exact absurd hType (by simp [TypeKind.isPassed])
  | none =>
    cases type with
    | i1 | i8 => exact moveByteValue_brings h
    | i16 => exact moveWordValue_brings h
    | i32 => exact moveDWordValue_brings h
    | i64 => exact moveQWordValue_brings h
    | pointer => exact movePtrValue_brings h
    | _ => exact absurd hType (by simp [TypeKind.isPassed])

variable {v : Value} {r m : Nat} {transfer : Transfer Location (BitVec 64)}

theorem Brings.eq_ok (h : Brings assignments constants dest v width result) : result = .ok (okMoves result) := by
  obtain ⟨moves, rfl, -⟩ := h
  rfl

theorem Brings.carriedOut (h : Brings assignments constants dest v width result) :
    Transfer.CarriedOut scratch ⟨dest, operandSource assignments constants v, SameLow width, okMoves result⟩ := by
  obtain ⟨moves, rfl, hOut⟩ := h
  exact hOut

theorem gpRegister_of_mem_normalPool (h : r ∈ normalPool) : GPRegister.isGPRegister r = true := by
  revert r
  decide

theorem vRegister_of_mem_vectorPool (h : r ∈ vectorPool) : VRegister.isVRegister r = true := by
  revert r
  decide

theorem PendingPlaced.inClass (h : PendingPlaced assignments pending) {a : Value × TypeKind} (hMem : a ∈ pending.regular) :
    InClass assignments GPRegister.isGPRegister a.1 := fun x hIn r hHeld =>
  gpRegister_of_mem_normalPool (h.regular a hMem x hIn r hHeld)

theorem PendingPlaced.inVectorClass (h : PendingPlaced assignments pending) (hMem : v ∈ pending.floatingPoint) :
    InClass assignments VRegister.isVRegister v := fun x hIn r hHeld =>
  vRegister_of_mem_vectorPool (h.floats v hMem x hIn r hHeld)

theorem regularTransfers_getElem? :
    (regularTransfers assignments constants pending)[m]? = some transfer ↔
      ∃ a, pending.regular[m]? = some a ∧ transfer = regularTransfer assignments constants a m := by
  rw [regularTransfers, getElem?_mapIdx, Option.map_eq_some_iff]
  simp only [eq_comm]

/-- The first of these arguments are passed in registers. -/
theorem take_regularTransfers (assignments : Nat → Option Nat) (constants : Constants) (pending : PendingArgs) :
    ((regularTransfers assignments constants pending).take normalArgReg.length).map Transfer.moves =
      (pending.regular.zip normalArgReg).map fun (argument, register) =>
        okMoves (passInRegister assignments constants argument register) := by
  refine ext_getElem? fun m => ?_
  rw [getElem?_map, getElem?_map, getElem?_take, zip, getElem?_zipWith, regularTransfers, getElem?_mapIdx]
  cases hR : normalArgReg[m]? with
  | none =>
    rw [if_neg (Nat.not_lt.mpr (getElem?_eq_none_iff.mp hR))]
    cases pending.regular[m]? with
    | none => rfl
    | some argument => rfl
  | some register =>
    obtain ⟨hLt, -⟩ := List.getElem?_eq_some_iff.mp hR
    rw [if_pos hLt]
    cases pending.regular[m]? with
    | none => rfl
    | some argument => simp [regularTransfer, passRegular, hR]

theorem drop_regularTransfers (assignments : Nat → Option Nat) (constants : Constants) (pending : PendingArgs) :
    ((regularTransfers assignments constants pending).drop normalArgReg.length).map Transfer.moves =
      (pending.regular.drop normalArgReg.length).zipIdx.map fun (argument, number) =>
        okMoves (passOnStack assignments constants argument number) := by
  refine ext_getElem? fun m => ?_
  rw [getElem?_map, getElem?_map, getElem?_drop, getElem?_zipIdx, getElem?_drop, regularTransfers, getElem?_mapIdx]
  cases pending.regular[normalArgReg.length + m]? with
  | none => rfl
  | some argument => simp [regularTransfer, passRegular]

/-- The call emits the moves of its transfers. -/
theorem callMoves_eq (constants : Constants) (h : PendingPlaced assignments pending) :
    callMoves assignments constants pending =
      .ok ((callTransfers assignments constants pending).flatMap Transfer.moves) := by
  have hFloats : (pending.floatingPoint.zip fpArgReg).mapM (fun (v, register) =>
      moveF64Value assignments constants (.register register) v) =
        .ok ((floatTransfers assignments constants pending).map Transfer.moves) := by
    rw [floatTransfers, map_map]
    apply mapM_eq_pure
    rintro ⟨v, register⟩ hMem
    exact (moveF64Value_brings (h.inVectorClass (of_mem_zip hMem).1)).eq_ok
  have hBrings := fun argument hIn => @passRegular_brings assignments constants argument (h.types _ hIn) (h.inClass hIn)
  have hRegisters : (pending.regular.zip normalArgReg).mapM (fun (argument, register) =>
      passInRegister assignments constants argument register) =
        .ok (((regularTransfers assignments constants pending).take normalArgReg.length).map Transfer.moves) := by
    rw [take_regularTransfers]
    apply mapM_eq_pure
    rintro ⟨argument, register⟩ hMem
    obtain ⟨m, hM⟩ := mem_iff_getElem?.mp (of_mem_zip hMem).2
    have hOk := (hBrings argument (of_mem_zip hMem).1 m).eq_ok
    rwa [passRegular, hM] at hOk
  have hStack : (pending.regular.drop normalArgReg.length).zipIdx.mapM (fun (argument, number) =>
      passOnStack assignments constants argument number) =
        .ok (((regularTransfers assignments constants pending).drop normalArgReg.length).map Transfer.moves) := by
    rw [drop_regularTransfers]
    apply mapM_eq_pure
    rintro ⟨argument, number⟩ hMem
    have hOk := (hBrings argument (mem_of_mem_drop (fst_mem_of_mem_zipIdx hMem)) (normalArgReg.length + number)).eq_ok
    rwa [passRegular, getElem?_eq_none (Nat.le_add_right _ _), Nat.add_sub_cancel_left] at hOk
  have hCount : ¬ fpArgReg.length < pending.floatingPoint.length := Nat.not_lt.mpr h.count
  refine (bind_of_ok hFloats).trans ?_
  refine (if_neg hCount).trans ?_
  refine (bind_of_ok hRegisters).trans ?_
  refine (bind_of_ok hStack).trans ?_
  rw [callTransfers, flatMap_append, flatMap_def, flatMap_def, append_assoc, ← flatten_append, ← map_append,
    take_append_drop]
  rfl

theorem callTransfers_carriedOut (constants : Constants) (h : PendingPlaced assignments pending) :
    ∀ transfer ∈ callTransfers assignments constants pending, transfer.CarriedOut scratch := by
  intro transfer hMem
  rcases mem_append.mp hMem with hMem | hMem
  · obtain ⟨⟨v, register⟩, hIn, rfl⟩ := mem_map.mp hMem
    exact (moveF64Value_brings (h.inVectorClass (of_mem_zip hIn).1)).carriedOut
  · obtain ⟨m, hM⟩ := mem_iff_getElem?.mp hMem
    obtain ⟨argument, hIn, rfl⟩ := regularTransfers_getElem?.mp hM
    have hArgument := mem_of_getElem? hIn
    exact (passRegular_brings (h.types _ hArgument) (h.inClass hArgument) m).carriedOut

/-- Different registers of the convention are different places. -/
theorem argReg_inj {registers : List Nat} (hNodup : registers.Nodup) {n : Nat} (hM : registers[m]? = some r)
    (hN : registers[n]? = some r) : m = n := by
  obtain ⟨hLt, -⟩ := List.getElem?_eq_some_iff.mp hM
  exact (getElem?_inj hLt hNodup).mp (hM.trans hN.symm)

/-- What stands where in the list of transfers. -/
theorem floatTransfers_getElem? :
    (floatTransfers assignments constants pending)[m]? = some transfer ↔ ∃ v r, pending.floatingPoint[m]? = some v ∧
      fpArgReg[m]? = some r ∧ transfer = floatTransfer assignments constants v r := by
  rw [floatTransfers, getElem?_map, Option.map_eq_some_iff]
  constructor
  · rintro ⟨⟨v, r⟩, hItem, rfl⟩
    obtain ⟨hV, hR⟩ := getElem?_zip_eq_some.mp hItem
    exact ⟨v, r, hV, hR, rfl⟩
  · rintro ⟨v, r, hV, hR, rfl⟩
    exact ⟨(v, r), getElem?_zip_eq_some.mpr ⟨hV, hR⟩, rfl⟩

theorem regularPlace_eq_register : regularPlace m = .register r ↔ normalArgReg[m]? = some r := by
  rw [regularPlace]
  cases normalArgReg[m]? with
  | none => simp
  | some register => simp

theorem regularPlace_inj {n : Nat} (h : regularPlace m = regularPlace n) : m = n := by
  cases hN : normalArgReg[n]? with
  | some r =>
    rw [regularPlace_eq_register.mpr hN] at h
    exact argReg_inj (by decide) (regularPlace_eq_register.mp h) hN
  | none =>
    cases hM : normalArgReg[m]? with
    | some r =>
      rw [regularPlace_eq_register.mpr hM] at h
      exact absurd (hN.symm.trans (regularPlace_eq_register.mp h.symm)) (by simp)
    | none =>
      have hLe := getElem?_eq_none_iff.mp hN
      have hLe' := getElem?_eq_none_iff.mp hM
      rw [regularPlace, regularPlace, hM, hN] at h
      have := Location.outgoing.inj h
      omega

theorem floatTransfers_dest (hMem : transfer ∈ floatTransfers assignments constants pending) :
    ∃ r ∈ fpArgReg, transfer.dest = .register r := by
  obtain ⟨m, hM⟩ := mem_iff_getElem?.mp hMem
  obtain ⟨v, r, -, hR, rfl⟩ := floatTransfers_getElem?.mp hM
  exact ⟨r, mem_of_getElem? hR, rfl⟩

theorem regularTransfers_dest (hMem : transfer ∈ regularTransfers assignments constants pending) :
    ∃ m, transfer.dest = regularPlace m := by
  obtain ⟨m, hM⟩ := mem_iff_getElem?.mp hMem
  obtain ⟨a, -, rfl⟩ := regularTransfers_getElem?.mp hM
  exact ⟨m, rfl⟩

/-- No two arguments go to the same place. -/
theorem dests_pairwise (assignments : Nat → Option Nat) (constants : Constants) (pending : PendingArgs) :
    (callTransfers assignments constants pending).Pairwise fun first second => second.dest ≠ first.dest := by
  rw [callTransfers, pairwise_append]
  refine ⟨?_, ?_, ?_⟩
  · rw [pairwise_iff_getElem]
    intro m n hM hN hLt hSame
    obtain ⟨v, r, -, hR, hFirst⟩ := floatTransfers_getElem?.mp (getElem?_eq_getElem hM)
    obtain ⟨w, r', -, hR', hSecond⟩ := floatTransfers_getElem?.mp (getElem?_eq_getElem hN)
    rw [hFirst, hSecond] at hSame
    obtain rfl := Location.register.inj hSame
    exact Nat.ne_of_lt hLt (argReg_inj (by decide) hR hR')
  · rw [pairwise_iff_getElem]
    intro m n hM hN hLt hSame
    obtain ⟨a, -, hFirst⟩ := regularTransfers_getElem?.mp (getElem?_eq_getElem hM)
    obtain ⟨a', -, hSecond⟩ := regularTransfers_getElem?.mp (getElem?_eq_getElem hN)
    rw [hFirst, hSecond] at hSame
    exact Nat.ne_of_gt hLt (regularPlace_inj hSame)
  · intro first hFirst second hSecond hSame
    obtain ⟨r, hR, hDest⟩ := floatTransfers_dest hFirst
    obtain ⟨m, hDest'⟩ := regularTransfers_dest hSecond
    rw [hDest, hDest'] at hSame
    have hDisjoint : ∀ r ∈ fpArgReg, r ∉ normalArgReg := by decide
    exact hDisjoint r hR (mem_of_getElem? (regularPlace_eq_register.mp hSame))

end Carried

end KushDB.Khir
