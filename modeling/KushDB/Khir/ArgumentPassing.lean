import KushDB.Khir.CallArrival
import KushDB.Khir.CallArguments

/-! # Passing arguments by the calling convention

The convention numbers the floating point arguments and the others of a call separately. Every argument arrives in its
place exactly if no floating point argument is kept in the register of an earlier one and no argument is kept in the
flags.
-/

namespace KushDB.Khir

open Fallible Moves List

def Body.isF64Arg (body : Body) (j : Nat) : Bool :=
  (body.instr j).typeId = .f64

/-- Where the convention wants an argument, given the arguments before it. -/
def conventionPlace (body : Body) (before : List Nat) (j : Nat) : Option Location :=
  if body.isF64Arg j then (fpArgReg[(before.filter body.isF64Arg).length]?).map Location.register
  else
    let number := (before.filter fun other => !body.isF64Arg other).length
    match normalArgReg[number]? with
    | some register => some (.register register)
    | none => some (.outgoing (number - normalArgReg.length))

/-- The moves of the call at a point of a block bring every argument to its place. -/
def ArgumentsIntact (f : Function) (assignments : Nat → Option Nat) (constants : Constants) (emitted : List Nat)
    (b k : Nat) : Prop :=
  ∃ moves, callMoves assignments constants (pendingAt f.toBody emitted b k) = .ok moves ∧
    ∀ first i, (f.block b).points[k]? = some (first, i) → ∀ (state : Machine) before j after,
      callArguments f.toBody first i = before ++ j :: after → ∃ place, conventionPlace f.toBody before j = some place ∧
        SameLow (f.instr j).typeId.width (run moves state place)
          ((operandSource assignments constants (f.instr j).arg).read state)

/-- An argument has the type of its value, as the program builder writes it down. -/
def Body.ArgumentsTyped (body : Body) : Prop :=
  ∀ j < body.instrs.length, body.opcode j = .callArg → ∀ x ∈ (body.instr j).arg.instruction,
    (body.instr j).typeId = (body.instr x).typeOf

instance (body : Body) : Decidable body.ArgumentsTyped := by
  unfold Body.ArgumentsTyped
  infer_instance

def floatArguments (body : Body) (args : List Nat) : List Value :=
  (args.filter body.isF64Arg).map fun j => (body.instr j).arg

def regularArguments (body : Body) (args : List Nat) : List (Value × TypeKind) :=
  (args.filter fun j => !body.isF64Arg j).map fun j => ((body.instr j).arg, (body.instr j).typeId)

section Pending

variable {f : Function} {first i : Nat}

theorem foldl_pendingStep (args : List Nat) (hArgs : ∀ j ∈ args, f.opcode j = .callArg) (pending : PendingArgs) :
    args.foldl (pendingStep f.toBody) pending = ⟨pending.floatingPoint ++ floatArguments f.toBody args,
      pending.regular ++ regularArguments f.toBody args⟩ := by
  induction args generalizing pending with
  | nil => simp [floatArguments, regularArguments]
  | cons j rest ih =>
    obtain ⟨hFirst, hRest⟩ := forall_mem_cons.mp hArgs
    rw [foldl_cons, ih hRest, pendingStep, hFirst]
    dsimp only
    by_cases hFloat : (f.instr j).typeId = .f64
    · simp [floatArguments, regularArguments, Body.isF64Arg, hFloat]
    · simp [floatArguments, regularArguments, Body.isF64Arg, hFloat]

variable {j : Nat}

theorem opcode_of_mem_callArguments (hMem : j ∈ callArguments f.toBody first i) : f.opcode j = .callArg := by
  obtain ⟨-, hLt, hArgs⟩ := mem_callArgsBefore.mp (mem_callArguments.mp hMem)
  exact hArgs j le_rfl hLt

theorem gathered_eq : gathered f.toBody first i = ⟨floatArguments f.toBody (callArguments f.toBody first i),
    regularArguments f.toBody (callArguments f.toBody first i)⟩ := by
  have hFold := foldl_pendingStep (callArguments f.toBody first i) (fun j => opcode_of_mem_callArguments) {}
  exact hFold

/-- The number of an element among those chosen. -/
theorem filter_getElem? {items : List Nat} {chosen : Nat → Bool} {n : Nat} (h : (items.filter chosen)[n]? = some j) :
    ∃ before after, items = before ++ j :: after ∧ (before.filter chosen).length = n ∧ chosen j = true := by
  induction items generalizing n with
  | nil => simp at h
  | cons item rest ih =>
    rw [filter_cons] at h
    split at h
    case isFalse hNot =>
      obtain ⟨before, after, rfl, hLength, hChosen⟩ := ih h
      exact ⟨item :: before, after, rfl, by rw [filter_cons_of_neg hNot, hLength], hChosen⟩
    case isTrue hIs =>
      cases n with
      | zero =>
        obtain rfl := Option.some.inj h
        exact ⟨[], rest, rfl, rfl, hIs⟩
      | succ n =>
        obtain ⟨before, after, rfl, hLength, hChosen⟩ := ih h
        exact ⟨item :: before, after, rfl, by rw [filter_cons_of_pos hIs, length_cons, hLength], hChosen⟩

theorem getElem?_filter {before after : List Nat} {chosen : Nat → Bool} {j : Nat} (h : chosen j = true) :
    ((before ++ j :: after).filter chosen)[(before.filter chosen).length]? = some j := by
  rw [filter_append, filter_cons_of_pos h, getElem?_append_right le_rfl, Nat.sub_self]
  rfl

end Pending

/-- No argument of the call is kept in the flags. -/
def FlagsFree (f : Function) (assignments : Nat → Option Nat) (first i : Nat) : Prop :=
  ∀ j ∈ callArguments f.toBody first i, ∀ x ∈ (f.instr j).arg.instruction, ∀ r, assignments x = some r →
    r ≠ FRegister.iFlag ∧ r ≠ FRegister.fFlag

section Placed

variable {f : Function} {assignments : Nat → Option Nat} {first i : Nat}
variable {r j : Nat}

theorem typeOf_of_flag {instr : Instr} (h : instr.opcode.flag = some r) : instr.typeOf = .i1 := by
  rw [Instr.typeOf]
  revert h
  cases instr.opcode <;> simp [Opcode.flag, Opcode.allocForm]

theorem eq_flag_of_flag {opcode : Opcode} (h : opcode.flag = some r) : r = FRegister.iFlag ∨ r = FRegister.fFlag :=
  (flag_iff.mp h).imp And.right And.right

variable {args : List Nat} {x : Nat}

theorem mem_floatArguments {v : Value} (hMem : v ∈ floatArguments f.toBody args) :
    ∃ j ∈ args, (f.instr j).typeId = .f64 ∧ (f.instr j).arg = v := by
  obtain ⟨j, hJ, rfl⟩ := mem_map.mp hMem
  obtain ⟨hIn, hFloat⟩ := mem_filter.mp hJ
  exact ⟨j, hIn, of_decide_eq_true hFloat, rfl⟩

theorem mem_regularArguments {a : Value × TypeKind} (hMem : a ∈ regularArguments f.toBody args) :
    ∃ j ∈ args, (f.instr j).typeId ≠ .f64 ∧ ((f.instr j).arg, (f.instr j).typeId) = a := by
  obtain ⟨j, hJ, rfl⟩ := mem_map.mp hMem
  obtain ⟨hIn, hFloat⟩ := mem_filter.mp hJ
  exact ⟨j, hIn, by simpa [Body.isF64Arg] using hFloat, rfl⟩

theorem lt_of_mem_callArguments (hMem : j ∈ callArguments f.toBody first i) : j < f.instrs.length :=
  lt_of_opcode_ne (by rw [opcode_of_mem_callArguments hMem]; simp)

theorem not_isVector_of_isPassed {type : TypeKind} (h : type.isPassed = true) : type.isVector = false := by
  cases type <;> first | rfl | exact absurd h (by decide)

section

variable (h : PlacedForCall f assignments first i) (hTyped : f.ArgumentsTyped)
  (hMem : j ∈ callArguments f.toBody first i)
include h hTyped hMem

/-- A floating point argument is never in the flags: a compare is not a floating point value. -/
theorem PlacedForCall.float (hFloat : (f.instr j).typeId = .f64) (hX : x ∈ (f.instr j).arg.instruction)
    (hHeld : assignments x = some r) : r ∈ vectorPool := by
  have hType := hTyped j (lt_of_mem_callArguments hMem) (opcode_of_mem_callArguments hMem) x hX
  rw [hFloat] at hType
  rcases h.classes j hMem x hX r hHeld with hPool | hFlag
  · rwa [← hType] at hPool
  · exact absurd (hType.trans (typeOf_of_flag hFlag)) (by simp)

theorem PlacedForCall.regular (hPassed : (f.instr j).typeId.isPassed = true) (hX : x ∈ (f.instr j).arg.instruction)
    (hHeld : assignments x = some r) : r ∈ normalPool ∨ r = FRegister.iFlag ∨ r = FRegister.fFlag := by
  have hType := hTyped j (lt_of_mem_callArguments hMem) (opcode_of_mem_callArguments hMem) x hX
  refine (h.classes j hMem x hX r hHeld).imp (fun hPool => ?_) eq_flag_of_flag
  rwa [← hType, TypeKind.pool, not_isVector_of_isPassed hPassed] at hPool

end

/-- The arguments the convention has places for. -/
structure Conforms (f : Function) (first i : Nat) : Prop where
  types : ∀ j ∈ callArguments f.toBody first i, (f.instr j).typeId = .f64 ∨ (f.instr j).typeId.isPassed = true
  count : ((callArguments f.toBody first i).filter f.isF64Arg).length ≤ fpArgReg.length

theorem PlacedForCall.pending (h : PlacedForCall f assignments first i) (hTyped : f.ArgumentsTyped)
    (hConforms : Conforms f first i) (hFree : FlagsFree f assignments first i) :
    PendingPlaced assignments (gathered f.toBody first i) := by
  rw [gathered_eq]
  constructor
  · intro v hV x hX r hHeld
    obtain ⟨j, hJ, hFloat, rfl⟩ := mem_floatArguments hV
    exact h.float hTyped hJ hFloat hX hHeld
  · intro a hA x hX r hHeld
    obtain ⟨j, hJ, hFloat, rfl⟩ := mem_regularArguments hA
    obtain ⟨hInt, hFlag⟩ := hFree j hJ x hX r hHeld
    have hPassed := (hConforms.types j hJ).resolve_left hFloat
    exact (h.regular hTyped hJ hPassed hX hHeld).resolve_right (not_or.mpr ⟨hInt, hFlag⟩)
  · intro a hA
    obtain ⟨j, hJ, hFloat, rfl⟩ := mem_regularArguments hA
    exact (hConforms.types j hJ).resolve_left hFloat
  · rw [floatArguments, length_map]
    exact hConforms.count
  · intro m a hA x hX n hLt r hR
    rw [regularArguments, getElem?_map, Option.map_eq_some_iff] at hA
    obtain ⟨j, hJ, rfl⟩ := hA
    obtain ⟨before, after, hSplit, hLength, -⟩ := filter_getElem? hJ
    have hFewer := length_filter_le (fun j => !f.isF64Arg j) before
    refine h.reserved n before.length j (by omega) ?_ x hX r hR
    rw [hSplit, getElem?_append_right le_rfl, Nat.sub_self]
    rfl

end Placed

section Intact

variable {f : Function} {assignments : Nat → Option Nat} {constants : Constants} {emitted : List Nat}
  {b k first i : Nat}

theorem argumentsIntact_of (hEmitted : ∀ c ∈ emitted, c < f.basicBlocks.length) (hAt : StandsAt f b k first i)
    (hPlaced : PendingPlaced assignments (gathered f.toBody first i))
    (hApart : FloatsApart assignments constants (floatArguments f.toBody (callArguments f.toBody first i))) :
    ArgumentsIntact f assignments constants emitted b k := by
  rw [gathered_eq] at hPlaced
  refine ⟨_, by rw [pendingAt_eq hEmitted hAt, gathered_eq, callMoves_eq constants hPlaced], ?_⟩
  intro first' i' hPoint' state before j after hSplit
  obtain ⟨rfl, rfl⟩ := Prod.mk.inj (Option.some.inj (hAt.point.symm.trans hPoint'))
  rw [conventionPlace]
  by_cases hFloat : f.isF64Arg j = true
  case pos =>
    have hType : (f.instr j).typeId = .f64 := of_decide_eq_true hFloat
    have hGet : (floatArguments f.toBody (callArguments f.toBody first i))[(before.filter f.isF64Arg).length]? =
        some (f.instr j).arg := by
      rw [floatArguments, hSplit, getElem?_map, getElem?_filter hFloat]
      rfl
    obtain ⟨hLt, -⟩ := List.getElem?_eq_some_iff.mp hGet
    have hRegister := getElem?_eq_getElem (hLt.trans_le hPlaced.count)
    refine ⟨.register _, by rw [if_pos hFloat, hRegister]; rfl, ?_⟩
    rw [float_arrives hPlaced hApart hGet hRegister]
    rfl
  case neg =>
    have hRegular : (!f.isF64Arg j) = true := by rw [Bool.eq_false_iff.mpr hFloat]; rfl
    rw [if_neg hFloat]
    dsimp only
    generalize hNumber : (before.filter fun other => !f.isF64Arg other).length = number
    have hGet : (regularArguments f.toBody (callArguments f.toBody first i))[number]? =
        some ((f.instr j).arg, (f.instr j).typeId) := by
      rw [← hNumber, regularArguments, hSplit, getElem?_map,
        @getElem?_filter before after (fun j => !f.isF64Arg j) j hRegular]
      rfl
    refine ⟨regularPlace number, ?_, regular_arrives hPlaced hGet state⟩
    rw [regularPlace]
    cases normalArgReg[number]? with
    | some register => rfl
    | none => rfl

theorem ArgumentsIntact.floatsApart (h : ArgumentsIntact f assignments constants emitted b k)
    (hEmitted : ∀ c ∈ emitted, c < f.basicBlocks.length) (hAt : StandsAt f b k first i)
    (hPlaced : PendingPlaced assignments (gathered f.toBody first i)) :
    FloatsApart assignments constants (floatArguments f.toBody (callArguments f.toBody first i)) := by
  obtain ⟨moves, hMoves, hArrive⟩ := h
  rw [pendingAt_eq hEmitted hAt, callMoves_eq constants hPlaced] at hMoves
  obtain rfl := Except.ok.inj hMoves
  have hFloats : (gathered f.toBody first i).floatingPoint =
      floatArguments f.toBody (callArguments f.toBody first i) := by rw [gathered_eq]
  rw [← hFloats]
  apply floatsApart_of_arrive hPlaced
  intro m v r hV hR state
  rw [hFloats, floatArguments, getElem?_map, Option.map_eq_some_iff] at hV
  obtain ⟨j, hJ, rfl⟩ := hV
  obtain ⟨before, after, hSplit, rfl, hFloat⟩ := filter_getElem? hJ
  obtain ⟨place, hPlace, hSame⟩ := hArrive first i hAt.point state before j after hSplit
  rw [conventionPlace, if_pos hFloat, hR] at hPlace
  obtain rfl := Option.some.inj hPlace
  rw [show (f.instr j).typeId = .f64 from of_decide_eq_true hFloat] at hSame
  exact eq_of_sameLow hSame

variable {v : Value} {moves : List MachineMove} {a : Value × TypeKind}

theorem inClass_of_constant {valid : Nat → Bool} (h : v.isConstantGlobal = true) : InClass assignments valid v := by
  intro x hX
  rw [Value.instruction, if_pos h] at hX
  exact absurd hX not_mem_nil

variable {α : Type}

theorem gpOperand_bind {next : MachineSource → Except String α} {result : α}
    (h : (gpOperand assignments constants v >>= next) = .ok result) :
    InClass assignments GPRegister.isGPRegister v := by
  by_contra hNot
  rw [gpOperand, operandIn_of_not_inClass hNot] at h
  exact absurd h (by simp [bind, Except.bind])

theorem inClass_of_movePtrValue {dest : Location} (h : movePtrValue assignments constants dest v = .ok moves) :
    InClass assignments GPRegister.isGPRegister v := by
  rw [movePtrValue] at h
  split at h
  case isTrue hConstant => exact inClass_of_constant hConstant
  case isFalse => exact gpOperand_bind h

theorem inClass_of_passRegular {m : Nat} (h : passRegular assignments constants a m = .ok moves) :
    InClass assignments GPRegister.isGPRegister a.1 := by
  obtain ⟨v, type⟩ := a
  rw [passRegular] at h
  split at h <;>
    cases type with
    | i1 | i8 | i16 | i32 | i64 => exact gpOperand_bind h
    | pointer => exact inClass_of_movePtrValue h
    | _ => exact absurd h (by simp [passInRegister, passOnStack])

theorem mem_of_mapM_ok {β : Type} {g : α → Except String β} {items : List α} {results : List β}
    (h : items.mapM g = .ok results) {item : α} (hMem : item ∈ items) : ∃ result, g item = .ok result := by
  cases hItem : g item with
  | ok result => exact ⟨result, rfl⟩
  | error message =>
    obtain ⟨_, -, other, -, hError⟩ := mapM_error ⟨item, hMem, message, hItem⟩
    exact absurd (h.symm.trans hError) (by simp)

/-- A call whose moves are emitted reads no integer argument from the flags. -/
theorem inClass_of_callMoves {pending : PendingArgs} (h : callMoves assignments constants pending = .ok moves)
    (hMem : a ∈ pending.regular) : InClass assignments GPRegister.isGPRegister a.1 := by
  obtain ⟨floats, -, h⟩ := bind_ok h
  by_cases hCount : fpArgReg.length < pending.floatingPoint.length
  case pos => exact absurd ((if_pos hCount).symm.trans h) (by simp [bind, Except.bind, throw, throwThe, MonadExcept.throw])
  case neg =>
    obtain ⟨registers, hRegisters, h⟩ := bind_ok ((if_neg hCount).symm.trans h)
    obtain ⟨stack, hStack, -⟩ := bind_ok h
    obtain ⟨m, hLt, rfl⟩ := mem_iff_getElem.mp hMem
    have hPassed : ∃ result, passRegular assignments constants pending.regular[m] m = .ok result := by
      rw [passRegular]
      cases hR : normalArgReg[m]? with
      | some register =>
        have hZip := getElem?_zip_eq_some (z := (_, register)).mpr ⟨getElem?_eq_getElem hLt, hR⟩
        exact mem_of_mapM_ok hRegisters (mem_of_getElem? hZip)
      | none =>
        refine @mem_of_mapM_ok _ _ _ _ _ hStack (pending.regular[m], m - normalArgReg.length) ?_
        rw [mk_mem_zipIdx_iff_getElem?, getElem?_drop, Nat.add_sub_cancel' (getElem?_eq_none_iff.mp hR)]
        exact getElem?_eq_getElem hLt
    obtain ⟨result, hResult⟩ := hPassed
    exact inClass_of_passRegular hResult

theorem ArgumentsIntact.flagsFree (h : ArgumentsIntact f assignments constants emitted b k)
    (hEmitted : ∀ c ∈ emitted, c < f.basicBlocks.length) (hAt : StandsAt f b k first i) (hTyped : f.ArgumentsTyped)
    (hPlaced : PlacedForCall f assignments first i) : FlagsFree f assignments first i := by
  obtain ⟨moves, hMoves, -⟩ := h
  rw [pendingAt_eq hEmitted hAt, gathered_eq] at hMoves
  intro j hJ x hX r hHeld
  by_cases hFloat : (f.instr j).typeId = .f64
  case pos =>
    have hPool := hPlaced.float hTyped hJ hFloat hX hHeld
    exact ⟨fun hEq => absurd (hEq ▸ hPool) (by decide), fun hEq => absurd (hEq ▸ hPool) (by decide)⟩
  case neg =>
    have hMem : ((f.instr j).arg, (f.instr j).typeId) ∈
        regularArguments f.toBody (callArguments f.toBody first i) := by
      apply mem_map.mpr ⟨j, mem_filter.mpr ⟨hJ, ?_⟩, rfl⟩
      simpa [Body.isF64Arg] using hFloat
    have hRegister := inClass_of_callMoves hMoves hMem x hX r hHeld
    exact ⟨fun hEq => absurd (hEq ▸ hRegister) (by decide), fun hEq => absurd (hEq ▸ hRegister) (by decide)⟩

/-- Under every allocation the arguments of a call arrive exactly if no floating point argument is kept in the register
of an earlier one and none is kept in the flags. -/
theorem argumentsIntact_iff (f : Function) (hResolved : f.Resolved) (hTyped : f.ArgumentsTyped) {choices : Choices}
    {cost : Nat → Nat} {rounds : Nat} {assignments : Nat → Option Nat}
    (hAssigned : linearScanRegisterAlloc f choices cost rounds = .ok assignments) (constants : Constants)
    {emitted : List Nat} (hEmitted : ∀ c ∈ emitted, c < f.basicBlocks.length) {b : Nat}
    (hBlock : b < f.basicBlocks.length) {k first i : Nat} (hPoint : (f.block b).points[k]? = some (first, i))
    (hCall : (f.opcode i).isCall = true) (hConforms : Conforms f first i) :
    ArgumentsIntact f assignments constants emitted b k ↔
      FloatsApart assignments constants (floatArguments f.toBody (callArguments f.toBody first i)) ∧
        FlagsFree f assignments first i := by
  obtain ⟨hReadable, scanned, parameters, intervals, now, scan, rfl, hAllocated⟩ := allocated_of_assignments hAssigned
  have hAt : StandsAt f b k first i := ⟨hBlock, hPoint⟩
  have hPlaced := hAllocated.placedForCall hResolved hReadable hAt hCall
  constructor
  · intro hIntact
    have hFree := hIntact.flagsFree hEmitted hAt hTyped hPlaced
    exact ⟨hIntact.floatsApart hEmitted hAt (hPlaced.pending hTyped hConforms hFree), hFree⟩
  · rintro ⟨hApart, hFree⟩
    exact argumentsIntact_of hEmitted hAt (hPlaced.pending hTyped hConforms hFree) hApart

/-- Two integers and a floating point number arrive as parameters; they are passed on together with the sum of the
integers, which is passed a second time as the seventh argument that is not a floating point number. -/
def passSum : Function where
  instrs := [{ opcode := .funcArg, typeId := .i64 }, { opcode := .funcArg, typeId := .i64 },
    { opcode := .funcArg, typeId := .f64 }, { opcode := .i64Add, arg0 := ⟨0, false⟩, arg1 := ⟨1, false⟩ },
    { opcode := .callArg, arg := ⟨0, false⟩, typeId := .i64 }, { opcode := .callArg, arg := ⟨1, false⟩, typeId := .i64 },
    { opcode := .callArg, arg := ⟨3, false⟩, typeId := .i64 }, { opcode := .callArg, arg := ⟨0, true⟩, typeId := .i64 },
    { opcode := .callArg, arg := ⟨0, true⟩, typeId := .i64 }, { opcode := .callArg, arg := ⟨0, true⟩, typeId := .i64 },
    { opcode := .callArg, arg := ⟨3, false⟩, typeId := .i64 }, { opcode := .callArg, arg := ⟨2, false⟩, typeId := .f64 },
    { opcode := .call }, { opcode := .ret }]
  basicBlocks := [⟨[(0, 13)], [], []⟩]
  wellFormed := by decide

/-- The allocator is run: what it returns for the first values. -/
theorem exists_assignments {f : Function} {rounds count : Nat} {first : List (Option Nat)}
    (hRun : (linearScanRegisterAlloc f Choices.standard (fun _ => 0) rounds).toOption.map
      (fun assignments => (List.range count).map assignments) = some first) : ∃ assignments,
    linearScanRegisterAlloc f Choices.standard (fun _ => 0) rounds = .ok assignments ∧
      (List.range count).map assignments = first := by
  obtain ⟨assignments, hSome, hFirst⟩ := Option.map_eq_some_iff.mp hRun
  refine ⟨assignments, ?_, hFirst⟩
  cases hResult : linearScanRegisterAlloc f Choices.standard (fun _ => 0) rounds with
  | ok result =>
    rw [hResult] at hSome
    rw [Option.some.inj hSome]
  | error message =>
    rw [hResult] at hSome
    exact absurd hSome (by simp [Except.toOption])

theorem assignments_of_map {assignments : Nat → Option Nat} {count v : Nat} {first : List (Option Nat)}
    (h : (List.range count).map assignments = first) (hLt : v < count) : some (assignments v) = first[v]? := by
  rw [← h, getElem?_map, getElem?_range hLt, Option.map_some]

set_option maxRecDepth 10000 in
/-- The parameters are kept in registers and the sum is spilled; all of them arrive. -/
theorem passSum_argumentsIntact : ∃ assignments,
    linearScanRegisterAlloc passSum Choices.standard (fun _ => 0) 5 = .ok assignments ∧ assignments 0 = some 1 ∧
      assignments 1 = some 2 ∧ assignments 2 = some (VRegister.m 1) ∧ assignments 3 = none ∧
        ∀ constants, ArgumentsIntact passSum assignments constants [] 0 12 := by
  obtain ⟨assignments, hAssigned, hFirst⟩ := @exists_assignments passSum 5 4 [some 1, some 2, some 51, none]
    (by decide +kernel)
  have h0 : assignments 0 = some 1 := Option.some.inj (assignments_of_map hFirst (by decide))
  have h1 : assignments 1 = some 2 := Option.some.inj (assignments_of_map hFirst (by decide))
  have h2 : assignments 2 = some 51 := Option.some.inj (assignments_of_map hFirst (by decide))
  have h3 : assignments 3 = none := Option.some.inj (assignments_of_map hFirst (by decide))
  refine ⟨assignments, hAssigned, h0, h1, h2, h3, fun constants => ?_⟩
  apply (argumentsIntact_iff passSum (by decide) (by decide) hAssigned constants (by simp) (by decide)
    (show (passSum.block 0).points[12]? = some (0, 12) by decide) (by decide) ⟨by decide, by decide⟩).mpr
  have hFloats : floatArguments passSum.toBody (callArguments passSum.toBody 0 12) = [⟨2, false⟩] := by decide
  have hArguments : ∀ j ∈ callArguments passSum.toBody 0 12, ∀ x ∈ (passSum.instr j).arg.instruction, x < 4 := by
    decide
  constructor
  · intro m n v w r hLt hV hW
    rw [hFloats] at hW
    obtain ⟨hN, -⟩ := List.getElem?_eq_some_iff.mp hW
    exact absurd hN (by simp; omega)
  · intro j hJ x hX r hHeld
    have hRegister : ∀ x < 4, ∀ r ∈ [some 1, some 2, some 51, none].getD x none,
        r ≠ FRegister.iFlag ∧ r ≠ FRegister.fFlag := by decide
    apply hRegister x (hArguments j hJ x hX)
    rw [getD_eq_getElem?_getD, ← assignments_of_map hFirst (hArguments j hJ x hX), Option.getD_some, hHeld]
    rfl

/-- Two floating point parameters are passed on in the same order. -/
def twoFloats : Function where
  instrs := [{ opcode := .funcArg, typeId := .f64 }, { opcode := .funcArg, typeId := .f64 },
    { opcode := .callArg, arg := ⟨0, false⟩, typeId := .f64 }, { opcode := .callArg, arg := ⟨1, false⟩, typeId := .f64 },
    { opcode := .call }, { opcode := .ret }]
  basicBlocks := [⟨[(0, 5)], [], []⟩]
  wellFormed := by decide

set_option maxRecDepth 10000 in
/-- The second parameter is kept in the register where the first one has to be passed. -/
theorem twoFloats_not_intact : ∃ assignments,
    linearScanRegisterAlloc twoFloats Choices.standard (fun _ => 0) 5 = .ok assignments ∧
      ∀ constants, ¬ ArgumentsIntact twoFloats assignments constants [] 0 4 := by
  obtain ⟨assignments, hAssigned, hBoth⟩ := @exists_assignments twoFloats 5 2 [none, some 50] (by decide +kernel)
  have hFirst : assignments 0 = none := Option.some.inj (assignments_of_map hBoth (by decide))
  have hSecond : assignments 1 = some (VRegister.m 0) := Option.some.inj (assignments_of_map hBoth (by decide))
  refine ⟨assignments, hAssigned, fun constants hIntact => ?_⟩
  have hPending : gathered twoFloats.toBody 0 4 = ⟨[⟨0, false⟩, ⟨1, false⟩], []⟩ := by decide
  have hFloats : floatArguments twoFloats.toBody (callArguments twoFloats.toBody 0 4) = [⟨0, false⟩, ⟨1, false⟩] := by
    decide
  have hPlaced : PendingPlaced assignments (gathered twoFloats.toBody 0 4) := by
    rw [hPending]
    refine ⟨?_, by simp, by simp, by decide, by simp⟩
    intro v hV x hX r hHeld
    rcases mem_pair.mp hV with rfl | rfl
    · obtain rfl := mem_singleton.mp hX
      exact absurd (hFirst.symm.trans hHeld) (by simp)
    · obtain rfl := mem_singleton.mp hX
      obtain rfl := Option.some.inj (hSecond.symm.trans hHeld)
      decide
  have hAt : StandsAt twoFloats 0 4 0 4 := ⟨by decide, by decide⟩
  have hApart := hIntact.floatsApart (by simp) hAt hPlaced
  rw [hFloats] at hApart
  have hHome := hApart 0 1 ⟨0, false⟩ ⟨1, false⟩ (VRegister.m 0) (by decide) rfl rfl (by decide)
    (by simp [operandSource, home, hSecond])
  exact absurd hHome (by simp [operandSource, home, hFirst])

end Intact

end KushDB.Khir
