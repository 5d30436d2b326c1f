import KushDB.Khir.PendingArguments
import KushDB.Khir.AllocationSafety

/-! # What the emitter reads

The emitter looks up the locations of operands on its own, opcode by opcode. An address that was computed by pointer
arithmetic is always recomputed from its base and its index, whether or not the pointer has a location of its own, and
the arguments of a call are read where the call stands.
-/

namespace KushDB.Khir

open Fallible Liveness List

/-- How the emitter reads the operands of an opcode. -/
inductive EmitForm
  | operands | lshift | rshift | eqAnyVec4 | eqAnyVec8 | operand | load | ptrLoad | store | maskStore | gep | ptrCast
  | condbr | phiMember | returnValue | call | callIndirect | nothing

def Opcode.emitForm : Opcode → EmitForm
  | .i1And | .i1Or | .i1CmpEq | .i1CmpNe | .i8Add | .i8Sub | .i8Mul | .i8CmpEq | .i8CmpNe | .i8CmpLt | .i8CmpLe
  | .i8CmpGt | .i8CmpGe | .i16Add | .i16Sub | .i16Mul | .i16CmpEq | .i16CmpNe | .i16CmpLt | .i16CmpLe | .i16CmpGt
  | .i16CmpGe | .i32Add | .i32Sub | .i32Mul | .i32CmpEq | .i32CmpNe | .i32CmpLt | .i32CmpLe | .i32CmpGt | .i32CmpGe
  | .i32Vec8CmpEq | .i32Vec8CmpNe | .i32Vec8CmpLt | .i32Vec8CmpLe | .i32Vec8CmpGt | .i32Vec8CmpGe | .i32Vec8Add
  | .i32Vec8Permute | .i1Vec8And | .i1Vec8Or | .i64Add | .i64Sub | .i64And | .i64Xor | .i64Or | .i64Mul | .i64CmpEq
  | .i64CmpNe | .i64CmpLt | .i64CmpLe | .i64CmpGt | .i64CmpGe | .f64Add | .f64Sub | .f64Mul | .f64Div | .f64CmpEq
  | .f64CmpNe | .f64CmpLt | .f64CmpLe | .f64CmpGt | .f64CmpGe => .operands
  | .i64Lshift => .lshift
  | .i64Rshift => .rshift
  | .i32CmpEqAnyConstVec4 => .eqAnyVec4
  | .i32CmpEqAnyConstVec8 => .eqAnyVec8
  | .i1ZextI8 | .i1Lnot | .i1ZextI64 | .i8ZextI64 | .i8ConvF64 | .i16ZextI64 | .i16ConvF64 | .maskToPermute
  | .i1Vec8MaskExtract | .i32ConvI32Vec8 | .i64Popcount | .i1Vec8Not | .i32ZextI64 | .i32ConvF64 | .ptrCmpNullptr
  | .i64TruncI16 | .i64TruncI32 | .i64ConvF64 | .f64ConvI64 => .operand
  | .i1Load | .i8Load | .i16Load | .i32Load | .i32Vec8Load | .i64Load | .f64Load => .load
  | .ptrLoad => .ptrLoad
  | .i8Store | .i16Store | .i32Store | .i64Store | .ptrStore | .f64Store => .store
  | .i32Vec8MaskStore => .maskStore
  | .gepDynamic | .gepStatic => .gep
  | .ptrCast => .ptrCast
  | .condbr => .condbr
  | .phiMember => .phiMember
  | .returnValue => .returnValue
  | .call => .call
  | .callIndirect => .callIndirect
  | .callArg | .gepDynamicOffset | .gepStaticOffset | .i32Vec8MaskStoreInfo | .br | .phi | .ret | .funcArg => .nothing

section Reads

variable (body : Body) (materialize : Nat → Bool)

/-- The pointer of a `GEP_STATIC`. -/
def staticGEP (v : Nat) : Except String Value :=
  let offset := body.instr (v - 1)
  if offset.opcode ≠ .gepStaticOffset then .error "Invalid GEP_STATIC_OFFSET" else .ok offset.arg0

/-- The pointer and the index of a `GEP_DYNAMIC`. -/
def dynamicGEP (v : Nat) : Except String (Value × Value) :=
  let offset := body.instr (v - 1)
  if offset.opcode ≠ .gepDynamicOffset then .error "Invalid GEP_DYNAMIC_OFFSET"
  else .ok ((body.instr v).arg, offset.arg0)

/-- The locations an address is computed from; the index is looked up even if it is a constant. -/
def ptrValueReads (v : Value) : Except String (List Nat) :=
  if v.isConstantGlobal then .ok []
  else match body.opcode v.idx with
    | .gepDynamic => do
      let (ptr, index) ← dynamicGEP body v.idx
      return index.idx :: ptr.instruction
    | .gepStatic => do
      let ptr ← staticGEP body v.idx
      return ptr.instruction
    | _ => .ok v.instruction

def PendingArgs.reads (pending : PendingArgs) : List Nat :=
  (pending.floatingPoint ++ pending.regular.map Prod.fst).flatMap Value.instruction

/-- The values whose locations are read while an instruction is emitted. -/
def emittedReads (pending : PendingArgs) (i : Nat) : Except String (List Nat) :=
  let instr := body.instr i
  match instr.opcode.emitForm with
  | .operands => .ok (instr.arg0.instruction ++ instr.arg1.instruction)
  | .lshift =>
    if instr.arg1.isConstantGlobal then .ok instr.arg0.instruction else .error "Invalid LShift - must be constant"
  | .rshift =>
    if instr.arg1.isConstantGlobal then .ok instr.arg0.instruction else .error "Invalid RShift - must be constant"
  -- the compared operand is not asked whether it is a constant
  | .eqAnyVec4 => .ok [instr.arg0.idx]
  | .eqAnyVec8 => if instr.arg1.isConstantGlobal then .ok [instr.arg0.idx] else .error "needs to be vec8 constant"
  | .operand => .ok instr.arg0.instruction
  | .load => ptrValueReads body instr.arg0
  | .ptrLoad => ptrValueReads body instr.arg
  | .store => do
    let pointer ← ptrValueReads body instr.arg0
    return pointer ++ instr.arg1.instruction
  | .maskStore => do
    let pointer ← ptrValueReads body instr.arg0
    return (body.instr (i - 1)).arg0.instruction ++ instr.arg1.instruction ++ pointer
  | .gep => if materialize i then ptrValueReads body ⟨i, false⟩ else .ok []
  | .ptrCast => if instr.arg.isConstantGlobal then .error "Expected non-const PTR" else .ok instr.arg.instruction
  | .condbr => .ok instr.arg.instruction
  | .phiMember => .ok instr.arg1.instruction
  | .returnValue => .ok instr.arg.instruction
  | .call => .ok pending.reads
  | .callIndirect => .ok (pending.reads ++ instr.arg.instruction)
  | .nothing => .ok []

end Reads

/-- What the program builder sees to when it hands out values: operands are instructions of the function. -/
def Body.Resolved (body : Body) : Prop :=
  ∀ i < body.instrs.length, ∀ v ∈ (body.instr i).operands, v.isConstantGlobal = false → v.idx < body.instrs.length

instance decidableResolved (body : Body) : Decidable body.Resolved :=
  inferInstanceAs (Decidable (∀ i < body.instrs.length, ∀ v ∈ (body.instr i).operands, v.isConstantGlobal = false →
    v.idx < body.instrs.length))

/-- The operand through which a load or a store accesses memory. -/
def Body.accessed (body : Body) (i : Nat) : Option Value :=
  match (body.opcode i).emitForm with
  | .load | .store | .maskStore => some (body.instr i).arg0
  | .ptrLoad => some (body.instr i).arg
  | _ => none

/-- The instruction looks up its first operand without asking whether it is a constant. -/
def Body.looksUp (body : Body) (i : Nat) : Bool :=
  match (body.opcode i).emitForm with
  | .eqAnyVec4 => true
  | .eqAnyVec8 => (body.instr i).arg1.isConstantGlobal
  | _ => false

/-- The address that is computed while the instruction is emitted: that of its access, or its own one. -/
def Body.addressed (body : Body) (materialize : Nat → Bool) (i : Nat) : Option Value :=
  if (body.opcode i).isGep && materialize i then some ⟨i, false⟩ else body.accessed i

/-- The constant a pointer computation has for its index. The program builder makes a static one of a constant index,
but a phi that is replaced by its only member may leave a constant in a dynamic one. -/
def Body.constantIndex (body : Body) (v : Value) : Option Nat :=
  let index := (body.instr (v.idx - 1)).arg0
  if body.isGep v && body.opcode v.idx = .gepDynamic && index.isConstantGlobal then some index.idx else none

section Listed

variable {f : Function}

theorem readForm_of_emitForm (opcode : Opcode) :
    match opcode.emitForm with
    | .operands | .lshift | .rshift | .eqAnyVec4 | .eqAnyVec8 => opcode.readForm = .operands
    | .operand => opcode.readForm = .operand ∨ opcode.readForm = .ptrCmpNullptr
    | .load => opcode.readForm = .load
    | .ptrLoad => opcode.readForm = .ptrLoad
    | .store => opcode.readForm = .store
    | .maskStore => opcode.readForm = .maskStore
    | .gep => opcode.readForm = .gep
    | .ptrCast => opcode.readForm = .ptrCast
    | .condbr => opcode.readForm = .condbr
    | .phiMember => opcode.readForm = .phiMember
    | .returnValue => opcode.readForm = .passed
    | .call => opcode.readForm = .call ∧ opcode.isCall = true
    | .callIndirect => opcode.readForm = .callIndirect ∧ opcode.isCall = true
    | .nothing => True := by
  cases opcode <;> simp [Opcode.emitForm, Opcode.readForm, Opcode.isCall]

variable {v : Value} {x first i : Nat} {reads listed : List Nat} {pending : PendingArgs}

theorem isGep_iff : f.isGep v = true ↔
    v.isConstantGlobal = false ∧ (f.opcode v.idx = .gepDynamic ∨ f.opcode v.idx = .gepStatic) := by
  rw [Body.isGep, Bool.and_eq_true, Bool.not_eq_true']
  refine and_congr_right fun _ => ?_
  cases f.opcode v.idx <;> simp [Opcode.isGep]

variable {ptr : Value}

theorem mem_dynamicGEP {index : Value} (hVariable : v.isConstantGlobal = false) (hGep : f.opcode v.idx = .gepDynamic)
    (hInfo : dynamicGEP f.toBody v.idx = .ok (ptr, index)) (hMem : x ∈ index.idx :: ptr.instruction) :
    (∃ reads, getReadValuesGEP f.toBody v.idx = .ok reads ∧ x ∈ reads) ∨ f.constantIndex v = some x := by
  rw [dynamicGEP] at hInfo
  split at hInfo
  · exact absurd hInfo (by simp)
  case isFalse hOffset =>
    obtain ⟨rfl, rfl⟩ := Prod.mk.inj (Except.ok.inj hInfo)
    have hListed : getReadValuesGEP f.toBody v.idx = .ok ((f.instr v.idx).arg.instruction ++
        (f.instr (v.idx - 1)).arg0.instruction ++ (f.instr (v.idx - 1)).arg1.instruction) := by
      rw [getReadValuesGEP, hGep]
      exact if_neg hOffset
    rcases mem_cons.mp hMem with rfl | hPtr
    · cases hIndex : (f.instr (v.idx - 1)).arg0.isConstantGlobal with
      | true =>
        refine Or.inr (if_pos ?_)
        rw [isGep_iff.mpr ⟨hVariable, Or.inl hGep⟩, hGep, hIndex]
        rfl
      | false =>
        refine Or.inl ⟨_, hListed, mem_append_left _ (mem_append_right _ ?_)⟩
        rw [Value.instruction, hIndex]
        exact mem_cons_self
    · exact Or.inl ⟨_, hListed, mem_append_left _ (mem_append_left _ hPtr)⟩

theorem mem_staticGEP {v : Nat} (hGep : f.opcode v = .gepStatic) (hInfo : staticGEP f.toBody v = .ok ptr)
    (hMem : x ∈ ptr.instruction) : ∃ reads, getReadValuesGEP f.toBody v = .ok reads ∧ x ∈ reads := by
  rw [staticGEP] at hInfo
  split at hInfo
  · exact absurd hInfo (by simp)
  case isFalse hOffset =>
    obtain rfl := Except.ok.inj hInfo
    exact ⟨_, by rw [getReadValuesGEP, hGep]; exact if_neg hOffset, hMem⟩

/-- An address is computed from the operands of its pointer computation and the number of a constant index, or it is
read itself. -/
theorem mem_ptrValueReads (hReads : ptrValueReads f.toBody v = .ok reads) (hMem : x ∈ reads) :
    (f.isGep v = true ∧ ∃ listed, getReadValuesGEP f.toBody v.idx = .ok listed ∧ x ∈ listed) ∨
      f.constantIndex v = some x ∨ f.isGep v = false ∧ x ∈ v.instruction := by
  rw [ptrValueReads] at hReads
  split at hReads
  · exact absurd hMem (Except.ok.inj hReads ▸ not_mem_nil)
  case isFalse hVariable =>
    have hVariable' := Bool.eq_false_iff.mpr hVariable
    split at hReads
    case h_1 hGep =>
      obtain ⟨⟨ptr, index⟩, hInfo, hRest⟩ := bind_ok hReads
      obtain rfl := Except.ok.inj hRest
      exact (mem_dynamicGEP hVariable' hGep hInfo hMem).imp (And.intro (isGep_iff.mpr ⟨hVariable', Or.inl hGep⟩))
        Or.inl
    case h_2 hGep =>
      obtain ⟨ptr, hInfo, hRest⟩ := bind_ok hReads
      obtain rfl := Except.ok.inj hRest
      exact Or.inl ⟨isGep_iff.mpr ⟨hVariable', Or.inr hGep⟩, mem_staticGEP hGep hInfo hMem⟩
    case h_3 hDynamic hStatic =>
      obtain rfl := Except.ok.inj hReads
      refine Or.inr (Or.inr ⟨Bool.eq_false_iff.mpr fun hGep => ?_, hMem⟩)
      rcases (isGep_iff.mp hGep).2 with hOpcode | hOpcode
      · exact hDynamic hOpcode
      · exact hStatic hOpcode

/-- What an access reads is listed for it, unless its address has a location of its own or a constant for its index. -/
theorem address_listed (hReads : ptrValueReads f.toBody v = .ok reads) (hMem : x ∈ reads)
    (hListed : address f.toBody f.computeGEPMaterialize v = .ok listed) :
    x ∈ listed ∨ (f.isGep v = true ∧ f.computeGEPMaterialize v.idx = true) ∨ f.constantIndex v = some x := by
  rw [address] at hListed
  rcases mem_ptrValueReads hReads hMem with ⟨hGep, other, hOther, hIn⟩ | hIndex | ⟨hGep, hIn⟩
  · cases hOwn : f.computeGEPMaterialize v.idx with
    | true => exact Or.inr (Or.inl ⟨hGep, rfl⟩)
    | false =>
      rw [hGep, hOwn] at hListed
      exact Or.inl (Except.ok.inj (hOther.symm.trans hListed) ▸ hIn)
  · exact Or.inr (Or.inr hIndex)
  · rw [hGep] at hListed
    exact Or.inl (Except.ok.inj hListed ▸ hIn)

theorem mem_reads_pendingStep {j : Nat} (hArg : f.opcode j = .callArg) :
    x ∈ (pendingStep f.toBody pending j).reads ↔ x ∈ pending.reads ∨ x ∈ (f.instr j).arg.instruction := by
  rw [pendingStep, hArg]
  dsimp only
  split
  · simp only [PendingArgs.reads, flatMap_append, mem_append, flatMap_cons, flatMap_nil,
      append_nil]
    tauto
  · simp only [PendingArgs.reads, map_append, flatMap_append, mem_append, map_cons, map_nil,
      flatMap_cons, flatMap_nil, append_nil, or_assoc]

theorem mem_reads_foldl (args : List Nat) (hArgs : ∀ j ∈ args, f.opcode j = .callArg) (pending : PendingArgs) :
    x ∈ (args.foldl (pendingStep f.toBody) pending).reads ↔
      x ∈ pending.reads ∨ ∃ j ∈ args, x ∈ (f.instr j).arg.instruction := by
  induction args generalizing pending with
  | nil => simp
  | cons j rest ih =>
    rw [foldl_cons, ih (fun i hMem => hArgs i (mem_cons_of_mem j hMem)),
      mem_reads_pendingStep (hArgs j mem_cons_self), or_assoc, exists_mem_cons_iff]

theorem mem_reads_gathered : x ∈ (gathered f.toBody first i).reads ↔
    ∃ j ∈ callArgsBefore f.toBody first i, x ∈ (f.instr j).arg.instruction := by
  rw [gathered, mem_reads_foldl]
  · simp [PendingArgs.reads]
  · intro j hMem
    obtain ⟨-, hLt, hArgs⟩ := mem_callArgsBefore.mp (mem_reverse.mp hMem)
    exact hArgs j le_rfl hLt

/-- A value the emitter reads that is not listed for the instruction is an argument of its call, part of an address
that has a location of its own, or the number of a constant. -/
inductive StrayRead (f : Function) (first i x : Nat) : Prop
  | argument (hCall : (f.opcode i).isCall = true) (hMem : x ∈ (gathered f.toBody first i).reads)
  | access {v : Value} {reads : List Nat} (hAccess : f.accessed i = some v) (hGep : f.isGep v = true)
      (hOwn : f.computeGEPMaterialize v.idx = true) (hReads : ptrValueReads f.toBody v = .ok reads) (hMem : x ∈ reads)
  | constant (hLooksUp : f.looksUp i = true) (hConstant : (f.instr i).arg0.isConstantGlobal = true)
      (hIdx : x = (f.instr i).arg0.idx)
  | index {v : Value} {reads : List Nat} (hAddress : f.addressed f.computeGEPMaterialize i = some v)
      (hIndex : f.constantIndex v = some x) (hReads : ptrValueReads f.toBody v = .ok reads) (hMem : x ∈ reads)

theorem addressed_of_accessed (materialize : Nat → Bool) (hAccess : f.accessed i = some v) :
    f.addressed materialize i = some v := by
  have hGep : (f.opcode i).isGep = false := by
    revert hAccess
    rw [Body.accessed]
    cases f.opcode i <;> simp [Opcode.emitForm, Opcode.isGep]
  rw [Body.addressed, hGep]
  exact hAccess

theorem access_listed (hAccess : f.accessed i = some v) (hReads : ptrValueReads f.toBody v = .ok reads)
    (hMem : x ∈ reads) (hListed : address f.toBody f.computeGEPMaterialize v = .ok listed) :
    x ∈ listed ∨ StrayRead f first i x := by
  refine (address_listed hReads hMem hListed).imp_right ?_
  rintro (⟨hGep, hOwn⟩ | hIndex)
  · exact StrayRead.access hAccess hGep hOwn hReads hMem
  · exact StrayRead.index (addressed_of_accessed _ hAccess) hIndex hReads hMem

theorem lookup_listed (hLooksUp : f.looksUp i = true)
    (hListed : Except.ok ((f.instr i).arg0.instruction ++ (f.instr i).arg1.instruction) =
      (Except.ok listed : Except String (List Nat))) (hIdx : x = (f.instr i).arg0.idx) :
    x ∈ listed ∨ StrayRead f first i x := by
  cases hConstant : (f.instr i).arg0.isConstantGlobal with
  | true => exact Or.inr (StrayRead.constant hLooksUp hConstant hIdx)
  | false =>
    refine Or.inl (Except.ok.inj hListed ▸ mem_append_left _ ?_)
    rw [Value.instruction, hConstant, hIdx]
    exact mem_cons_self

theorem emitted_listed (hListed : readsAt f (first, i) = .ok listed)
    (hReads : emittedReads f.toBody f.computeGEPMaterialize (gathered f.toBody first i) i = .ok reads)
    (hMem : x ∈ reads) : x ∈ listed ∨ StrayRead f first i x := by
  have hForm := readForm_of_emitForm (f.instr i).opcode
  rw [readsAt, getReadValues] at hListed
  rw [emittedReads] at hReads
  dsimp only at hListed hReads
  cases hEmit : (f.instr i).opcode.emitForm <;> rw [hEmit] at hForm hReads
  case operands | condbr =>
    rw [hForm] at hListed
    exact Or.inl (Except.ok.inj hListed ▸ Except.ok.inj hReads ▸ hMem)
  case lshift | rshift =>
    rw [hForm] at hListed
    dsimp only at hReads
    split at hReads
    · obtain rfl := Except.ok.inj hReads
      exact Or.inl (Except.ok.inj hListed ▸ mem_append_left _ hMem)
    · exact absurd hReads (by simp)
  case eqAnyVec4 =>
    rw [hForm] at hListed
    obtain rfl := Except.ok.inj hReads
    exact lookup_listed (by rw [Body.looksUp, Body.opcode, hEmit]) hListed (mem_singleton.mp hMem)
  case eqAnyVec8 =>
    rw [hForm] at hListed
    dsimp only at hReads
    split at hReads
    case isTrue hConstants =>
      obtain rfl := Except.ok.inj hReads
      exact lookup_listed (by rw [Body.looksUp, Body.opcode, hEmit]; exact hConstants) hListed
        (mem_singleton.mp hMem)
    case isFalse => exact absurd hReads (by simp)
  case operand =>
    obtain rfl := Except.ok.inj hReads
    rcases hForm with hForm | hForm <;> rw [hForm] at hListed
    · exact Or.inl (Except.ok.inj hListed ▸ hMem)
    · exact Or.inl (materialized_ok hListed ▸ hMem)
  case load | ptrLoad =>
    rw [hForm] at hListed
    exact access_listed (by rw [Body.accessed, Body.opcode, hEmit]) hReads hMem hListed
  case store | maskStore =>
    rw [hForm] at hListed
    obtain ⟨pointer, hPointer, hRest⟩ := bind_ok hReads
    obtain rfl := Except.ok.inj hRest
    obtain ⟨pointer', hPointer', hRest⟩ := bind_ok hListed
    obtain ⟨stored, hStored, hRest⟩ := bind_ok hRest
    obtain rfl := Except.ok.inj hRest
    obtain rfl := materialized_ok hStored
    have hAccess := fun hMem => @access_listed f _ x first i _ _ (by rw [Body.accessed, Body.opcode, hEmit]) hPointer hMem
      hPointer'
    simp only [mem_append] at hMem ⊢
    tauto
  case gep =>
    rw [hForm] at hListed
    dsimp only at hReads hListed
    split at hReads
    case isTrue hOwn =>
      rw [if_pos hOwn] at hListed
      have hIsGep : (f.opcode i).isGep = true := by
        revert hEmit
        rw [Body.opcode]
        cases (f.instr i).opcode <;> simp [Opcode.emitForm, Opcode.isGep]
      rcases mem_ptrValueReads hReads hMem with ⟨-, other, hOther, hIn⟩ | hIndex | ⟨hGep, -⟩
      · exact Or.inl (Except.ok.inj (hOther.symm.trans hListed) ▸ hIn)
      · refine Or.inr (StrayRead.index ?_ hIndex hReads hMem)
        rw [Body.addressed, hIsGep, hOwn]
        rfl
      · rw [Body.isGep, hIsGep] at hGep
        exact absurd hGep (by simp)
    case isFalse => exact absurd hMem (Except.ok.inj hReads ▸ not_mem_nil)
  case ptrCast =>
    rw [hForm] at hListed
    dsimp only at hReads
    split at hReads
    · exact absurd hReads (by simp)
    · obtain rfl := Except.ok.inj hReads
      exact Or.inl (materialized_ok hListed ▸ hMem)
  case phiMember | returnValue =>
    rw [hForm] at hListed
    obtain rfl := Except.ok.inj hReads
    exact Or.inl (materialized_ok hListed ▸ hMem)
  case call => exact Or.inr (StrayRead.argument hForm.2 (Except.ok.inj hReads ▸ hMem))
  case callIndirect =>
    rw [hForm.1] at hListed
    obtain rfl := Except.ok.inj hReads
    obtain ⟨pointer, hPointer, hRest⟩ := bind_ok hListed
    obtain rfl := Except.ok.inj hRest
    rcases mem_append.mp hMem with hMem | hMem
    · exact Or.inr (StrayRead.argument hForm.2 hMem)
    · exact Or.inl (mem_append_left _ (materialized_ok hPointer ▸ hMem))
  case nothing => exact absurd hMem (Except.ok.inj hReads ▸ not_mem_nil)

/-- Where the emitter of an access reads the address. -/
theorem exists_emittedReads_of_accessed (pending : PendingArgs) (hAccess : f.accessed i = some v)
    (hReads : ptrValueReads f.toBody v = .ok reads) : ∃ all,
      emittedReads f.toBody f.computeGEPMaterialize pending i = .ok all ∧ ∀ x ∈ reads, x ∈ all := by
  rw [Body.accessed, Body.opcode] at hAccess
  rw [emittedReads]
  split at hAccess
  case h_1 hForm | h_4 hForm =>
    obtain rfl := Option.some.inj hAccess
    exact ⟨reads, by rw [hForm]; exact hReads, fun x hMem => hMem⟩
  case h_2 hForm =>
    obtain rfl := Option.some.inj hAccess
    refine ⟨_, by rw [hForm]; dsimp only; rw [hReads]; rfl, fun x hMem => mem_append_left _ hMem⟩
  case h_3 hForm =>
    obtain rfl := Option.some.inj hAccess
    refine ⟨_, by rw [hForm]; dsimp only; rw [hReads]; rfl, fun x hMem => mem_append_right _ hMem⟩
  case h_5 => exact absurd hAccess (by simp)

/-- Where the emitter computes an address it reads it. -/
theorem exists_emittedReads_of_addressed (pending : PendingArgs)
    (hAddress : f.addressed f.computeGEPMaterialize i = some v) (hReads : ptrValueReads f.toBody v = .ok reads) :
    ∃ all, emittedReads f.toBody f.computeGEPMaterialize pending i = .ok all ∧ ∀ x ∈ reads, x ∈ all := by
  rw [Body.addressed] at hAddress
  split at hAddress
  case isFalse => exact exists_emittedReads_of_accessed pending hAddress hReads
  case isTrue hOwn =>
    obtain ⟨hGep, hOwn⟩ := Bool.and_eq_true_iff.mp hOwn
    obtain rfl := Option.some.inj hAddress
    have hForm : (f.instr i).opcode.emitForm = .gep := by
      revert hGep
      rw [Body.opcode]
      cases (f.instr i).opcode <;> simp [Opcode.emitForm, Opcode.isGep]
    refine ⟨reads, ?_, fun x hMem => hMem⟩
    rw [emittedReads, hForm]
    dsimp only
    rw [if_pos hOwn]
    exact hReads

theorem emittedReads_of_looksUp (hLooksUp : f.looksUp i = true) :
    emittedReads f.toBody f.computeGEPMaterialize pending i = .ok [(f.instr i).arg0.idx] := by
  rw [Body.looksUp, Body.opcode] at hLooksUp
  rw [emittedReads]
  split at hLooksUp
  case h_1 hForm => rw [hForm]
  case h_2 hForm =>
    rw [hForm]
    exact if_pos hLooksUp
  case h_3 => exact absurd hLooksUp (by simp)

/-- A call reads what is put aside, and the pointer if it is an indirect one. -/
theorem exists_emittedReads_of_call (pending : PendingArgs) (hCall : (f.opcode i).isCall = true) : ∃ all,
    emittedReads f.toBody f.computeGEPMaterialize pending i = .ok all ∧ (∀ x ∈ pending.reads, x ∈ all) ∧
      ∀ x ∈ all, x ∈ pending.reads ∨ IsOperand f x := by
  rw [emittedReads]
  rcases isCall_iff.mp hCall with hOpcode | hOpcode
  · refine ⟨pending.reads, ?_, fun x hMem => hMem, fun x hMem => Or.inl hMem⟩
    rw [show (f.instr i).opcode = .call from hOpcode]
    rfl
  · refine ⟨pending.reads ++ (f.instr i).arg.instruction, ?_, fun x hMem => mem_append_left _ hMem, ?_⟩
    · rw [show (f.instr i).opcode = .callIndirect from hOpcode]
      rfl
    · intro x hMem
      have hOperands : (f.instr i).operands = [(f.instr i).arg] := by
        rw [Instr.operands, show (f.instr i).opcode = .callIndirect from hOpcode]
      exact (mem_append.mp hMem).imp_right (isOperand_of_mem (hOperands ▸ mem_cons_self))

theorem emittedReads_of_callArg (hArg : f.opcode i = .callArg) :
    emittedReads f.toBody f.computeGEPMaterialize pending i = .ok [] := by
  rw [emittedReads]
  rw [show (f.instr i).opcode = .callArg from hArg]
  rfl

theorem isOperand_of_gathered (hMem : x ∈ (gathered f.toBody first i).reads) : IsOperand f x := by
  obtain ⟨j, hBefore, hIn⟩ := mem_reads_gathered.mp hMem
  obtain ⟨-, hLt, hArgs⟩ := mem_callArgsBefore.mp hBefore
  have hOperands : (f.instr j).operands = [(f.instr j).arg] := by
    rw [Instr.operands, show (f.instr j).opcode = .callArg from hArgs j le_rfl hLt]
  exact isOperand_of_mem (hOperands ▸ mem_cons_self) hIn

end Listed

end KushDB.Khir
