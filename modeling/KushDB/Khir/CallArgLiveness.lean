import Mathlib.Data.List.GetD
import KushDB.Khir.Placement
import KushDB.Khir.LivePrecise

/-! # Where the arguments of a call are live

Stores are never read, and an argument of a call is read by its call only. So the liveness of a store touches nothing,
and that of an argument touches the positions from the argument up to its call.
-/

namespace KushDB.Khir

open Fallible Liveness List

section Reads

variable {f : Function}

/-- The operands of an instruction, by how it reads. -/
theorem Instr.operands_of_readForm (instr : Instr) :
    match instr.opcode.readForm with
    | .operands | .phiMember | .store | .maskStore => instr.operands = [instr.arg0, instr.arg1]
    | .operand | .ptrCmpNullptr | .load => instr.operands = [instr.arg0]
    | .ptrCast | .ptrLoad | .condbr | .passed | .callIndirect => instr.operands = [instr.arg]
    | .call | .gep | .nothing => True := by
  rw [Instr.operands]
  cases instr.opcode <;> first | rfl | trivial

/-- The value is an operand of some instruction. -/
def IsOperand (f : Function) (v : Nat) : Prop :=
  ∃ i, ∃ operand ∈ (f.instr i).operands, v ∈ operand.instruction

theorem isOperand_of_mem {i v : Nat} {operand : Value} (hOperand : operand ∈ (f.instr i).operands)
    (hMem : v ∈ operand.instruction) : IsOperand f v :=
  ⟨i, operand, hOperand, hMem⟩

variable {v i first : Nat} {reads : List Nat}

theorem IsOperand.exists (h : IsOperand f v) : ∃ i < f.instrs.length, ∃ operand ∈ (f.instr i).operands,
    operand.isConstantGlobal = false ∧ operand.idx = v := by
  obtain ⟨i, operand, hOperand, hMem⟩ := h
  have hLt : i < f.instrs.length := by
    by_contra hGe
    have hDefault : f.instr i = default := getD_eq_default _ _ (not_lt.mp hGe)
    rw [hDefault] at hOperand
    exact absurd hOperand not_mem_nil
  rw [Value.instruction] at hMem
  split at hMem
  · exact absurd hMem not_mem_nil
  case isFalse hVariable =>
    exact ⟨i, hLt, operand, hOperand, Bool.eq_false_iff.mpr hVariable, (mem_singleton.mp hMem).symm⟩

theorem IsOperand.named (h : IsOperand f v) : (f.opcode v).isUnnamed = false := by
  obtain ⟨i, hLt, operand, hOperand, hVariable, rfl⟩ := h.exists
  exact f.wellFormed.operands i hLt operand hOperand hVariable

theorem gepReads_operand (hReads : getReadValuesGEP f.toBody i = .ok reads) (hMem : v ∈ reads) : IsOperand f v := by
  rw [getReadValuesGEP] at hReads
  split at hReads
  · dsimp only at hReads
    split at hReads
    · exact absurd hReads (by simp)
    case isFalse hOffset =>
      obtain rfl := Except.ok.inj hReads
      have hOperands : (f.instr (i - 1)).operands = [(f.instr (i - 1)).arg0, (f.instr (i - 1)).arg1] := by
        rw [Instr.operands, not_not.mp hOffset]
      exact isOperand_of_mem (by rw [hOperands]; exact mem_cons_self) hMem
  case h_2 hGep =>
    dsimp only at hReads
    split at hReads
    · exact absurd hReads (by simp)
    case isFalse hOffset =>
      obtain rfl := Except.ok.inj hReads
      have hOperands : (f.instr (i - 1)).operands = [(f.instr (i - 1)).arg0, (f.instr (i - 1)).arg1] := by
        rw [Instr.operands, not_not.mp hOffset]
      have hBase : (f.instr i).operands = [(f.instr i).arg] := by
        rw [Instr.operands, show (f.instr i).opcode = .gepDynamic from hGep]
      rcases mem_append.mp hMem with hMem | hMem
      · rcases mem_append.mp hMem with hMem | hMem
        · exact isOperand_of_mem (by rw [hBase]; exact mem_cons_self) hMem
        · exact isOperand_of_mem (by rw [hOperands]; exact mem_cons_self) hMem
      · exact isOperand_of_mem (by rw [hOperands]; exact mem_cons_of_mem _ mem_cons_self) hMem
  · exact absurd hReads (by simp)

variable {message : String} {operand : Value}

theorem materialized_ok (hReads : materialized f.toBody f.computeGEPMaterialize message operand = .ok reads) :
    reads = operand.instruction := by
  rw [materialized] at hReads
  split at hReads
  · exact absurd hReads (by simp)
  · exact (Except.ok.inj hReads).symm

theorem address_operand (hOperand : operand ∈ (f.instr i).operands)
    (hReads : address f.toBody f.computeGEPMaterialize operand = .ok reads) (hMem : v ∈ reads) : IsOperand f v := by
  rw [address] at hReads
  split at hReads
  · exact gepReads_operand hReads hMem
  · obtain rfl := Except.ok.inj hReads
    exact isOperand_of_mem hOperand hMem

theorem storeReads_operand {pointer stored : Value} {addressReads storedReads : List Nat}
    (hOperands : (f.instr i).operands = [pointer, stored])
    (hAddress : address f.toBody f.computeGEPMaterialize pointer = .ok addressReads)
    (hStored : materialized f.toBody f.computeGEPMaterialize message stored = .ok storedReads)
    (hMem : v ∈ addressReads ++ storedReads) : IsOperand f v := by
  rcases mem_append.mp hMem with hMem | hMem
  · exact address_operand (hOperands ▸ mem_cons_self) hAddress hMem
  · rw [materialized_ok hStored] at hMem
    exact isOperand_of_mem (hOperands ▸ mem_cons_of_mem _ mem_cons_self) hMem

theorem maskStore_info (hForm : (f.instr i).opcode.readForm = .maskStore) :
    f.opcode (i - 1) = .i32Vec8MaskStoreInfo := by
  have hOpcode : f.opcode i = .i32Vec8MaskStore := by
    rw [Body.opcode]
    cases h : (f.instr i).opcode <;> rw [h] at hForm <;> first | rfl | exact absurd hForm (by simp [Opcode.readForm])
  rcases Nat.lt_or_ge i f.instrs.length with hLt | hGe
  · exact f.wellFormed.maskStores i hLt hOpcode
  · have hDefault : f.instr i = default := getD_eq_default _ _ hGe
    rw [Body.opcode, hDefault] at hOpcode
    exact absurd hOpcode (by simp [default])

theorem mem_callArgsBefore {j : Nat} : j ∈ callArgsBefore f.toBody first i ↔
    first ≤ j ∧ j < i ∧ ∀ q, j ≤ q → q < i → f.opcode q = .callArg := by
  induction i with
  | zero => simp [callArgsBefore]
  | succ i ih =>
    rw [callArgsBefore]
    split
    case isTrue hHere =>
      rw [mem_cons, ih]
      constructor
      · rintro (rfl | ⟨hFirst, hLt, hArgs⟩)
        · refine ⟨hHere.1, Nat.lt_succ_self j, fun q hQ hLt => ?_⟩
          rw [show q = j by omega]
          exact hHere.2
        · refine ⟨hFirst, by omega, fun q hQ hLt' => ?_⟩
          rcases Nat.lt_succ_iff_lt_or_eq.mp hLt' with hOld | rfl
          · exact hArgs q hQ hOld
          · exact hHere.2
      · rintro ⟨hFirst, hLt, hArgs⟩
        rcases Nat.lt_succ_iff_lt_or_eq.mp hLt with hOld | rfl
        · exact Or.inr ⟨hFirst, hOld, fun q hQ hLt' => hArgs q hQ (by omega)⟩
        · exact Or.inl rfl
    case isFalse hHere =>
      refine ⟨fun hMem => absurd hMem not_mem_nil, ?_⟩
      rintro ⟨hFirst, hLt, hArgs⟩
      exact absurd ⟨by omega, hArgs i (by omega) (Nat.lt_succ_self i)⟩ hHere

theorem isCall_iff {opcode : Opcode} : opcode.isCall = true ↔ opcode = .call ∨ opcode = .callIndirect := by
  cases opcode <;> simp [Opcode.isCall]

theorem call_reads (hCall : (f.opcode i).isCall = true) (hReads : readsAt f (first, i) = .ok reads)
    (hMem : v ∈ callArgsBefore f.toBody first i) : v ∈ reads := by
  rw [readsAt, getReadValues] at hReads
  dsimp only at hReads
  rcases isCall_iff.mp hCall with hOpcode | hOpcode <;> rw [show (f.instr i).opcode = _ from hOpcode] at hReads
  · exact Except.ok.inj hReads ▸ hMem
  · obtain ⟨pointer, -, hRest⟩ := bind_ok hReads
    exact Except.ok.inj hRest ▸ mem_append_right _ hMem

/-- Everything an instruction reads is an operand, or it is an argument of the call that reads it. -/
theorem reads_operand (hReads : readsAt f (first, i) = .ok reads) (hMem : v ∈ reads) :
    IsOperand f v ∨ v ∈ callArgsBefore f.toBody first i := by
  have hOperands := (f.instr i).operands_of_readForm
  rw [readsAt, getReadValues] at hReads
  dsimp only at hReads
  have hFirst : ∀ {x : Value} {rest}, (f.instr i).operands = x :: rest → v ∈ x.instruction → IsOperand f v :=
    fun hList => isOperand_of_mem (hList ▸ mem_cons_self)
  have hSecond : ∀ {x y : Value} {rest}, (f.instr i).operands = x :: y :: rest → v ∈ y.instruction →
      IsOperand f v :=
    fun hList => isOperand_of_mem (hList ▸ mem_cons_of_mem _ mem_cons_self)
  cases hForm : (f.instr i).opcode.readForm <;> rw [hForm] at hReads hOperands
  case operands =>
    obtain rfl := Except.ok.inj hReads
    rcases mem_append.mp hMem with hMem | hMem
    · exact Or.inl (hFirst hOperands hMem)
    · exact Or.inl (hSecond hOperands hMem)
  case phiMember => exact Or.inl (hSecond hOperands (materialized_ok hReads ▸ hMem))
  case operand | condbr =>
    obtain rfl := Except.ok.inj hReads
    exact Or.inl (hFirst hOperands hMem)
  case ptrCmpNullptr | ptrCast | passed => exact Or.inl (hFirst hOperands (materialized_ok hReads ▸ hMem))
  case load | ptrLoad => exact Or.inl (address_operand (hOperands ▸ mem_cons_self) hReads hMem)
  case store =>
    obtain ⟨pointer, hPointer, hRest⟩ := bind_ok hReads
    obtain ⟨stored, hStored, hRest⟩ := bind_ok hRest
    obtain rfl := Except.ok.inj hRest
    exact Or.inl (storeReads_operand hOperands hPointer hStored hMem)
  case callIndirect =>
    obtain ⟨pointer, hPointer, hRest⟩ := bind_ok hReads
    obtain rfl := Except.ok.inj hRest
    rcases mem_append.mp hMem with hMem | hMem
    · exact Or.inl (hFirst hOperands (materialized_ok hPointer ▸ hMem))
    · exact Or.inr hMem
  case call => exact Or.inr (Except.ok.inj hReads ▸ hMem)
  case gep =>
    dsimp only at hReads
    split at hReads
    · exact Or.inl (gepReads_operand hReads hMem)
    · exact absurd hMem (Except.ok.inj hReads ▸ not_mem_nil)
  case maskStore =>
    obtain ⟨pointer, hPointer, hRest⟩ := bind_ok hReads
    obtain ⟨stored, hStored, hRest⟩ := bind_ok hRest
    obtain rfl := Except.ok.inj hRest
    rcases mem_append.mp hMem with hMem | hMem
    · exact Or.inl (storeReads_operand hOperands hPointer hStored hMem)
    · have hInfo : (f.instr (i - 1)).operands = [(f.instr (i - 1)).arg0] := by
        rw [Instr.operands, show (f.instr (i - 1)).opcode = _ from maskStore_info hForm]
      exact Or.inl (isOperand_of_mem (hInfo ▸ mem_cons_self) hMem)
  case nothing => exact absurd hMem (Except.ok.inj hReads ▸ not_mem_nil)

end Reads

section Live

variable {f : Function}
variable {b k v first i : Nat}

theorem steps_getElem? {step : Step Nat} (hStep : ((flowGraph f).steps b)[k]? = some step) :
    ∃ first i, (f.block b).points[k]? = some (first, i) ∧ step = stepAt f (first, i) := by
  change ((f.block b).points.map (stepAt f))[k]? = some step at hStep
  rw [getElem?_map] at hStep
  obtain ⟨⟨first, i⟩, hPoint, rfl⟩ := Option.map_eq_some_iff.mp hStep
  exact ⟨first, i, hPoint, rfl⟩

theorem mem_readValues {point : Nat × Nat} (hMem : v ∈ readValues f point) :
    ∃ reads, readsAt f point = .ok reads ∧ v ∈ reads := by
  rw [readValues] at hMem
  split at hMem
  case h_1 reads hReads => exact ⟨reads, hReads, hMem⟩
  case h_2 => exact absurd hMem not_mem_nil

theorem writtenAt_callArg (hArg : f.opcode v = .callArg) : writtenAt f (first, v) = some v := by
  rw [writtenAt, getWrittenValue]
  dsimp only
  rw [hArg]
  rfl

/-- The arguments that a call finds before it stand directly before it in the block. -/
theorem points_of_mem_callArgsBefore (hPoint : (f.block b).points[k]? = some (first, i))
    (hMem : v ∈ callArgsBefore f.toBody first i) : ∃ start < k, (f.block b).points[start]? = some (first, v) ∧
      ∀ j, start ≤ j → j < k → ∃ w, (f.block b).points[j]? = some (first, w) ∧ f.opcode w = .callArg := by
  obtain ⟨hFirst, hLt, hArgs⟩ := mem_callArgsBefore.mp hMem
  obtain ⟨segment, -, m, rfl, hInside, rfl, hAll⟩ := BasicBlock.points_around hPoint
  obtain ⟨-, hLast⟩ := mem_segmentIndices.mp hInside
  refine ⟨m + (v - segment.1), by omega, hAll v (mem_segmentIndices.mpr ⟨hFirst, by omega⟩), fun j hJ hLt' => ?_⟩
  refine ⟨segment.1 + (j - m), ?_, hArgs _ (by omega) (by omega)⟩
  have hGet := hAll (segment.1 + (j - m)) (mem_segmentIndices.mpr ⟨by omega, by omega⟩)
  have hIndex : m + (segment.1 + (j - m) - segment.1) = j := by omega
  rwa [hIndex] at hGet

/-- Only operands are live, and between an argument and its call the argument. -/
theorem liveAt_operand (hLive : (flowGraph f).LiveAt v b k) :
    IsOperand f v ∨ ∃ start < k, (f.block b).code[start]? = some v ∧
      ∀ j, start ≤ j → j < k → ∃ w, (f.block b).code[j]? = some w ∧ f.opcode w = .callArg := by
  induction hLive with
  | @read b k step hStep hRead =>
    obtain ⟨first, i, hPoint, rfl⟩ := steps_getElem? hStep
    obtain ⟨reads, hReads, hMem⟩ := mem_readValues hRead
    refine (reads_operand hReads hMem).imp_right fun hBefore => ?_
    obtain ⟨start, hLt, hStart, hArgs⟩ := points_of_mem_callArgsBefore hPoint hBefore
    refine ⟨start, hLt, BasicBlock.code_getElem?.mpr ⟨first, hStart⟩, fun j hJ hLt' => ?_⟩
    obtain ⟨w, hPoint', hArg⟩ := hArgs j hJ hLt'
    exact ⟨w, BasicBlock.code_getElem?.mpr ⟨first, hPoint'⟩, hArg⟩
  | @pass b k step hStep hWrite _ ih =>
    refine ih.imp_right ?_
    rintro ⟨start, hLt, hStart, hArgs⟩
    obtain ⟨first, i, hPoint, rfl⟩ := steps_getElem? hStep
    have hNe : start ≠ k := by
      -- an argument is written where it stands, so its liveness does not pass itself
      rintro rfl
      obtain ⟨w, hCode, hArg⟩ := hArgs start le_rfl hLt
      obtain rfl := Option.some.inj (hStart.symm.trans hCode)
      have hHere := BasicBlock.code_getElem?.mpr ⟨first, hPoint⟩
      obtain rfl := Option.some.inj (hStart.symm.trans hHere)
      exact hWrite (writtenAt_callArg hArg)
    exact ⟨start, by omega, hStart, fun j hJ hLt' => hArgs j hJ (hLt'.trans (Nat.lt_succ_self k))⟩
  | edge _ _ ih =>
    refine ih.imp_right ?_
    rintro ⟨start, hLt, -⟩
    exact absurd hLt (Nat.not_lt_zero start)

variable {p c s : Nat}

theorem touched_operand (hTouched : Touched f v p) : IsOperand f v ∨
    f.opcode v = .callArg ∧ ∃ s, f.order[s]? = some v ∧ ArgsUpTo f s p := by
  obtain ⟨b, hBlock, k, hLive, ⟨first, i⟩, hPoint, rfl⟩ := hTouched
  refine (liveAt_operand hLive).imp_right ?_
  rintro ⟨start, hLt, hStart, hArgs⟩
  have hArg : f.opcode v = .callArg := by
    obtain ⟨w, hCode, hArg⟩ := hArgs start le_rfl hLt
    obtain rfl := Option.some.inj (hStart.symm.trans hCode)
    exact hArg
  have hUpTo : ∀ j, start ≤ j → j ≤ k → ArgsUpTo f (f.base b + start) (f.base b + j) := by
    intro j hJ hLe
    refine ⟨by omega, fun q hQ hLt' => ?_⟩
    obtain ⟨w, hCode, hArg'⟩ := hArgs (q - f.base b) (by omega) (by omega)
    have hOrder := order_getElem? hBlock hCode
    rw [show f.base b + (q - f.base b) = q by omega] at hOrder
    exact ⟨w, hOrder, hArg'⟩
  refine ⟨hArg, f.base b + start, order_getElem? hBlock hStart, ?_⟩
  rcases hPoint with hPoint | ⟨hPos, hPoint⟩ <;> rw [StandsAt.position ⟨hBlock, hPoint⟩]
  · exact hUpTo k hLt.le le_rfl
  · exact hUpTo (k - 1) (by omega) (by omega)

theorem isUnnamed_of_isStore {opcode : Opcode} (hStore : opcode.isStore = true) : opcode.isUnnamed = true := by
  revert hStore
  cases opcode <;> simp [Opcode.isStore, Opcode.isUnnamed]

theorem not_touched_of_isStore (hStore : (f.opcode v).isStore = true) : ¬ Touched f v p := by
  intro hTouched
  rcases touched_operand hTouched with hOperand | ⟨hArg, -⟩
  · exact absurd ((isUnnamed_of_isStore hStore).symm.trans hOperand.named) (by simp)
  · rw [hArg] at hStore
    exact absurd hStore (by simp [Opcode.isStore])

/-- Inside a block a run of arguments keeps to one segment. -/
theorem ArgsUpTo.standsAt {start d : Nat} (hAt : StandsAt f b start first v)
    (h : ArgsUpTo f (f.base b + start) (f.base b + start + d)) :
    StandsAt f b (start + d) first (v + d) ∧ ∀ q, v ≤ q → q < v + d → f.opcode q = .callArg := by
  induction d with
  | zero => exact ⟨hAt, fun q hQ hLt => absurd hLt (Nat.not_lt.mpr hQ)⟩
  | succ d ih =>
    obtain ⟨hHere, hArgs⟩ := ih ⟨Nat.le_add_right _ _, fun q hQ hLt => h.2 q hQ (by omega)⟩
    obtain ⟨w, hOrder, hArg⟩ := h.2 (f.base b + start + d) (by omega) (by omega)
    have hSame := hHere.order
    rw [← Nat.add_assoc] at hSame
    obtain rfl := Option.some.inj (hSame.symm.trans hOrder)
    refine ⟨(hHere.next hArg).1, fun q hQ hLt => ?_⟩
    rcases Nat.lt_succ_iff_lt_or_eq.mp hLt with hOld | rfl
    · exact hArgs q hQ hOld
    · exact hArg

theorem touched_of_read {b k first i v : Nat} {listed : List Nat} (hAt : StandsAt f b k first i)
    (hListed : readsAt f (first, i) = .ok listed) (hMem : v ∈ listed) : Touched f v (f.base b + k) := by
  have hStep : ((flowGraph f).steps b)[k]? = some (stepAt f (first, i)) := by
    change ((f.block b).points.map (stepAt f))[k]? = _
    rw [getElem?_map, hAt.point]
    rfl
  have hRead : v ∈ (stepAt f (first, i)).reads := by
    change v ∈ readValues f (first, i)
    rw [readValues, hListed]
    exact hMem
  exact ⟨b, hAt.block, k, Graph.LiveAt.read hStep hRead, (first, i), Or.inl hAt.point, hAt.position⟩

/-- The instruction at the end of a run finds every argument of the run directly before it. -/
theorem ArgsUpTo.mem_callArgsBefore (hUpTo : ArgsUpTo f s c) (hOrder : f.order[s]? = some v) (hLt : s < c)
    (hEnd : f.order[c]? = some i) :
    ∃ b k first, f.base b + k = c ∧ StandsAt f b k first i ∧ v ∈ callArgsBefore f.toBody first i := by
  obtain ⟨b, start, first, rfl, hAt⟩ := exists_standsAt hOrder
  obtain ⟨d, rfl⟩ := Nat.exists_eq_add_of_le hUpTo.1
  obtain ⟨hLast, hArgs⟩ := hUpTo.standsAt hAt
  have hSame := hLast.order
  rw [← Nat.add_assoc] at hSame
  obtain rfl := Option.some.inj (hSame.symm.trans hEnd)
  obtain ⟨segment, -, m, hFirst, hInside, -⟩ := BasicBlock.points_around hAt.point
  refine ⟨b, start + d, first, (Nat.add_assoc _ _ _).symm, hLast, ?_⟩
  exact KushDB.Khir.mem_callArgsBefore.mpr ⟨hFirst ▸ (mem_segmentIndices.mp hInside).1, by omega, hArgs⟩

section

variable {j : Nat} (hAt : StandsAt f b k first i)
include hAt

theorem StandsAt.before (hFirst : first ≤ j) (hLe : j ≤ i) : i - j ≤ k ∧ StandsAt f b (k - (i - j)) first j := by
  obtain ⟨segment, -, m, rfl, hInside, hIndex, hAll⟩ := BasicBlock.points_around hAt.point
  obtain ⟨-, hLast⟩ := mem_segmentIndices.mp hInside
  have hGet := hAll j (mem_segmentIndices.mpr ⟨hFirst, hLe.trans hLast⟩)
  have hShift : m + (j - segment.1) = k - (i - j) := by omega
  exact ⟨by omega, hAt.block, hShift ▸ hGet⟩

theorem argsUpTo_of_mem (hMem : j ∈ callArgsBefore f.toBody first i) :
    ArgsUpTo f (f.base b + (k - (i - j))) (f.base b + k) := by
  obtain ⟨hFirst, hLt, hArgs⟩ := mem_callArgsBefore.mp hMem
  obtain ⟨hBound, -⟩ := hAt.before hFirst hLt.le
  refine ⟨by omega, fun q hQ hLt' => ?_⟩
  have hOrder := (hAt.before (j := i - (f.base b + k - q)) (by omega) (by omega)).2.order
  rw [show f.base b + (k - (i - (i - (f.base b + k - q)))) = q by omega] at hOrder
  exact ⟨_, hOrder, hArgs _ (by omega) (by omega)⟩

end

/-- The call at the end of a run reads every argument of the run. -/
theorem touched_of_call (hReadable : Readable f) (hOrder : f.order[s]? = some v) (hUpTo : ArgsUpTo f s c) (hLt : s < c)
    (hCall : f.order[c]? = some i) (hIsCall : (f.opcode i).isCall = true) : Touched f v c := by
  obtain ⟨b, k, first, rfl, hAt, hMem⟩ := hUpTo.mem_callArgsBefore hOrder hLt hCall
  obtain ⟨listed, hListed⟩ := hReadable b hAt.block _ (mem_of_getElem? hAt.point)
  exact touched_of_read hAt hListed (call_reads hIsCall hListed hMem)

end Live

end KushDB.Khir
