import Mathlib.Data.Finset.Max
import Mathlib.Data.List.Sort
import KushDB.Khir.SortedSchedule

/-! # When register allocation is safe

The allocator gives different registers to values that are live together, keeps values out of the registers that a
call overwrites and out of reserved registers, and ends without an error, exactly when every instruction can be read,
every parameter has a register to arrive in, and no two compares are kept in the flags at the same time.
-/

namespace KushDB.Khir

open Fallible Liveness RegisterPool

/-- The registers of the calling convention that do not survive a call. -/
def callerSaved : List Nat :=
  GPRegister.rax :: normalArgReg ++ normalCallerSave ++ (List.range 16).map VRegister.m

structure SafeAllocation (f : Function) (intervals : List LiveInterval) (assignments : Nat → Option Nat) : Prop where
  values : ∀ a ∈ intervals, ∀ b ∈ intervals, ∀ v t w t', a.owner = .virtual v t → b.owner = .virtual w t' → v ≠ w →
    a.Meets b → ∀ r, assignments v = some r → assignments w ≠ some r
  calls : ∀ a ∈ intervals, ∀ v t, a.owner = .virtual v t → ∀ c i, f.order[c]? = some i → (f.opcode i).isCall = true →
    a.contains c → ∀ r, assignments v = some r → r ∉ callerSaved
  fixed : ∀ a ∈ intervals, ∀ b ∈ intervals, ∀ v t r, a.owner = .virtual v t → b.owner = .precolored r → a.Meets b →
    assignments v ≠ some r

/-- With enough rounds for the worklist, whatever the choices and the costs. -/
def AllocatesSafely (f : Function) : Prop :=
  ∃ enough, ∀ rounds, enough < rounds → ∀ (choices : Choices) (cost : Nat → Nat),
    ∃ intervals assignments, computeLiveIntervals f rounds = .ok intervals ∧
      linearScanRegisterAlloc f choices cost rounds = .ok assignments ∧ SafeAllocation f intervals assignments

def Opcode.flag (opcode : Opcode) : Option Nat :=
  match opcode.allocForm with
  | .intCompare => some FRegister.iFlag
  | .floatCompare => some FRegister.fFlag
  | _ => none

/-- The liveness of a compare before a branch touches two consecutive places only. -/
def InFlags (f : Function) (v s : Nat) : Prop :=
  f.opcode (v + 1) = .condbr ∧ ∀ p, Touched f v p ↔ p = s ∨ p = s + 1

/-- Two compares of one sort that both stay in the flags meet. -/
def FlagClash (f : Function) : Prop :=
  ∃ v w s t flag, v ≠ w ∧ (f.opcode v).flag = some flag ∧ (f.opcode w).flag = some flag ∧ InFlags f v s ∧
    InFlags f w t ∧ s ≤ t + 1 ∧ t ≤ s + 1

section Run

variable {f : Function} {scanned parameters intervals : List LiveInterval} {choices : Choices} {scan : Scan} {now : Nat}

/-- One run of the allocator that came to its end. -/
structure Allocated (f : Function) (choices : Choices) (scanned parameters intervals : List LiveInterval) (now : Nat)
    (scan : Scan) : Prop where
  computed : Computed f scanned parameters intervals
  invariant : ScanInvariant f (sortedState choices intervals) (choices.sort intervals).length now scan

theorem allocation_run (hReadable : Readable f) (hFit : ParametersFit f) :
    ∃ enough, ∀ rounds, enough < rounds → ∀ (choices : Choices) (cost : Nat → Nat),
      ∃ scanned parameters intervals now scan, computeLiveIntervals f rounds = .ok intervals ∧
        linearScanRegisterAlloc f choices cost rounds = .ok scan.state.assignments ∧
        Allocated f choices scanned parameters intervals now scan := by
  obtain ⟨enough, hEnough⟩ := computed_run hReadable hFit
  refine ⟨enough, fun rounds hRounds choices cost => ?_⟩
  obtain ⟨scanned, parameters, intervals, hOutput, hComputed⟩ := hEnough rounds hRounds
  have hProper : ∀ a ∈ choices.sort intervals, a.start ≤ a.stop := by
    intro a hMem
    obtain ⟨first, last, hRange, hLe⟩ := hComputed.range ((choices.sort_perm _).mem_iff.mp hMem)
    obtain ⟨hStart, hStop⟩ := LiveInterval.start_eq hRange
    rw [hStart, hStop]
    exact hLe
  obtain ⟨scan, now, hScan, hInv⟩ := scanSorted_invariant choices cost (hComputed.schedule choices) hProper
  refine ⟨scanned, parameters, intervals, now, scan, hOutput, ?_, hComputed, hInv⟩
  rw [linearScanRegisterAlloc, hOutput]
  change (scanSorted f choices cost (choices.sort intervals) >>= _) = _
  rw [hScan]
  rfl

/-- Whatever number of rounds the allocator ended with, its run is such a one. -/
theorem allocated_of_assignments {cost : Nat → Nat} {rounds : Nat} {assignments : Nat → Option Nat}
    (h : linearScanRegisterAlloc f choices cost rounds = .ok assignments) : Readable f ∧
      ∃ scanned parameters intervals now scan, assignments = scan.state.assignments ∧
        Allocated f choices scanned parameters intervals now scan := by
  rw [linearScanRegisterAlloc] at h
  obtain ⟨intervals, hIntervals, h⟩ := bind_ok h
  have hReadable := readable_of_intervals hIntervals
  obtain ⟨enough, hEnough⟩ := allocation_run hReadable (parametersFit_of_intervals hIntervals)
  obtain ⟨scanned, parameters, others, now, scan, hOthers, hScan, hAllocated⟩ :=
    hEnough (max rounds (enough + 1)) (Nat.lt_of_succ_le (le_max_right _ _)) choices cost
  rw [computeLiveIntervals_mono hIntervals (le_max_left _ _)] at hOthers
  obtain rfl := Except.ok.inj hOthers
  rw [linearScanRegisterAlloc, computeLiveIntervals_mono hIntervals (le_max_left _ _)] at hScan
  exact ⟨hReadable, scanned, parameters, intervals, now, scan, Except.ok.inj (h.symm.trans hScan), hAllocated⟩

variable {a : LiveInterval} {r : Nat}

/-- The place of an interval in the sorted vector. -/
theorem exists_index (choices : Choices) (hMem : a ∈ intervals) :
    ∃ k < (choices.sort intervals).length,
      (sortedState choices intervals).owner k = a.owner ∧ (sortedState choices intervals).startOf k = a.start ∧
      (sortedState choices intervals).stopOf k = a.stop := by
  obtain ⟨k, hLt, rfl⟩ := List.mem_iff_getElem.mp ((choices.sort_perm intervals).mem_iff.mpr hMem)
  exact ⟨k, hLt, sortedState_getElem choices hLt⟩

variable {k v : Nat} {t : TypeKind}

section

variable (h : Allocated f choices scanned parameters intervals now scan)
include h

/-- Two places of the vector that overlap do not hold the same register of a pool. -/
theorem Allocated.apart {j : Nat} (hJ : j < (choices.sort intervals).length) (hK : k < (choices.sort intervals).length)
    (hNe : j ≠ k)
    (hOverlap : Overlap (sortedState choices intervals).startOf (sortedState choices intervals).stopOf j k)
    (hPool : r ∈ normalPool ∪ vectorPool) (hHeld : scan.state.registerOf j = some r) :
    scan.state.registerOf k ≠ some r := by
  rw [← h.invariant.starts, ← h.invariant.stops] at hOverlap
  rcases Finset.mem_union.mp hPool with hNormal | hVector
  · exact h.invariant.normal.apart j hJ k hK hNe hOverlap r hNormal hHeld
  · exact h.invariant.vector.apart j hJ k hK hNe hOverlap r hVector hHeld

theorem registerOf_reserved (hOwner : (sortedState choices intervals).owner k = .precolored r) :
    scan.state.registerOf k = some r := by
  rw [ScanState.registerOf]
  rcases h.invariant.owners k with hSame | ⟨-, ⟨v, t, hVirtual, -⟩, -⟩
  · rw [hSame, hOwner]
  · exact absurd (hOwner.symm.trans hVirtual) (by simp)

theorem Allocated.fixed {b : LiveInterval} (hA : a ∈ intervals) (hB : b ∈ intervals) (hOwnerA : a.owner = .virtual v t)
    (hOwnerB : b.owner = .precolored r) (hMeets : a.Meets b) : scan.state.assignments v ≠ some r := by
  obtain ⟨j, hJ, hIndexA, hStartA, hStopA⟩ := exists_index choices hA
  obtain ⟨k, hK, hIndexB, hStartB, hStopB⟩ := exists_index choices hB
  have hNe : k ≠ j := by
    rintro rfl
    exact absurd ((hOwnerB.symm.trans hIndexB.symm).trans (hIndexA.trans hOwnerA)) (by simp)
  have hOverlap : Overlap (sortedState choices intervals).startOf (sortedState choices intervals).stopOf k j := by
    rw [Overlap, hStartA, hStopA, hStartB, hStopB]
    exact hMeets.symm
  rw [h.invariant.assigned j hJ v t (hIndexA.trans hOwnerA)]
  exact h.apart hK hJ hNe hOverlap (h.computed.pools hB hOwnerB) (registerOf_reserved h (hIndexB.trans hOwnerB))

end

theorem callerSaved_reserved (hPool : r ∈ normalPool ∪ vectorPool) (hSaved : r ∈ callerSaved) :
    r ∈ normalArgReg ++ (fpArgReg ++ normalCallerSave ++ fpCallerSave) := by
  revert r
  decide

theorem flag_not_callerSaved (h : r = FRegister.iFlag ∨ r = FRegister.fFlag) : r ∉ callerSaved := by
  rcases h with rfl | rfl <;> decide

theorem Allocated.calls (h : Allocated f choices scanned parameters intervals now scan) (hReadable : Readable f)
    (hA : a ∈ intervals) {c i : Nat} (hOwner : a.owner = .virtual v t) (hOrder : f.order[c]? = some i)
    (hCall : (f.opcode i).isCall = true) (hContains : a.contains c) (hHeld : scan.state.assignments v = some r) :
    r ∉ callerSaved := by
  intro hSaved
  obtain ⟨j, hJ, hIndex, -⟩ := exists_index choices hA
  have hRegister := (h.invariant.assigned j hJ v t (hIndex.trans hOwner)).symm.trans hHeld
  rcases h.invariant.registers j hJ r hRegister with hPool | ⟨_, _, _, hFlag, _⟩
  · obtain ⟨b, hB, hReserved, hOther⟩ := h.computed.reserved hReadable hOrder hCall (callerSaved_reserved hPool hSaved)
    exact h.fixed hA hB hOwner hReserved (LiveInterval.meets_of_contains hContains hOther) hHeld
  · exact flag_not_callerSaved (hFlag.imp And.right And.right) hSaved

end Run

section Flags

variable {f : Function} {scanned parameters intervals : List LiveInterval} {choices : Choices} {scan : Scan} {now : Nat}
variable {r v : Nat}
variable {opcode : Opcode} {a : LiveInterval} {t : TypeKind}

theorem flag_iff : opcode.flag = some r ↔
    opcode.allocForm = .intCompare ∧ r = FRegister.iFlag ∨ opcode.allocForm = .floatCompare ∧ r = FRegister.fFlag := by
  rw [Opcode.flag]
  cases opcode.allocForm <;> simp [eq_comm]

theorem isStore_of_flag (h : opcode.flag = some r) : opcode.isStore = false := by
  revert h
  cases opcode <;> simp [Opcode.flag, Opcode.allocForm, Opcode.isStore]

section

variable (h : Allocated f choices scanned parameters intervals now scan)
include h

/-- A value is put into the flags when its liveness touches two consecutive places only. -/
theorem flagged_iff (hMem : a ∈ intervals) {k : Nat} (hOwner : a.owner = .virtual v t)
    (hIndex : (sortedState choices intervals).owner k = a.owner)
    (hStart : (sortedState choices intervals).startOf k = a.start)
    (hStop : (sortedState choices intervals).stopOf k = a.stop) :
    Flagged f (sortedState choices intervals) k r ↔ (f.opcode v).flag = some r ∧ InFlags f v a.start := by
  obtain ⟨first, last, hRange, hLe⟩ := h.computed.range hMem
  obtain ⟨hFirst, hLast⟩ := LiveInterval.start_eq hRange
  constructor
  · rintro ⟨w, t', hVirtual, hFlag, hNext, hBranch⟩
    obtain ⟨rfl, -⟩ := Owner.virtual.inj ((hVirtual.symm.trans hIndex).trans hOwner)
    have hFlag' := flag_iff.mpr hFlag
    have hHull := h.computed.hull hMem hOwner (isStore_of_flag hFlag')
    obtain ⟨-, hTouched, hTouched'⟩ := hHull.ends first last hRange
    rw [hStart, hStop, hFirst, hLast] at hNext
    rw [hFirst]
    refine ⟨hFlag', hBranch, fun p => ⟨fun hP => ?_, ?_⟩⟩
    · obtain ⟨_, _, hSame, hGe, hP⟩ := hHull.covers p hP
      obtain ⟨rfl, rfl⟩ := Prod.mk.inj (Option.some.inj (hSame.symm.trans hRange))
      omega
    · rintro (rfl | rfl)
      · exact hTouched
      · rw [hNext]
        exact hTouched'
  · rintro ⟨hFlag, hBranch, hTouches⟩
    refine ⟨v, t, hIndex.trans hOwner, flag_iff.mp hFlag, ?_, hBranch⟩
    have hHull := h.computed.hull hMem hOwner (isStore_of_flag hFlag)
    obtain ⟨-, -, hTouched'⟩ := hHull.ends first last hRange
    obtain ⟨_, _, hSame, -, hEnd⟩ := hHull.covers _ ((hTouches (a.start + 1)).mpr (Or.inr rfl))
    obtain ⟨rfl, rfl⟩ := Prod.mk.inj (Option.some.inj (hSame.symm.trans hRange))
    rw [hStart, hStop]
    have hCases := (hTouches _).mp hTouched'
    omega

theorem Allocated.values (hClash : ¬ FlagClash f) {b : LiveInterval} (hA : a ∈ intervals) (hB : b ∈ intervals) {w : Nat}
    {t' : TypeKind} (hOwnerA : a.owner = .virtual v t) (hOwnerB : b.owner = .virtual w t') (hNe : v ≠ w)
    (hMeets : a.Meets b) (hHeldA : scan.state.assignments v = some r) : scan.state.assignments w ≠ some r := by
  intro hHeldB
  obtain ⟨j, hJ, hIndexA, hStartA, hStopA⟩ := exists_index choices hA
  obtain ⟨k, hK, hIndexB, hStartB, hStopB⟩ := exists_index choices hB
  have hPlaces : j ≠ k := by
    rintro rfl
    exact hNe (Owner.virtual.inj ((hOwnerA.symm.trans hIndexA.symm).trans (hIndexB.trans hOwnerB))).1
  have hRegisterA := (h.invariant.assigned j hJ v t (hIndexA.trans hOwnerA)).symm.trans hHeldA
  have hRegisterB := (h.invariant.assigned k hK w t' (hIndexB.trans hOwnerB)).symm.trans hHeldB
  rcases h.invariant.registers j hJ r hRegisterA with hPool | hFlagA
  · refine h.apart hJ hK hPlaces ?_ hPool hRegisterA hRegisterB
    rw [Overlap, hStartA, hStopA, hStartB, hStopB]
    exact hMeets
  · -- a value in the flags meets only another value in the flags with the same register
    have hFlagB := (h.invariant.registers k hK r hRegisterB).resolve_left hFlagA.not_mem
    have hNextA : a.start + 1 = a.stop := by
      obtain ⟨_, _, _, _, hNext, _⟩ := hFlagA
      rwa [hStartA, hStopA] at hNext
    have hNextB : b.start + 1 = b.stop := by
      obtain ⟨_, _, _, _, hNext, _⟩ := hFlagB
      rwa [hStartB, hStopB] at hNext
    obtain ⟨hKindA, hInA⟩ := (flagged_iff h hA hOwnerA hIndexA hStartA hStopA).mp hFlagA
    obtain ⟨hKindB, hInB⟩ := (flagged_iff h hB hOwnerB hIndexB hStartB hStopB).mp hFlagB
    obtain ⟨hLe, hLe'⟩ := hMeets
    exact hClash ⟨v, w, a.start, b.start, r, hNe, hKindA, hKindB, hInA, hInB, by omega, by omega⟩

/-- A value that fits in the flags has an interval over its two places and is put there. -/
theorem Allocated.inFlags {s : Nat} (hKind : (f.opcode v).flag = some r) (hIn : InFlags f v s) :
    ∃ a ∈ intervals, (∃ t, a.owner = .virtual v t) ∧ a.start = s ∧ a.stop = s + 1 ∧
      scan.state.assignments v = some r := by
  have hStore := isStore_of_flag hKind
  have hLt : v < f.instrs.length := by
    apply lt_of_opcode_ne
    intro hRet
    rw [hRet] at hKind
    exact absurd hKind (by simp [Opcode.flag, Opcode.allocForm])
  obtain ⟨a, hMem, hGet, hContains⟩ := h.computed.mem_of_touched hLt hStore ((hIn.2 s).mpr (Or.inl rfl))
  obtain ⟨first, last, hRange, -⟩ := h.computed.range hMem
  have hDefined : a.undef = false := by rw [LiveInterval.undef, hRange]; rfl
  obtain ⟨t, hOwner⟩ : ∃ t, a.owner = .virtual v t := by
    cases valueInterval_of_final h.computed.exactScan hGet hDefined with
    | plain hOwner => exact ⟨_, hOwner⟩
    | store _ hIs => exact absurd (hIs.symm.trans hStore) (by simp)
    | argument hArgument =>
      rw [hArgument.opcode] at hKind
      exact absurd hKind (by simp [Opcode.flag, Opcode.allocForm])
  obtain ⟨hStartEq, hStopEq⟩ := LiveInterval.start_eq hRange
  have hHull := h.computed.hull hMem hOwner hStore
  obtain ⟨hLe, hFirst, hLast⟩ := hHull.ends first last hRange
  have hBounds : ∀ p, Touched f v p → first ≤ p ∧ p ≤ last := by
    intro p hP
    obtain ⟨_, _, hSame, hBound⟩ := hHull.covers p hP
    obtain ⟨rfl, rfl⟩ := Prod.mk.inj (Option.some.inj (hSame.symm.trans hRange))
    exact hBound
  have hS := hBounds s ((hIn.2 s).mpr (Or.inl rfl))
  have hNext := hBounds (s + 1) ((hIn.2 (s + 1)).mpr (Or.inr rfl))
  have hFirstCases := (hIn.2 first).mp hFirst
  have hLastCases := (hIn.2 last).mp hLast
  have hStart : a.start = s := by omega
  have hStop : a.stop = s + 1 := by omega
  obtain ⟨k, hK, hIndex, hStartK, hStopK⟩ := exists_index choices hMem
  refine ⟨a, hMem, ⟨t, hOwner⟩, hStart, hStop, ?_⟩
  rw [h.invariant.assigned k hK v t (hIndex.trans hOwner)]
  apply h.invariant.flagged k hK r
  exact (flagged_iff h hMem hOwner hIndex hStartK hStopK).mpr ⟨hKind, hStart ▸ hIn⟩

end

end Flags

section Safety

variable {f : Function}

theorem allocatesSafely_of (hReadable : Readable f) (hFit : ParametersFit f) (hClash : ¬ FlagClash f) :
    AllocatesSafely f := by
  obtain ⟨enough, hEnough⟩ := allocation_run hReadable hFit
  refine ⟨enough, fun rounds hRounds choices cost => ?_⟩
  obtain ⟨scanned, parameters, intervals, now, scan, hOutput, hAssigned, h⟩ := hEnough rounds hRounds choices cost
  refine ⟨intervals, scan.state.assignments, hOutput, hAssigned, ?_, ?_, ?_⟩
  · intro a hA b hB v t w t' hOwnerA hOwnerB hNe hMeets r hHeld
    exact h.values hClash hA hB hOwnerA hOwnerB hNe hMeets hHeld
  · intro a hA v t hOwner c i hOrder hCall hContains r hHeld
    exact h.calls hReadable hA hOwner hOrder hCall hContains hHeld
  · intro a hA b hB v t r hOwnerA hOwnerB hMeets
    exact h.fixed hA hB hOwnerA hOwnerB hMeets

theorem insertionSort_by {α : Type} (key : α → Nat) (items : List α) :
    (items.insertionSort fun a b => key a ≤ key b).Pairwise fun a b => key a ≤ key b :=
  letI : Std.Total fun a b : α => key a ≤ key b := ⟨fun _ _ => Nat.le_total _ _⟩
  letI : IsTrans α fun a b => key a ≤ key b := ⟨fun _ _ _ => Nat.le_trans⟩
  List.pairwise_insertionSort _ items

/-- Ties are left in the order they come in, and the smallest free register is taken. -/
def Choices.standard : Choices where
  sort intervals := intervals.insertionSort fun a b => a.start ≤ b.start
  sort_perm intervals := List.perm_insertionSort _ intervals
  sort_sorted intervals := insertionSort_by LiveInterval.start intervals
  pick _ free := if h : free.Nonempty then free.min' h else 0
  pick_mem _ free hFree := by
    rw [dif_pos hFree]
    exact free.min'_mem hFree
  insert stop number active := (number :: active).insertionSort fun j k => stop j ≤ stop k
  insert_perm stop number active := List.perm_insertionSort _ _
  insert_sorted stop number active _ := insertionSort_by stop (number :: active)

theorem intervals_of_safe (h : AllocatesSafely f) : ∃ enough, ∀ rounds, enough < rounds →
    ∃ intervals, computeLiveIntervals f rounds = .ok intervals := by
  obtain ⟨enough, hEnough⟩ := h
  refine ⟨enough, fun rounds hRounds => ?_⟩
  obtain ⟨intervals, _, hOutput, -⟩ := hEnough rounds hRounds Choices.standard fun _ => 0
  exact ⟨intervals, hOutput⟩

theorem not_flagClash_of_safe (h : AllocatesSafely f) (hReadable : Readable f) (hFit : ParametersFit f) :
    ¬ FlagClash f := by
  rintro ⟨v, w, s, t, r, hNe, hKindV, hKindW, hInV, hInW, hLe, hLe'⟩
  obtain ⟨enough, hSafe⟩ := h
  obtain ⟨enough', hRun⟩ := allocation_run hReadable hFit
  let rounds := max enough enough' + 1
  obtain ⟨intervals, assignments, hOutput, hAssigned, hValues, -⟩ :=
    hSafe rounds (Nat.lt_succ_of_le (le_max_left _ _)) Choices.standard fun _ => 0
  obtain ⟨scanned, parameters, others, now, scan, hOutput', hAssigned', hAllocated⟩ :=
    hRun rounds (Nat.lt_succ_of_le (le_max_right _ _)) Choices.standard fun _ => 0
  obtain rfl := Except.ok.inj (hOutput.symm.trans hOutput')
  obtain rfl := Except.ok.inj (hAssigned.symm.trans hAssigned')
  obtain ⟨a, hA, ⟨ta, hOwnerA⟩, hStartA, hStopA, hHeldA⟩ := hAllocated.inFlags hKindV hInV
  obtain ⟨b, hB, ⟨tb, hOwnerB⟩, hStartB, hStopB, hHeldB⟩ := hAllocated.inFlags hKindW hInW
  have hMeets : a.Meets b := by
    rw [LiveInterval.Meets, hStartA, hStopA, hStartB, hStopB]
    exact ⟨hLe, hLe'⟩
  exact hValues a hA b hB v ta w tb hOwnerA hOwnerB hNe hMeets r hHeldA hHeldB

/-- The allocator is safe exactly on the functions that can be read, whose parameters have registers, and where no two
compares share the flags. -/
theorem allocatesSafely_iff (f : Function) : AllocatesSafely f ↔ Readable f ∧ ParametersFit f ∧ ¬ FlagClash f := by
  constructor
  · intro h
    obtain ⟨enough, hIntervals⟩ := intervals_of_safe h
    obtain ⟨intervals, hOutput⟩ := hIntervals (enough + 1) (Nat.lt_succ_self _)
    have hReadable := readable_of_intervals hOutput
    have hFit := parametersFit_of_intervals hOutput
    exact ⟨hReadable, hFit, not_flagClash_of_safe h hReadable hFit⟩
  · rintro ⟨hReadable, hFit, hClash⟩
    exact allocatesSafely_of hReadable hFit hClash

/-- Seven integer parameters, one more than there are registers for them. -/
def sevenParameters : Function where
  instrs := List.replicate 7 { opcode := .funcArg, typeId := .i64 } ++ [{ opcode := .ret }]
  basicBlocks := [⟨[(0, 7)], [], []⟩]
  wellFormed := by decide

/-- The seventh parameter has no register: the table of registers is read past its end. -/
theorem sevenParameters_not_safe : ¬ AllocatesSafely sevenParameters ∧
    funcArgIntervals sevenParameters sevenParameters.instrs 0 0 0 = .error "argument register out of range" := by
  constructor
  · intro h
    obtain ⟨enough, hIntervals⟩ := intervals_of_safe h
    obtain ⟨intervals, hOutput⟩ := hIntervals (enough + 1) (Nat.lt_succ_self _)
    have hNormal := (parametersFit_of_intervals hOutput).normal
    exact absurd hNormal (by decide)
  · rfl

end Safety

end KushDB.Khir
