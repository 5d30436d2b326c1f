import KushDB.Khir.LinearScanPools

/-! # The invariant of the allocator

The intervals of a function are a schedule when every value has one interval, reserved intervals of one register do
not overlap, and the interval of a store overlaps neither a reserved one nor that of another store. During the scan
both pools fit, only stores have become reserved, and a value met so far is in a register of a pool, in the flags, or
spilled.
-/

namespace KushDB.Khir

open RegisterPool

def IsStore (f : Function) (state : ScanState) (k : Nat) : Prop :=
  ∃ v t, state.owner k = .virtual v t ∧ ((f.opcode v).allocForm = .maskStore ∨ (f.opcode v).allocForm = .store)

/-- The flag register of a compare that only the branch directly after it reads. -/
def Flagged (f : Function) (state : ScanState) (k r : Nat) : Prop :=
  ∃ v t, state.owner k = .virtual v t ∧
    ((f.opcode v).allocForm = .intCompare ∧ r = FRegister.iFlag ∨
      (f.opcode v).allocForm = .floatCompare ∧ r = FRegister.fFlag) ∧
    state.startOf k + 1 = state.stopOf k ∧ f.opcode (v + 1) = .condbr

/-- The registers of a type. -/
def TypeKind.pool (type : TypeKind) : Finset Nat :=
  if type.isVector then vectorPool else normalPool

structure Schedule (f : Function) (state : ScanState) : Prop where
  sorted : ∀ j k, j ≤ k → k < state.intervals.length → state.startOf j ≤ state.startOf k
  distinct : state.DistinctValues
  pools : ∀ k < state.intervals.length, ∀ r, state.owner k = .precolored r → r ∈ normalPool ∪ vectorPool
  fixed_apart : ∀ j < state.intervals.length, ∀ k < state.intervals.length, j ≠ k → ∀ r,
    state.owner j = .precolored r → state.owner k = .precolored r → ¬ Overlap state.startOf state.stopOf j k
  store_apart : ∀ j < state.intervals.length, ∀ k < state.intervals.length, j ≠ k → IsStore f state k →
    IsStore f state j ∨ (∃ r, state.owner j = .precolored r) → ¬ Overlap state.startOf state.stopOf j k

/-- The state of the scan before interval `c`, over the intervals it started with. -/
structure ScanInvariant (f : Function) (start : ScanState) (c now : Nat) (scan : Scan) : Prop where
  normal : PoolFits normalPool scan.state c now scan.normal
  vector : PoolFits vectorPool scan.state c now scan.vector
  length : scan.state.intervals.length = start.intervals.length
  starts : scan.state.startOf = start.startOf
  stops : scan.state.stopOf = start.stopOf
  owners : ∀ k, scan.state.owner k = start.owner k ∨ k < c ∧ IsStore f start k ∧ ∃ r, scan.state.owner k = .precolored r
  assigned : ∀ k < c, ∀ v t, start.owner k = .virtual v t → scan.state.assignments v = scan.state.registerOf k
  unassigned : ∀ k, c ≤ k → k < start.intervals.length → ∀ v t, start.owner k = .virtual v t →
    scan.state.assignments v = none
  registers : ∀ k < c, ∀ r, scan.state.registerOf k = some r → r ∈ normalPool ∪ vectorPool ∨ Flagged f start k r
  flagged : ∀ k < c, ∀ r, Flagged f start k r → scan.state.registerOf k = some r
  classes : ∀ k < c, ∀ v t r, start.owner k = .virtual v t → ¬ IsStore f start k →
    scan.state.registerOf k = some r → r ∈ t.pool ∨ Flagged f start k r

variable {r : Nat}

theorem flag_not_mem (h : r = FRegister.iFlag ∨ r = FRegister.fFlag) : r ∉ normalPool ∪ vectorPool := by
  rcases h with rfl | rfl <;> decide

theorem Flagged.not_mem {f : Function} {state : ScanState} {k : Nat} (h : Flagged f state k r) :
    r ∉ normalPool ∪ vectorPool := by
  obtain ⟨v, t, -, hFlag, -⟩ := h
  exact flag_not_mem (hFlag.imp And.right And.right)

section Step

variable {f : Function} {start : ScanState} {c now : Nat} {scan : Scan} {registers other : Finset Nat}
  {state state' : ScanState}

/-- The pool of the other class is not touched. -/
theorem Stepped.otherPool {pool : Pool} (hStep : Stepped registers c state state')
    (hFits : PoolFits other state c now pool) (hDisjoint : Disjoint other registers)
    (hNone : ∀ r ∈ other, state'.registerOf c ≠ some r) : PoolFits other state' (c + 1) now pool := by
  rw [PoolFits, hStep.starts, hStep.stops]
  refine Fits.skip (hFits.congr fun k hLt r hMem => ?_) hNone
  rcases hStep.kept k hLt with hSame | ⟨⟨lost, hLost, hHeld⟩, hNow⟩
  · rw [hSame]
  · rw [hNow, hHeld]
    constructor
    · exact fun h => absurd h (by simp)
    · intro h
      exact absurd (Option.some.inj h ▸ hLost) (Finset.disjoint_left.mp hDisjoint hMem)

variable {k : Nat}
variable {v : Nat}

theorem ScanState.registerOf_setRegister {r : Option Nat} (hOwner : ∀ t, state.owner k ≠ .virtual v t) :
    (setRegister state v r).registerOf k = state.registerOf k := by
  have hSame : (setRegister state v r).owner k = state.owner k := rfl
  rw [ScanState.registerOf, ScanState.registerOf, hSame]
  cases hCase : state.owner k with
  | precolored register => rfl
  | virtual w t =>
    have hNe : w ≠ v := fun hEq => hOwner t (hEq ▸ hCase)
    exact Function.update_of_ne hNe _ _

/-- The value of the interval being handled may be assigned as well. -/
theorem Stepped.setRegister {v : Nat} {t : TypeKind} (hStep : Stepped registers c state state')
    (hDistinct : state.DistinctValues) (hLt : c < state.intervals.length) (hOwner : state.owner c = .virtual v t)
    (r : Option Nat) : Stepped registers c state (setRegister state' v r) where
  kept k hK := by
    have hSame : (Khir.setRegister state' v r).registerOf k = state'.registerOf k := by
      apply ScanState.registerOf_setRegister
      intro t' hVirtual
      rw [hStep.owners k (Nat.ne_of_lt hK)] at hVirtual
      exact Nat.ne_of_lt hK (hDistinct k (hK.trans hLt) c hLt v t' t hVirtual hOwner)
    rw [hSame]
    exact hStep.kept k hK
  owners := hStep.owners
  owner_number := hStep.owner_number
  length := hStep.length
  starts := hStep.starts
  stops := hStep.stops
  changes w hChanged := by
    by_cases hEq : w = v
    · exact ⟨c, le_rfl, t, hEq ▸ hOwner⟩
    · apply hStep.changes w
      intro hSame
      exact hChanged ((Function.update_of_ne hEq _ _).trans hSame)

section

variable (hInv : ScanInvariant f start c now scan)
include hInv

/-- Owners seen during the scan are those of the start, or registers given to stores. -/
theorem ScanInvariant.owner_virtual {t : TypeKind} (h : scan.state.owner k = .virtual v t) :
    start.owner k = .virtual v t := by
  rcases hInv.owners k with hSame | ⟨-, -, r, hPrecolored⟩
  · exact hSame ▸ h
  · rw [hPrecolored] at h
    exact absurd h (by simp)

theorem ScanInvariant.owner_current (hLe : c ≤ k) : scan.state.owner k = start.owner k := by
  rcases hInv.owners k with hSame | ⟨hLt, -⟩
  · exact hSame
  · exact absurd hLt (Nat.not_lt.mpr hLe)

theorem ScanInvariant.distinctValues (hSchedule : Schedule f start) : scan.state.DistinctValues := by
  intro j hJ k hK v t t' hOwnerJ hOwnerK
  rw [hInv.length] at hJ hK
  exact hSchedule.distinct j hJ k hK v t t' (hInv.owner_virtual hOwnerJ) (hInv.owner_virtual hOwnerK)

theorem ScanInvariant.next {normal vector : Pool} {later : Nat} (hSchedule : Schedule f start)
    (hLt : c < start.intervals.length) (hStep : Stepped registers c scan.state state')
    (hRegisters : registers ⊆ normalPool ∪ vectorPool) (hNormal : PoolFits normalPool state' (c + 1) later normal)
    (hVector : PoolFits vectorPool state' (c + 1) later vector)
    (hOwner : state'.owner c = start.owner c ∨ IsStore f start c ∧ ∃ r, state'.owner c = .precolored r)
    (hAssigned : ∀ v t, start.owner c = .virtual v t → state'.assignments v = state'.registerOf c)
    (hRegister : ∀ r, state'.registerOf c = some r → r ∈ normalPool ∪ vectorPool ∨ Flagged f start c r)
    (hFlagged : ∀ r, Flagged f start c r → state'.registerOf c = some r)
    (hClass : ∀ v t r, start.owner c = .virtual v t → ¬ IsStore f start c → state'.registerOf c = some r →
      r ∈ t.pool ∨ Flagged f start c r) :
    ScanInvariant f start (c + 1) later ⟨state', normal, vector⟩ where
  normal := hNormal
  vector := hVector
  length := hStep.length.trans hInv.length
  starts := hStep.starts.trans hInv.starts
  stops := hStep.stops.trans hInv.stops
  owners k := by
    rcases eq_or_ne k c with rfl | hNe
    · rcases hOwner with hSame | ⟨hStore, hPrecolored⟩
      · exact Or.inl hSame
      · exact Or.inr ⟨Nat.lt_succ_self _, hStore, hPrecolored⟩
    · dsimp only
      rw [hStep.owners k hNe]
      exact (hInv.owners k).imp_right fun ⟨hOld, hRest⟩ => ⟨Nat.lt_succ_of_lt hOld, hRest⟩
  assigned k hK v t hVirtual := by
    rcases Nat.lt_succ_iff_lt_or_eq.mp hK with hOld | rfl
    · dsimp only
      rcases hInv.owners k with hSame | ⟨-, -, r, hPrecolored⟩
      · -- the value is still read through its assignment
        rw [ScanState.registerOf, hStep.owners k (Nat.ne_of_lt hOld), hSame, hVirtual]
      · have hAfter : state'.registerOf k = some r := by
          rw [ScanState.registerOf, hStep.owners k (Nat.ne_of_lt hOld), hPrecolored]
        have hBefore : scan.state.registerOf k = some r := by rw [ScanState.registerOf, hPrecolored]
        rw [hAfter, ← hBefore, ← hInv.assigned k hOld v t hVirtual]
        by_contra hChanged
        obtain ⟨j, hLe, t', hJ⟩ := hStep.changes v hChanged
        have hJLt : j < start.intervals.length := by omega
        have hEq := hSchedule.distinct j hJLt k (hOld.trans hLt) v t' t (hInv.owner_virtual hJ) hVirtual
        rw [hEq, hPrecolored] at hJ
        exact absurd hJ (by simp)
    · exact hAssigned v t hVirtual
  unassigned k hLe hK v t hVirtual := by
    dsimp only
    rw [← hInv.unassigned k (Nat.le_of_succ_le hLe) hK v t hVirtual]
    by_contra hChanged
    obtain ⟨j, hJ, t', hOwnerJ⟩ := hStep.changes v hChanged
    have hEq := hSchedule.distinct j (by omega) k hK v t' t (hInv.owner_virtual hOwnerJ) hVirtual
    omega
  registers k hK r hHeld := by
    rcases Nat.lt_succ_iff_lt_or_eq.mp hK with hOld | rfl
    · rcases hStep.kept k hOld with hSame | ⟨-, hNone⟩
      · exact hInv.registers k hOld r (hSame ▸ hHeld)
      · dsimp only at hHeld
        rw [hNone] at hHeld
        exact absurd hHeld (by simp)
    · exact hRegister r hHeld
  flagged k hK r hFlag := by
    rcases Nat.lt_succ_iff_lt_or_eq.mp hK with hOld | rfl
    · have hHeld := hInv.flagged k hOld r hFlag
      rcases hStep.kept k hOld with hSame | ⟨⟨lost, hLost, hOther⟩, -⟩
      · exact hSame.trans hHeld
      · rw [hHeld] at hOther
        exact absurd (hRegisters (Option.some.inj hOther ▸ hLost)) hFlag.not_mem
    · exact hFlagged r hFlag
  classes k hK v t r hVirtual hForm hHeld := by
    rcases Nat.lt_succ_iff_lt_or_eq.mp hK with hOld | rfl
    · rcases hStep.kept k hOld with hSame | ⟨-, hNone⟩
      · exact hInv.classes k hOld v t r hVirtual hForm (hSame ▸ hHeld)
      · exact absurd (hNone.symm.trans hHeld) (by simp)
    · exact hClass v t r hVirtual hForm hHeld

end

end Step

end KushDB.Khir
