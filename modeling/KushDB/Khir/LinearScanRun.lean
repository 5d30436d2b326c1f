import KushDB.Library.Fallible
import KushDB.Khir.LinearScanInvariant

/-! # The run of the allocator

Each kind of interval is handled by one rule: a reserved interval, a compare that may stay in the flags, a store with a
register of its own, any other value. On a schedule every interval is handled without an exception, and the invariant
of the scan holds at the end.
-/

namespace KushDB.Khir

open Fallible RegisterPool List

section Run

variable {f : Function} {choices : Choices} {cost : Nat → Nat} {start : ScanState} {c now : Nat} {scan : Scan}
variable {r j v : Nat} {t : TypeKind}

theorem vRegister_of_mem (h : r ∈ vectorPool) : VRegister.isVRegister r = true := by
  revert r
  decide

theorem gpRegister_of_mem (h : r ∈ normalPool) :
    VRegister.isVRegister r = false ∧ GPRegister.isGPRegister r = true := by
  revert r
  decide

theorem expireScan_invariant (hInv : ScanInvariant f start c now scan) (hNow : now ≤ start.startOf c) :
    ScanInvariant f start c (start.startOf c) (expireScan scan c) ∧
      (∀ k ∈ (expireScan scan c).normal.active, start.startOf c ≤ start.stopOf k) ∧
      ∀ k ∈ (expireScan scan c).vector.active, start.startOf c ≤ start.stopOf k := by
  have hStart : scan.state.startOf c = start.startOf c := by rw [hInv.starts]
  have hNormal := expireOldIntervals_fits (start.startOf c) hInv.normal hNow
  have hVector := expireOldIntervals_fits (start.startOf c) hInv.vector hNow
  rw [expireScan, hStart]
  refine ⟨⟨hNormal.1, hVector.1, hInv.length, hInv.starts, hInv.stops, hInv.owners, hInv.assigned, hInv.unassigned,
    hInv.registers, hInv.flagged, hInv.classes⟩, ?_, ?_⟩
  · intro k hMem
    rw [← hInv.stops]
    exact hNormal.2 k hMem
  · intro k hMem
    rw [← hInv.stops]
    exact hVector.2 k hMem

/-- An active interval overlaps the one being handled. -/
theorem overlap_of_active {registers : Finset Nat} {pool : Pool} (hSchedule : Schedule f start)
    (hLt : c < start.intervals.length) (hFits : PoolFits registers scan.state c now pool)
    (hStop : ∀ k ∈ pool.active, start.startOf c ≤ start.stopOf k) (hProper : start.startOf c ≤ start.stopOf c)
    (hActive : j ∈ pool.active) : j < c ∧ Overlap start.startOf start.stopOf j c := by
  have hOld : j < c := (hFits.held j hActive).1
  exact ⟨hOld, (hSchedule.sorted j c hOld.le hLt).trans hProper, hStop j hActive⟩

theorem not_flagged_of_precolored {r' : Nat} (hOwner : start.owner c = .precolored r) : ¬ Flagged f start c r' := by
  rintro ⟨v, t, hVirtual, -⟩
  rw [hOwner] at hVirtual
  exact absurd hVirtual (by simp)

theorem not_flagged_of_form (hOwner : start.owner c = .virtual v t) (hInt : (f.opcode v).allocForm ≠ .intCompare)
    (hFloat : (f.opcode v).allocForm ≠ .floatCompare) : ¬ Flagged f start c r := by
  rintro ⟨w, t', hVirtual, hFlag, -⟩
  obtain ⟨rfl, -⟩ := Owner.virtual.inj (hOwner.symm.trans hVirtual)
  rcases hFlag with ⟨hForm, -⟩ | ⟨hForm, -⟩
  · exact hInt hForm
  · exact hFloat hForm

/-! ## The two pools -/

def poolRegisters (vector : Bool) : Finset Nat := if vector then vectorPool else normalPool

def Scan.pool (scan : Scan) (vector : Bool) : Pool := if vector then scan.vector else scan.normal

def Scan.withPool (scan : Scan) (vector : Bool) (state : ScanState) (pool : Pool) : Scan :=
  if vector then ⟨state, scan.normal, pool⟩ else ⟨state, pool, scan.vector⟩

theorem poolRegisters_subset (vector : Bool) : poolRegisters vector ⊆ normalPool ∪ vectorPool := by
  revert vector
  decide

theorem poolRegisters_disjoint (vector : Bool) : Disjoint (poolRegisters !vector) (poolRegisters vector) := by
  revert vector
  decide

theorem poolRegisters_nonempty (vector : Bool) : (poolRegisters vector).Nonempty := by
  cases vector with
  | false => exact ⟨1, by decide⟩
  | true => exact ⟨50, by decide⟩

theorem ScanInvariant.fits (hInv : ScanInvariant f start c now scan) (vector : Bool) :
    PoolFits (poolRegisters vector) scan.state c now (scan.pool vector) := by
  cases vector with
  | false => exact hInv.normal
  | true => exact hInv.vector

/-- The interval was handled in one pool. -/
theorem ScanInvariant.nextPool {state' : ScanState} {pool : Pool} {vector : Bool}
    (hInv : ScanInvariant f start c now scan) (hSchedule : Schedule f start) (hLt : c < start.intervals.length)
    (hStep : Stepped (poolRegisters vector) c scan.state state')
    (hFits : PoolFits (poolRegisters vector) state' (c + 1) now pool)
    (hOwner : state'.owner c = start.owner c ∨ IsStore f start c ∧ ∃ r, state'.owner c = .precolored r)
    (hAssigned : ∀ v t, start.owner c = .virtual v t → state'.assignments v = state'.registerOf c)
    (hRegister : ∀ r, state'.registerOf c = some r → r ∈ poolRegisters vector) (hFlagged : ∀ r, ¬ Flagged f start c r)
    (hClass : ∀ v t, start.owner c = .virtual v t → ¬ IsStore f start c → t.isVector = vector) :
    ScanInvariant f start (c + 1) now (scan.withPool vector state' pool) := by
  have hOther : PoolFits (poolRegisters !vector) state' (c + 1) now (scan.pool !vector) :=
    hStep.otherPool (hInv.fits !vector) (poolRegisters_disjoint vector) fun r hMem hHeld =>
      Finset.disjoint_left.mp (poolRegisters_disjoint vector) hMem (hRegister r hHeld)
  have hSubset := poolRegisters_subset vector
  have hPool : ∀ v t r, start.owner c = .virtual v t → ¬ IsStore f start c → state'.registerOf c = some r →
      r ∈ t.pool ∨ Flagged f start c r := by
    intro v t r hVirtual hStore hHeld
    have hMem := hRegister r hHeld
    rw [← hClass v t hVirtual hStore] at hMem
    exact Or.inl hMem
  cases vector with
  | false =>
    exact hInv.next hSchedule hLt hStep hSubset hFits hOther hOwner hAssigned
      (fun r hHeld => Or.inl (hSubset (hRegister r hHeld))) (fun r hFlag => absurd hFlag (hFlagged r)) hPool
  | true =>
    exact hInv.next hSchedule hLt hStep hSubset hOther hFits hOwner hAssigned
      (fun r hHeld => Or.inl (hSubset (hRegister r hHeld))) (fun r hFlag => absurd hFlag (hFlagged r)) hPool

/-- What the scan is about to handle, with both pools holding only intervals that overlap it. -/
structure Ready (f : Function) (start : ScanState) (c : Nat) (scan : Scan) : Prop where
  invariant : ScanInvariant f start c (start.startOf c) scan
  schedule : Schedule f start
  lt : c < start.intervals.length
  normal : ∀ j ∈ scan.normal.active, j < c ∧ Overlap start.startOf start.stopOf j c
  vector : ∀ j ∈ scan.vector.active, j < c ∧ Overlap start.startOf start.stopOf j c

/-- An active interval that is reserved by now overlaps the one being handled, so it was reserved from the start and
the one being handled is not a store. -/
theorem Ready.reserved (h : Ready f start c scan) (hOld : j < c) (hOverlap : Overlap start.startOf start.stopOf j c)
    (hPrecolored : scan.state.owner j = .precolored r) :
    ¬ IsStore f start c ∧ ((∃ r', start.owner c = .precolored r') → start.owner j = .precolored r) := by
  have hApart := h.schedule.store_apart
  rcases h.invariant.owners j with hSame | ⟨-, hStore, -⟩
  · rw [hSame] at hPrecolored
    exact ⟨fun hStore => hApart j (hOld.trans h.lt) c h.lt (Nat.ne_of_lt hOld) hStore (Or.inr ⟨r, hPrecolored⟩) hOverlap,
      fun _ => hPrecolored⟩
  · refine ⟨fun hOther => ?_, fun hFixed => ?_⟩
    · exact hApart j (hOld.trans h.lt) c h.lt (Nat.ne_of_lt hOld) hOther (Or.inl hStore) hOverlap
    · exact absurd ⟨hOverlap.2, hOverlap.1⟩
        (hApart c h.lt j (hOld.trans h.lt) (Nat.ne_of_gt hOld) hStore (Or.inr hFixed))

theorem Ready.length (h : Ready f start c scan) : c < scan.state.intervals.length := by
  rw [h.invariant.length]
  exact h.lt

theorem Ready.fits (h : Ready f start c scan) (vector : Bool) :
    PoolFits (poolRegisters vector) scan.state c (scan.state.startOf c) (scan.pool vector) := by
  rw [h.invariant.starts]
  exact h.invariant.fits vector

theorem Ready.active (h : Ready f start c scan) {vector : Bool} :
    ∀ j ∈ (scan.pool vector).active, j < c ∧ Overlap start.startOf start.stopOf j c := by
  cases vector with
  | false => exact h.normal
  | true => exact h.vector

variable (choices cost)

theorem Ready.fixed (h : Ready f start c scan) (hOwner : start.owner c = .precolored r) :
    ∃ scan', handleInterval f choices cost scan c = .ok scan' ∧
      ScanInvariant f start (c + 1) (start.startOf c) scan' := by
  have hState : scan.state.owner c = .precolored r := (h.invariant.owner_current le_rfl).trans hOwner
  have hConflict : ∀ j, j < c ∧ Overlap start.startOf start.stopOf j c → ∀ r', scan.state.owner j = .precolored r' →
      r' ≠ r := by
    rintro j ⟨hOld, hOverlap⟩ r' hPrecolored rfl
    exact h.schedule.fixed_apart j (hOld.trans h.lt) c h.lt (Nat.ne_of_lt hOld) r'
      ((h.reserved hOld hOverlap hPrecolored).2 ⟨r', hOwner⟩) hOwner hOverlap
  have hAssigned : ∀ (state' : ScanState) v t, start.owner c = .virtual v t →
      state'.assignments v = state'.registerOf c := by
    intro state' v t hVirtual
    exact absurd (hOwner.symm.trans hVirtual) (by simp)
  have hHeld : ∀ state' : ScanState, state'.owner c = .precolored r → ∀ r', state'.registerOf c = some r' → r = r' := by
    intro state' hNew r' hRegister
    rw [ScanState.registerOf, hNew] at hRegister
    exact Option.some.inj hRegister
  have hDistinct := h.invariant.distinctValues h.schedule
  rw [handleInterval, hState]
  dsimp only
  obtain ⟨vector, hMem, hVector⟩ : ∃ vector, r ∈ poolRegisters vector ∧ VRegister.isVRegister r = vector ∧
      (vector = false → GPRegister.isGPRegister r = true) := by
    rcases Finset.mem_union.mp (h.schedule.pools c h.lt r hOwner) with hNormal | hVector
    · exact ⟨false, hNormal, (gpRegister_of_mem hNormal).1, fun _ => (gpRegister_of_mem hNormal).2⟩
    · exact ⟨true, hVector, vRegister_of_mem hVector, by simp⟩
  obtain ⟨state', pool', hAdd, hFits, hStep, hNew⟩ := addPrecoloredInterval_fixed choices cost (h.fits vector) hDistinct
    h.length hState hMem fun j hJ => hConflict j (h.active j hJ)
  rw [h.invariant.starts] at hFits
  refine ⟨scan.withPool vector state' pool', ?_, ?_⟩
  · rw [hVector.1]
    cases vector with
    | false =>
      rw [hVector.2 rfl]
      exact bind_of_ok hAdd
    | true => exact bind_of_ok hAdd
  · exact h.invariant.nextPool h.schedule h.lt hStep hFits (Or.inl (hNew.trans hOwner.symm)) (hAssigned state')
      (fun r' hRegister => hHeld state' hNew r' hRegister ▸ hMem) (fun r' => not_flagged_of_precolored hOwner)
      fun v t hVirtual => absurd (hOwner.symm.trans hVirtual) (by simp)

theorem Ready.compare (h : Ready f start c scan) {flag : Nat} (hOwner : start.owner c = .virtual v t)
    (hForm : (f.opcode v).allocForm = .intCompare ∧ flag = FRegister.iFlag ∨
      (f.opcode v).allocForm = .floatCompare ∧ flag = FRegister.fFlag) :
    ScanInvariant f start (c + 1) (start.startOf c) { scan with state := assignFlag f scan.state c v flag } := by
  have hState : scan.state.owner c = .virtual v t := (h.invariant.owner_current le_rfl).trans hOwner
  have hDistinct := h.invariant.distinctValues h.schedule
  have hFlagIs : ∀ r, Flagged f start c r → r = flag ∧ start.startOf c + 1 = start.stopOf c ∧
      f.opcode (v + 1) = .condbr := by
    rintro r ⟨w, t', hVirtual, hFlag, hStop, hBranch⟩
    obtain ⟨rfl, -⟩ := Owner.virtual.inj (hOwner.symm.trans hVirtual)
    refine ⟨?_, hStop, hBranch⟩
    rcases hForm with ⟨hForm, rfl⟩ | ⟨hForm, rfl⟩
    · rcases hFlag with ⟨-, rfl⟩ | ⟨hOther, -⟩
      · rfl
      · exact absurd (hForm.symm.trans hOther) (by simp)
    · rcases hFlag with ⟨hOther, -⟩ | ⟨-, rfl⟩
      · exact absurd (hForm.symm.trans hOther) (by simp)
      · rfl
  have hStep : Stepped ∅ c scan.state (assignFlag f scan.state c v flag) := by
    unfold assignFlag
    split
    · exact (Stepped.refl _ _ _).setRegister hDistinct h.length hState _
    · exact Stepped.refl _ _ _
  have hSame : (assignFlag f scan.state c v flag).owner c = .virtual v t := by
    unfold assignFlag
    split <;> exact hState
  have hUnfold : (assignFlag f scan.state c v flag).registerOf c = (assignFlag f scan.state c v flag).assignments v := by
    rw [ScanState.registerOf, hSame]
  have hRegisterOf : ∀ r, (assignFlag f scan.state c v flag).registerOf c = some r ↔ Flagged f start c r := by
    intro r
    have hNone : scan.state.assignments v = none := h.invariant.unassigned c le_rfl h.lt v t hOwner
    rw [hUnfold]
    unfold assignFlag
    rw [h.invariant.starts, h.invariant.stops]
    split
    · rename_i hCond
      simp only [setRegister, Function.update_self]
      constructor
      · intro hSome
        obtain rfl := Option.some.inj hSome
        exact ⟨v, t, hOwner, hForm, hCond⟩
      · intro hFlag
        rw [(hFlagIs r hFlag).1]
    · rename_i hCond
      constructor
      · intro hSome
        rw [hNone] at hSome
        exact absurd hSome (by simp)
      · exact fun hFlag => absurd (hFlagIs r hFlag).2 hCond
  have hOutside : ∀ r, (assignFlag f scan.state c v flag).registerOf c = some r → r ∉ normalPool ∪ vectorPool :=
    fun r hSome => ((hRegisterOf r).mp hSome).not_mem
  have hNormal := hStep.otherPool h.invariant.normal (Finset.disjoint_empty_right _)
    fun r hMem hSome => hOutside r hSome (Finset.mem_union_left _ hMem)
  have hVector := hStep.otherPool h.invariant.vector (Finset.disjoint_empty_right _)
    fun r hMem hSome => hOutside r hSome (Finset.mem_union_right _ hMem)
  refine h.invariant.next h.schedule h.lt hStep (Finset.empty_subset _) hNormal hVector ?_ ?_ ?_ ?_ ?_
  · exact Or.inl (hSame.trans hOwner.symm)
  · intro w t' hVirtual
    obtain ⟨rfl, -⟩ := Owner.virtual.inj (hOwner.symm.trans hVirtual)
    exact hUnfold.symm
  · exact fun r hSome => Or.inr ((hRegisterOf r).mp hSome)
  · exact fun r hFlag => (hRegisterOf r).mpr hFlag
  · exact fun w t' r _ _ hSome => Or.inr ((hRegisterOf r).mp hSome)

/-- The facts about a store that hold in both pools. -/
theorem Ready.store_values (h : Ready f start c scan) (hStore : IsStore f start c)
    (hActive : j < c ∧ Overlap start.startOf start.stopOf j c) : ∃ v t, scan.state.owner j = .virtual v t := by
  cases hOwner : scan.state.owner j with
  | precolored r => exact absurd hStore (h.reserved hActive.1 hActive.2 hOwner).1
  | virtual v t => exact ⟨v, t, rfl⟩

theorem Ready.store (h : Ready f start c scan) (hOwner : start.owner c = .virtual v t) {vector : Bool}
    (hForm : (f.opcode v).allocForm = if vector then .maskStore else .store) :
    ∃ scan', handleInterval f choices cost scan c = .ok scan' ∧
      ScanInvariant f start (c + 1) (start.startOf c) scan' := by
  have hState : scan.state.owner c = .virtual v t := (h.invariant.owner_current le_rfl).trans hOwner
  have hStore : IsStore f start c := by
    refine ⟨v, t, hOwner, ?_⟩
    cases vector with
    | false => exact Or.inr hForm
    | true => exact Or.inl hForm
  have hDistinct := h.invariant.distinctValues h.schedule
  have hFlagged : ∀ r, ¬ Flagged f start c r := by
    intro r
    apply not_flagged_of_form hOwner
    · cases vector <;> rw [hForm] <;> simp
    · cases vector <;> rw [hForm] <;> simp
  obtain ⟨state', pool', r, hAdd, hFits, hStep, hMem, hNew⟩ := addPrecoloredInterval_store choices cost (h.fits vector)
    hDistinct h.length hState (poolRegisters_nonempty vector) fun j hJ => h.store_values hStore (h.active j hJ)
  rw [h.invariant.starts] at hFits
  -- the store's own entry of the assignments repeats the register that its interval now reserves
  have hHeld : state'.registerOf c = some r := by rw [ScanState.registerOf, hNew]
  have hKeep : ∀ k < c + 1, (setRegister state' v (state'.registerOf c)).registerOf k = state'.registerOf k := by
    intro k hK
    apply ScanState.registerOf_setRegister
    intro t' hVirtual
    rcases Nat.lt_succ_iff_lt_or_eq.mp hK with hOld | rfl
    · rw [hStep.owners k (Nat.ne_of_lt hOld)] at hVirtual
      exact Nat.ne_of_lt hOld (hDistinct k (hOld.trans h.length) c h.length v t' t hVirtual hState)
    · exact absurd (hNew.symm.trans hVirtual) (by simp)
  have hAfter := (hKeep c (Nat.lt_succ_self _)).trans hHeld
  refine ⟨scan.withPool vector (setRegister state' v (state'.registerOf c)) pool', ?_, ?_⟩
  · rw [handleInterval, hState]
    dsimp only
    rw [hForm]
    cases vector with
    | false => exact bind_of_ok hAdd
    | true => exact bind_of_ok hAdd
  · refine h.invariant.nextPool h.schedule h.lt (hStep.setRegister hDistinct h.length hState _)
      (hFits.congr fun k hK r' _ => by rw [hKeep k hK]) (Or.inr ⟨hStore, r, hNew⟩) ?_ ?_ hFlagged
      fun _ _ _ hNot => absurd hStore hNot
    · intro w t' hVirtual
      obtain ⟨rfl, -⟩ := Owner.virtual.inj (hOwner.symm.trans hVirtual)
      rw [hAfter, setRegister]
      simp [hHeld]
    · exact fun r' hSome => Option.some.inj (hAfter.symm.trans hSome) ▸ hMem

theorem Ready.other (h : Ready f start c scan) (hOwner : start.owner c = .virtual v t)
    (hForm : (f.opcode v).allocForm = .other) :
    ∃ scan', handleInterval f choices cost scan c = .ok scan' ∧
      ScanInvariant f start (c + 1) (start.startOf c) scan' := by
  have hState : scan.state.owner c = .virtual v t := (h.invariant.owner_current le_rfl).trans hOwner
  have hFlagged : ∀ r, ¬ Flagged f start c r := fun r =>
    not_flagged_of_form hOwner (by rw [hForm]; simp) (by rw [hForm]; simp)
  have hType : ∀ w t', start.owner c = .virtual w t' → t' = t := fun w t' hVirtual =>
    (Owner.virtual.inj (hVirtual.symm.trans hOwner)).2
  obtain ⟨vector, hVector⟩ : ∃ vector, t.isVector = vector := ⟨_, rfl⟩
  obtain ⟨state', pool', hSpill, hFits, hStep, hMem, hNew⟩ := spillAtInterval_spec choices cost (h.fits vector)
    (h.invariant.distinctValues h.schedule) h.length hState (poolRegisters_nonempty vector)
  rw [h.invariant.starts] at hFits
  refine ⟨scan.withPool vector state' pool', ?_, ?_⟩
  · rw [handleInterval, hState]
    dsimp only
    rw [hForm]
    dsimp only
    rw [hVector]
    cases vector with
    | false => exact bind_of_ok hSpill
    | true => exact bind_of_ok hSpill
  · refine h.invariant.nextPool h.schedule h.lt hStep hFits (Or.inl (hNew.trans hOwner.symm)) ?_ hMem hFlagged
      fun w t' hVirtual _ => hType w t' hVirtual ▸ hVector
    intro w t' hVirtual
    obtain ⟨rfl, -⟩ := Owner.virtual.inj (hOwner.symm.trans hVirtual)
    rw [ScanState.registerOf, hNew]

theorem Ready.step (h : Ready f start c scan) : ∃ scan', handleInterval f choices cost scan c = .ok scan' ∧
    ScanInvariant f start (c + 1) (start.startOf c) scan' := by
  cases hOwner : start.owner c with
  | precolored r => exact h.fixed choices cost hOwner
  | virtual v t =>
    have hState : scan.state.owner c = .virtual v t := (h.invariant.owner_current le_rfl).trans hOwner
    cases hForm : (f.opcode v).allocForm with
    | intCompare =>
      refine ⟨_, ?_, h.compare hOwner (Or.inl ⟨hForm, rfl⟩)⟩
      rw [handleInterval, hState]
      dsimp only
      rw [hForm]
    | floatCompare =>
      refine ⟨_, ?_, h.compare hOwner (Or.inr ⟨hForm, rfl⟩)⟩
      rw [handleInterval, hState]
      dsimp only
      rw [hForm]
    | maskStore => exact @Ready.store f choices cost start c scan v t h hOwner true hForm
    | store => exact @Ready.store f choices cost start c scan v t h hOwner false hForm
    | other => exact h.other choices cost hOwner hForm

theorem scanInvariant_start (intervals : List LiveInterval) :
    ScanInvariant f ⟨intervals, fun _ => none⟩ 0 0 (initialScan intervals) where
  normal := fits_start _ _ _ _
  vector := fits_start _ _ _ _
  length := rfl
  starts := rfl
  stops := rfl
  owners _ := Or.inl rfl
  assigned k hK := absurd hK (Nat.not_lt_zero k)
  unassigned _ _ _ _ _ _ := rfl
  registers k hK := absurd hK (Nat.not_lt_zero k)
  flagged k hK := absurd hK (Nat.not_lt_zero k)
  classes k hK := absurd hK (Nat.not_lt_zero k)

/-- On a schedule every interval is handled, and the invariant holds at the end. -/
theorem scanSorted_invariant {intervals : List LiveInterval} (hSchedule : Schedule f ⟨intervals, fun _ => none⟩)
    (hProper : ∀ interval ∈ intervals, interval.start ≤ interval.stop) :
    ∃ scan now, scanSorted f choices cost intervals = .ok scan ∧
      ScanInvariant f ⟨intervals, fun _ => none⟩ intervals.length now scan := by
  let start : ScanState := ⟨intervals, fun _ => none⟩
  have hRun : ∀ c ≤ intervals.length, ∃ scan now, (List.range c).foldlM
      (fun scan number => handleInterval f choices cost (expireScan scan number) number) (initialScan intervals) =
        .ok scan ∧ ScanInvariant f start c now scan ∧ ∀ k, c ≤ k → k < intervals.length → now ≤ start.startOf k := by
    intro c
    induction c with
    | zero => exact fun _ => ⟨_, 0, rfl, scanInvariant_start intervals, fun _ _ _ => Nat.zero_le _⟩
    | succ c ih =>
      intro hLe
      obtain ⟨scan, now, hFold, hInv, hNow⟩ := ih (Nat.le_of_succ_le hLe)
      obtain ⟨hExpired, hNormal, hVector⟩ := expireScan_invariant hInv (hNow c le_rfl hLe)
      have hStop : start.startOf c ≤ start.stopOf c := by
        have hGet : start.intervals.getD c ⟨none, .virtual 0 .void⟩ = intervals[c] := by
          rw [getD_eq_getElem?_getD, getElem?_eq_getElem hLe]
          rfl
        rw [ScanState.startOf, ScanState.stopOf, hGet]
        exact hProper _ (getElem_mem hLe)
      have hReady : Ready f start c (expireScan scan c) :=
        ⟨hExpired, hSchedule, hLe, fun j hJ => overlap_of_active hSchedule hLe hExpired.normal hNormal hStop hJ,
          fun j hJ => overlap_of_active hSchedule hLe hExpired.vector hVector hStop hJ⟩
      obtain ⟨scan', hHandle, hNext⟩ := hReady.step choices cost
      refine ⟨scan', start.startOf c, ?_, hNext, fun k hK hLt => hSchedule.sorted c k (by omega) hLt⟩
      rw [range_succ, foldlM_append, hFold]
      have hLast : [c].foldlM (fun scan number => handleInterval f choices cost (expireScan scan number) number) scan =
          Except.ok scan' := by
        rw [foldlM_cons, hHandle]
        rfl
      exact hLast
  obtain ⟨scan, now, hFold, hInv, -⟩ := hRun intervals.length le_rfl
  exact ⟨scan, now, hFold, hInv⟩

end Run

end KushDB.Khir
