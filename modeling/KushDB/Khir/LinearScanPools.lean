import KushDB.Library.RegisterPool
import KushDB.Khir.LinearScanState

/-! # What the operations of the allocator do to a pool

Each operation of the scan is one of the rules of a register pool: expiring, taking a free register, taking away the
register of an active value. An older interval either keeps its register or loses one of this pool. A reserved
register can only be refused when another reserved interval holds it, and a spill for a store can only fail when every
active interval is reserved.
-/

namespace KushDB.Khir

open RegisterPool List

section Operations

variable {registers : Finset Nat} {choices : Choices} {cost : Nat → Nat} {state : ScanState} {pool : Pool}
  {number now : Nat}

abbrev PoolFits (registers : Finset Nat) (state : ScanState) (count now : Nat) (pool : Pool) : Prop :=
  Fits registers state.startOf state.stopOf state.registerOf count now pool.free pool.active

variable {active : List Nat} {j v : Nat} {t : TypeKind}

theorem expireOldIntervals_fits (start : Nat) {free : Finset Nat}
    (hFits : PoolFits registers state number now ⟨free, active⟩) (hNow : now ≤ start) :
    PoolFits registers state number start (expireOldIntervals state start free active) ∧
      ∀ k ∈ (expireOldIntervals state start free active).active, start ≤ state.stopOf k := by
  induction active generalizing free now with
  | nil => exact ⟨hFits.later hNow, fun k hMem => absurd hMem not_mem_nil⟩
  | cons j rest ih =>
    rw [expireOldIntervals]
    split
    · rename_i hStop
      refine ⟨hFits.later hNow, fun k hMem => ?_⟩
      rcases mem_cons.mp hMem with rfl | hRest
      · exact hStop
      · exact hStop.le.trans ((pairwise_cons.mp hFits.sorted).1 k hRest)
    · rename_i hStop
      obtain ⟨-, r, -, hHeld, -⟩ := hFits.held j mem_cons_self
      have hUnion : free ∪ (state.registerOf j).toFinset = insert r free := by
        rw [hHeld]
        simp
      rw [hUnion]
      have hRelease := (hFits.later hNow).release mem_cons_self hHeld (.inr ⟨rfl, by omega⟩) fun _ _ _ => rfl
      rw [erase_cons_head] at hRelease
      exact ih hRelease le_rfl

theorem cheapest_mem {bound : Option Nat} (h : cheapest cost state bound active = some j) :
    j ∈ active ∧ ∃ v t, state.owner j = .virtual v t := by
  induction active generalizing bound j with
  | nil => exact absurd h (by simp [cheapest])
  | cons k rest ih =>
    rw [cheapest] at h
    split at h
    · exact ⟨mem_cons_of_mem _ (ih h).1, (ih h).2⟩
    · rename_i v t hOwner
      split at h
      · cases hRest : cheapest cost state (some (cost v)) rest with
        | none =>
          rw [hRest] at h
          obtain rfl : k = j := Option.some.inj h
          exact ⟨mem_cons_self, v, t, hOwner⟩
        | some other =>
          rw [hRest] at h
          obtain rfl : other = j := Option.some.inj h
          exact ⟨mem_cons_of_mem _ (ih hRest).1, (ih hRest).2⟩
      · exact ⟨mem_cons_of_mem _ (ih h).1, (ih h).2⟩

theorem cheapest_isSome (cost : Nat → Nat) (hMem : j ∈ active) (hOwner : state.owner j = .virtual v t) :
    ∃ k, cheapest cost state none active = some k := by
  induction active with
  | nil => exact absurd hMem not_mem_nil
  | cons k rest ih =>
    rw [cheapest]
    split
    · rename_i r hPrecolored
      apply ih
      rcases mem_cons.mp hMem with rfl | hRest
      · rw [hOwner] at hPrecolored
        exact absurd hPrecolored (by simp)
      · exact hRest
    · rw [if_pos (by simp)]
      exact ⟨_, rfl⟩

/-- A spilled interval gives its register back to the pool. -/
theorem spill_fits (hFits : PoolFits registers state number now pool) (hDistinct : state.DistinctValues)
    (hNumber : number < state.intervals.length) (hActive : j ∈ pool.active) (hOwner : state.owner j = .virtual v t) :
    ∃ r, state.registerOf j = some r ∧ (spill state pool j).2.free = insert r pool.free ∧
      PoolFits registers (spill state pool j).1 number now (spill state pool j).2 ∧
      Stepped registers number state (spill state pool j).1 := by
  obtain ⟨hLt, r, hMem, hHeld, -⟩ := hFits.held j hActive
  have hUnion : pool.free ∪ (state.registerOf j).toFinset = insert r pool.free := by
    rw [hHeld]
    simp
  refine ⟨r, hHeld, hUnion, ?_, ?_⟩
  · have hRelease := hFits.release hActive hHeld (.inl (ScanState.registerOf_assign_self none hOwner))
      fun k hK hNe => ScanState.registerOf_assign_of_ne hDistinct (by omega) (by omega) hNe none
    have hStart : (state.assign j none).startOf = state.startOf := funext fun k => ScanState.startOf_assign j k none
    simp only [PoolFits, spill, hUnion, hStart, ScanState.stopOf_assign]
    exact hRelease
  · exact stepped_assign hDistinct hNumber hLt.le fun _ => ⟨⟨r, hMem, hHeld⟩, rfl⟩

variable {r : Nat}

/-- The interval being handled takes a free register. -/
theorem occupy_fits (choices : Choices) {state' : ScanState}
    (hFits : PoolFits registers state number now pool) (hNow : now ≤ state.startOf number) (hFree : r ∈ pool.free)
    (hStep : Stepped registers number state state') (hKept : ∀ k < number, state'.registerOf k = state.registerOf k)
    (hHeld : state'.registerOf number = some r) :
    PoolFits registers state' (number + 1) now (occupy choices state pool number r) := by
  have hCongr : PoolFits registers state' number now pool := by
    rw [PoolFits, hStep.starts, hStep.stops]
    exact hFits.congr fun k hLt r _ => by rw [hKept k hLt]
  refine hCongr.take hFree (by rwa [hStep.starts]) hHeld (choices.insert_perm _ _ _) ?_
  rw [hStep.stops]
  exact choices.insert_sorted _ _ _ hFits.sorted

variable (choices cost)

section

variable (hFits : PoolFits registers state number (state.startOf number) pool) (hDistinct : state.DistinctValues)
  (hNumber : number < state.intervals.length)
include hFits hDistinct hNumber

theorem addPrecoloredInterval_fixed (hOwner : state.owner number = .precolored r) (hRegister : r ∈ registers)
    (hConflict : ∀ j ∈ pool.active, ∀ r', state.owner j = .precolored r' → r' ≠ r) :
    ∃ state' pool', addPrecoloredInterval choices cost state pool number = .ok (state', pool') ∧
      PoolFits registers state' (number + 1) (state.startOf number) pool' ∧ Stepped registers number state state' ∧
      state'.owner number = .precolored r := by
  have hSelf : ∀ other : ScanState, other.owner number = .precolored r → other.registerOf number = some r := by
    intro other hOther
    rw [ScanState.registerOf, hOther]
  rw [addPrecoloredInterval, hOwner]
  dsimp only
  by_cases hFree : r ∈ pool.free
  · rw [if_pos hFree]
    refine ⟨_, _, rfl, ?_, Stepped.refl _ _ _, hOwner⟩
    exact occupy_fits choices hFits le_rfl hFree (Stepped.refl _ _ _) (fun _ _ => rfl) (hSelf state hOwner)
  · rw [if_neg hFree]
    obtain ⟨k, hActive, hHeld⟩ := hFits.cover r hRegister hFree
    cases hFind : pool.active.find? fun j => state.registerOf j == some r with
    | none => exact absurd (find?_eq_none.mp hFind k hActive) (by simp [hHeld])
    | some j =>
      have hJ : j ∈ pool.active := mem_of_find?_eq_some hFind
      have hHeldJ : state.registerOf j = some r := by simpa using find?_some hFind
      cases hOwnerJ : state.owner j with
      | precolored r' =>
        rw [ScanState.registerOf, hOwnerJ] at hHeldJ
        exact absurd (Option.some.inj hHeldJ) (hConflict j hJ r' hOwnerJ)
      | virtual v t =>
        have hNot : state.isPrecolored j = false := by rw [ScanState.isPrecolored, hOwnerJ]
        dsimp only
        rw [if_neg (by rw [hNot]; decide)]
        obtain ⟨r', hSame, hFreed, hSpill, hStep⟩ := spill_fits hFits hDistinct hNumber hJ hOwnerJ
        obtain rfl : r' = r := Option.some.inj (hSame.symm.trans hHeldJ)
        refine ⟨_, _, rfl, ?_, hStep, by rw [ScanState.owner_assign, hOwner]⟩
        -- taking the register back out of the enlarged free set leaves the free set as it was
        have hTaken := occupy_fits choices hSpill (congrFun hStep.starts number).ge (hFreed ▸ Finset.mem_insert_self _ _)
          (Stepped.refl _ _ _) (fun _ _ => rfl) (hSelf _ (by rw [spill, ScanState.owner_assign, hOwner]))
        rw [occupy, hFreed, Finset.erase_insert hFree] at hTaken
        simp only [spill, ScanState.stopOf_assign] at hTaken
        exact hTaken

/-- A store gets a register of its own: a free one, or that of an active value. -/
theorem addPrecoloredInterval_store (hOwner : state.owner number = .virtual v t) (hRegisters : registers.Nonempty)
    (hValues : ∀ j ∈ pool.active, ∃ v t, state.owner j = .virtual v t) :
    ∃ state' pool' r, addPrecoloredInterval choices cost state pool number = .ok (state', pool') ∧
      PoolFits registers state' (number + 1) (state.startOf number) pool' ∧ Stepped registers number state state' ∧
      r ∈ registers ∧ state'.owner number = .precolored r := by
  have hChange : ∀ (other : ScanState) (r : Nat), number < other.intervals.length →
      (∀ k < number, (other.changeToPrecolored number r).registerOf k = other.registerOf k) ∧
      (other.changeToPrecolored number r).registerOf number = some r ∧
      (other.changeToPrecolored number r).owner number = .precolored r := by
    intro other r hLt
    refine ⟨fun k hK => ?_, ?_, ?_⟩
    · rw [ScanState.registerOf_changeToPrecolored number r k hLt, if_neg (Nat.ne_of_lt hK)]
    · rw [ScanState.registerOf_changeToPrecolored number r number hLt, if_pos rfl]
    · rw [ScanState.owner_changeToPrecolored number r number hLt, if_pos rfl]
  rw [addPrecoloredInterval, hOwner]
  dsimp only
  by_cases hFree : pool.free.Nonempty
  · rw [if_pos hFree]
    have hPick := choices.pick_mem number pool.free hFree
    obtain ⟨hKept, hHeld, hNew⟩ := hChange state (choices.pick number pool.free) hNumber
    have hStep := stepped_changeToPrecolored registers (choices.pick number pool.free) hNumber
    exact ⟨_, _, _, rfl, occupy_fits choices hFits le_rfl hPick hStep hKept hHeld, hStep, hFits.free_sub hPick, hNew⟩
  · rw [if_neg hFree]
    obtain ⟨r, hRegister⟩ := hRegisters
    obtain ⟨k, hActive, -⟩ := hFits.cover r hRegister fun hMem => hFree ⟨r, hMem⟩
    obtain ⟨w, t', hOwnerK⟩ := hValues k hActive
    obtain ⟨j, hCheapest⟩ := cheapest_isSome cost hActive hOwnerK
    obtain ⟨hJ, w, t', hOwnerJ⟩ := cheapest_mem hCheapest
    obtain ⟨r, hHeldJ, hFreed, hSpill, hStep⟩ := spill_fits hFits hDistinct hNumber hJ hOwnerJ
    have hMin : spillMinCost cost state pool = .ok (r, spill state pool j) := by
      have hSome : pool.active.isEmpty = false := by
        rw [isEmpty_eq_false_iff]
        exact ne_nil_of_mem hActive
      rw [spillMinCost, if_neg (by rw [hSome]; decide), hCheapest]
      simp [hHeldJ]
    rw [hMin]
    have hLength : number < (spill state pool j).1.intervals.length := by rw [hStep.length]; exact hNumber
    obtain ⟨hKept, hHeld, hNew⟩ := hChange (spill state pool j).1 r hLength
    have hStep' := stepped_changeToPrecolored registers r hLength
    have hMem : r ∈ (spill state pool j).2.free := hFreed ▸ Finset.mem_insert_self _ _
    exact ⟨_, _, r, rfl, occupy_fits choices hSpill (congrFun hStep.starts number).ge hMem hStep' hKept hHeld,
      hStep.trans hStep', hSpill.free_sub hMem, hNew⟩

/-- A value gets a free register, the register of a cheaper value, or none. -/
theorem spillAtInterval_spec (hOwner : state.owner number = .virtual v t) (hRegisters : registers.Nonempty) :
    ∃ state' pool', spillAtInterval choices cost state pool number v = .ok (state', pool') ∧
      PoolFits registers state' (number + 1) (state.startOf number) pool' ∧ Stepped registers number state state' ∧
      (∀ r, state'.registerOf number = some r → r ∈ registers) ∧ state'.owner number = .virtual v t := by
  have hAssign : ∀ (other : ScanState) (r : Option Nat), other.DistinctValues → number < other.intervals.length →
      other.owner number = .virtual v t → (∀ k < number, (other.assign number r).registerOf k = other.registerOf k) ∧
      (other.assign number r).registerOf number = r ∧ Stepped registers number other (other.assign number r) := by
    intro other r hOther hLt hVirtual
    refine ⟨fun k hK => ?_, ?_, ?_⟩
    · exact ScanState.registerOf_assign_of_ne hOther (hK.trans hLt) hLt (Nat.ne_of_lt hK) r
    · exact ScanState.registerOf_assign_self r hVirtual
    · exact stepped_assign hOther hLt le_rfl fun hSelf => absurd hSelf (Nat.lt_irrefl _)
  rw [spillAtInterval]
  by_cases hFree : pool.free.Nonempty
  · rw [if_pos hFree]
    have hPick := choices.pick_mem number pool.free hFree
    obtain ⟨hKept, hHeld, hStep⟩ := hAssign state (some (choices.pick number pool.free)) hDistinct hNumber hOwner
    refine ⟨_, _, rfl, occupy_fits choices hFits le_rfl hPick hStep hKept hHeld, hStep, fun r hSome => ?_, ?_⟩
    · rw [hHeld] at hSome
      exact Option.some.inj hSome ▸ hFits.free_sub hPick
    · rw [ScanState.owner_assign, hOwner]
  · rw [if_neg hFree]
    obtain ⟨r, hRegister⟩ := hRegisters
    obtain ⟨k, hActive, -⟩ := hFits.cover r hRegister fun hMem => hFree ⟨r, hMem⟩
    have hSome : pool.active.isEmpty = false := by
      rw [isEmpty_eq_false_iff]
      exact ne_nil_of_mem hActive
    cases hCheapest : cheapest cost state (some (cost v)) pool.active with
    | none =>
      have hMaybe : maybeSpillMinCost cost state pool (cost v) = .ok none := by
        rw [maybeSpillMinCost, if_neg (by rw [hSome]; decide), hCheapest]
      obtain ⟨hKept, hHeld, hStep⟩ := hAssign state none hDistinct hNumber hOwner
      rw [hMaybe]
      refine ⟨_, _, rfl, ?_, hStep, fun r hSome => ?_, by rw [ScanState.owner_assign, hOwner]⟩
      · rw [PoolFits, hStep.starts, hStep.stops]
        refine Fits.skip (hFits.congr fun k hLt r _ => by rw [hKept k hLt]) fun r _ => ?_
        rw [hHeld]
        simp
      · rw [hHeld] at hSome
        exact absurd hSome (by simp)
    | some j =>
      obtain ⟨hJ, w, t', hOwnerJ⟩ := cheapest_mem hCheapest
      obtain ⟨r, hHeldJ, hFreed, hSpill, hStep⟩ := spill_fits hFits hDistinct hNumber hJ hOwnerJ
      have hMaybe : maybeSpillMinCost cost state pool (cost v) = .ok (some (r, spill state pool j)) := by
        rw [maybeSpillMinCost, if_neg (by rw [hSome]; decide), hCheapest]
        simp [hHeldJ]
      have hLength : number < (spill state pool j).1.intervals.length := by rw [hStep.length]; exact hNumber
      obtain ⟨hKept, hHeld, hStep'⟩ := hAssign (spill state pool j).1 (some r) (hStep.distinctValues hDistinct) hLength
        (by rw [spill, ScanState.owner_assign, hOwner])
      have hMem : r ∈ (spill state pool j).2.free := hFreed ▸ Finset.mem_insert_self _ _
      rw [hMaybe]
      refine ⟨_, _, rfl, occupy_fits choices hSpill (congrFun hStep.starts number).ge hMem hStep' hKept hHeld,
        hStep.trans hStep', fun r' hSome => ?_, ?_⟩
      · change ((spill state pool j).1.assign number (some r)).registerOf number = some r' at hSome
        rw [hHeld] at hSome
        exact Option.some.inj hSome ▸ hSpill.free_sub hMem
      · simp only [ScanState.owner_assign]
        exact hOwner

end

end Operations

end KushDB.Khir
