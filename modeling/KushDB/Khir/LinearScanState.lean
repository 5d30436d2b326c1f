import KushDB.Khir.LinearScan

/-! # Registers of intervals during the scan

The register of an interval is the reserved one or the one assigned to its value. Handling an interval may take away
registers of older intervals and may reserve a register for the interval itself; it changes nothing else.
-/

namespace KushDB.Khir

open List

section State

variable {state : ScanState}

/-- No two intervals belong to the same value. -/
def ScanState.DistinctValues (state : ScanState) : Prop :=
  ∀ j < state.intervals.length, ∀ k < state.intervals.length, ∀ v t t', state.owner j = .virtual v t →
    state.owner k = .virtual v t' → j = k

@[simp]
theorem ScanState.owner_assign (k j : Nat) (r : Option Nat) : (state.assign k r).owner j = state.owner j := by
  unfold ScanState.assign
  split <;> rfl

@[simp]
theorem ScanState.intervals_assign (k : Nat) (r : Option Nat) : (state.assign k r).intervals = state.intervals := by
  unfold ScanState.assign
  split <;> rfl

@[simp]
theorem ScanState.startOf_assign (k j : Nat) (r : Option Nat) : (state.assign k r).startOf j = state.startOf j := by
  rw [ScanState.startOf, ScanState.intervals_assign, ScanState.startOf]

@[simp]
theorem ScanState.stopOf_assign (k : Nat) (r : Option Nat) : (state.assign k r).stopOf = state.stopOf := by
  funext j
  rw [ScanState.stopOf, ScanState.intervals_assign, ScanState.stopOf]

variable {k : Nat}

theorem ScanState.registerOf_assign_self {v : Nat} {t : TypeKind} (r : Option Nat)
    (hOwner : state.owner k = .virtual v t) : (state.assign k r).registerOf k = r := by
  rw [ScanState.registerOf, ScanState.owner_assign, hOwner]
  simp [ScanState.assign, hOwner]

theorem ScanState.registerOf_assign_of_ne {j : Nat} (hDistinct : state.DistinctValues) (hJ : j < state.intervals.length)
    (hK : k < state.intervals.length) (hNe : j ≠ k) (r : Option Nat) :
    (state.assign k r).registerOf j = state.registerOf j := by
  rw [ScanState.registerOf, ScanState.owner_assign, ScanState.registerOf]
  cases hOwnerJ : state.owner j with
  | precolored register => rfl
  | virtual w t =>
    dsimp only
    cases hOwnerK : state.owner k with
    | precolored register => simp [ScanState.assign, hOwnerK]
    | virtual v t' =>
      have hValue : w ≠ v := by
        rintro rfl
        exact hNe (hDistinct j hJ k hK w t t' hOwnerJ hOwnerK)
      simp [ScanState.assign, hOwnerK, Function.update_of_ne hValue]

theorem ScanState.getD_changeToPrecolored (k r j : Nat) :
    (state.changeToPrecolored k r).intervals.getD j ⟨none, .virtual 0 .void⟩ =
      if j = k ∧ k < state.intervals.length then
        (state.intervals.getD j ⟨none, .virtual 0 .void⟩).changeToPrecolored r
      else state.intervals.getD j ⟨none, .virtual 0 .void⟩ := by
  rw [ScanState.changeToPrecolored, getD_eq_getElem?_getD, getD_eq_getElem?_getD, getElem?_modify]
  by_cases hEq : j = k
  · subst hEq
    by_cases hLt : j < state.intervals.length
    · simp [hLt]
    · simp [hLt]
  · simp [hEq, Ne.symm hEq]

@[simp]
theorem ScanState.startOf_changeToPrecolored (k r j : Nat) :
    (state.changeToPrecolored k r).startOf j = state.startOf j := by
  rw [ScanState.startOf, ScanState.getD_changeToPrecolored, ScanState.startOf]
  split <;> rfl

@[simp]
theorem ScanState.stopOf_changeToPrecolored (k r : Nat) : (state.changeToPrecolored k r).stopOf = state.stopOf := by
  funext j
  rw [ScanState.stopOf, ScanState.getD_changeToPrecolored, ScanState.stopOf]
  split <;> rfl

theorem ScanState.owner_changeToPrecolored (k r j : Nat) (hK : k < state.intervals.length) :
    (state.changeToPrecolored k r).owner j = if j = k then .precolored r else state.owner j := by
  rw [ScanState.owner, ScanState.getD_changeToPrecolored, ScanState.owner]
  by_cases hEq : j = k
  · rw [if_pos ⟨hEq, hK⟩, if_pos hEq]
    rfl
  · rw [if_neg fun h => hEq h.1, if_neg hEq]

theorem ScanState.registerOf_changeToPrecolored (k r j : Nat) (hK : k < state.intervals.length) :
    (state.changeToPrecolored k r).registerOf j = if j = k then some r else state.registerOf j := by
  rw [ScanState.registerOf, ScanState.owner_changeToPrecolored k r j hK]
  by_cases hEq : j = k
  · simp [hEq]
  · rw [if_neg hEq, if_neg hEq, ScanState.registerOf]
    rfl

end State

section Stepped

/-- What handling one interval may change: an older interval keeps its register or loses one of the pool, owners and
ranges stay, and only values of intervals met so far are assigned anew. -/
structure Stepped (registers : Finset Nat) (number : Nat) (state state' : ScanState) : Prop where
  kept : ∀ k < number, state'.registerOf k = state.registerOf k ∨
    (∃ r ∈ registers, state.registerOf k = some r) ∧ state'.registerOf k = none
  owners : ∀ k, k ≠ number → state'.owner k = state.owner k
  owner_number : state'.owner number = state.owner number ∨ ∃ r, state'.owner number = .precolored r
  length : state'.intervals.length = state.intervals.length
  starts : state'.startOf = state.startOf
  stops : state'.stopOf = state.stopOf
  changes : ∀ v, state'.assignments v ≠ state.assignments v → ∃ j ≤ number, ∃ t, state.owner j = .virtual v t

variable {registers : Finset Nat} {number : Nat} {state state' state'' : ScanState}

theorem Stepped.refl (registers : Finset Nat) (number : Nat) (state : ScanState) :
    Stepped registers number state state :=
  ⟨fun _ _ => Or.inl rfl, fun _ _ => rfl, Or.inl rfl, rfl, rfl, rfl, fun _ h => absurd rfl h⟩

theorem Stepped.trans (h : Stepped registers number state state') (h' : Stepped registers number state' state'') :
    Stepped registers number state state'' where
  kept k hLt := by
    rcases h'.kept k hLt with hSame | ⟨⟨r, hMem, hHeld⟩, hNone⟩
    · rw [hSame]
      exact h.kept k hLt
    · rcases h.kept k hLt with hFirst | ⟨-, hLost⟩
      · exact Or.inr ⟨⟨r, hMem, hFirst ▸ hHeld⟩, hNone⟩
      · rw [hLost] at hHeld
        exact absurd hHeld (by simp)
  owners k hNe := (h'.owners k hNe).trans (h.owners k hNe)
  owner_number := by
    rcases h'.owner_number with hSame | hPrecolored
    · rw [hSame]
      exact h.owner_number
    · exact Or.inr hPrecolored
  length := h'.length.trans h.length
  starts := h'.starts.trans h.starts
  stops := h'.stops.trans h.stops
  changes v hChanged := by
    by_cases hSame : state'.assignments v = state.assignments v
    · obtain ⟨j, hLe, t, hOwner⟩ := h'.changes v (hSame ▸ hChanged)
      refine ⟨j, hLe, t, ?_⟩
      rcases eq_or_ne j number with rfl | hNe
      · rcases h.owner_number with hOld | ⟨r, hPrecolored⟩
        · exact hOld ▸ hOwner
        · rw [hPrecolored] at hOwner
          exact absurd hOwner (by simp)
      · exact h.owners j hNe ▸ hOwner
    · exact h.changes v hSame

theorem stepped_assign {j : Nat} {r : Option Nat} (hDistinct : state.DistinctValues)
    (hNumber : number < state.intervals.length) (hLe : j ≤ number)
    (hLost : j < number → (∃ r ∈ registers, state.registerOf j = some r) ∧ r = none) :
    Stepped registers number state (state.assign j r) where
  kept k hLt := by
    rcases eq_or_ne k j with rfl | hNe
    · cases hOwner : state.owner k with
      | precolored register =>
        left
        simp [ScanState.registerOf, hOwner]
      | virtual v t =>
        right
        rw [ScanState.registerOf_assign_self r hOwner]
        exact hLost hLt
    · exact Or.inl (ScanState.registerOf_assign_of_ne hDistinct (by omega) (by omega) hNe r)
  owners k _ := ScanState.owner_assign j k r
  owner_number := Or.inl (ScanState.owner_assign j number r)
  length := by rw [ScanState.intervals_assign]
  starts := funext fun k => ScanState.startOf_assign j k r
  stops := ScanState.stopOf_assign j r
  changes v hChanged := by
    cases hOwner : state.owner j with
    | precolored register => exact absurd (by simp [ScanState.assign, hOwner]) hChanged
    | virtual w t =>
      have hValue : v = w := by
        by_contra hNe
        exact hChanged (by simp [ScanState.assign, hOwner, Function.update_of_ne hNe])
      exact ⟨j, hLe, t, hValue ▸ hOwner⟩

theorem stepped_changeToPrecolored (registers : Finset Nat) (r : Nat) (hNumber : number < state.intervals.length) :
    Stepped registers number state (state.changeToPrecolored number r) where
  kept k hLt := by
    rw [ScanState.registerOf_changeToPrecolored number r k hNumber, if_neg (Nat.ne_of_lt hLt)]
    exact Or.inl rfl
  owners k hNe := by rw [ScanState.owner_changeToPrecolored number r k hNumber, if_neg hNe]
  owner_number := Or.inr ⟨r, by rw [ScanState.owner_changeToPrecolored number r number hNumber, if_pos rfl]⟩
  length := by rw [ScanState.changeToPrecolored, length_modify]
  starts := funext fun k => ScanState.startOf_changeToPrecolored number r k
  stops := ScanState.stopOf_changeToPrecolored number r
  changes _ hChanged := absurd rfl hChanged

theorem Stepped.distinctValues (h : Stepped registers number state state') (hDistinct : state.DistinctValues) :
    state'.DistinctValues := by
  have hOwner : ∀ k v t, state'.owner k = .virtual v t → state.owner k = .virtual v t := by
    intro k v t hVirtual
    rcases eq_or_ne k number with rfl | hNe
    · rcases h.owner_number with hSame | ⟨r, hPrecolored⟩
      · exact hSame ▸ hVirtual
      · rw [hPrecolored] at hVirtual
        exact absurd hVirtual (by simp)
    · exact h.owners k hNe ▸ hVirtual
  intro j hJ k hK v t t' hOwnerJ hOwnerK
  rw [h.length] at hJ hK
  exact hDistinct j hJ k hK v t t' (hOwner j v t hOwnerJ) (hOwner k v t' hOwnerK)

end Stepped

end KushDB.Khir
