import KushDB.Khir.LivenessPasses

/-! # Live intervals cover every place where a value is live

The worklist ends in the least solution of the liveness equations, so the check of the backward pass never fails. A
value that some path still reads is in the sets of the pass at that point, so its interval is widened to the places
before and after the point; the fixed intervals that are added later leave it there.
-/

namespace KushDB.Khir

open Fallible Liveness List

section Sound

variable {f : Function}

/-- The liveness equations of the function, solved, with nothing in the sets that another solution lacks. -/
def LeastFixpoint (f : Function) (liveIn : Nat → Finset Nat) : Prop :=
  (∀ b < f.basicBlocks.length, liveIn b = exposed ∅ ((flowGraph f).steps b) ∪
    ((flowGraph f).liveOut liveIn b \ defs ((flowGraph f).steps b))) ∧
  ∀ other : Nat → Finset Nat, (∀ b < f.basicBlocks.length, other b = exposed ∅ ((flowGraph f).steps b) ∪
    ((flowGraph f).liveOut other b \ defs ((flowGraph f).steps b))) →
    ∀ b < f.basicBlocks.length, liveIn b ⊆ other b

/-- Where a path still reads a value before anything writes it, the places before and after the point are in the
interval of the value. -/
def SoundIntervals (f : Function) (intervals : List LiveInterval) : Prop :=
  ∀ v < f.instrs.length, ∀ b < f.basicBlocks.length, ∀ k, (flowGraph f).LiveAt v b k →
    ∀ point, (f.block b).points[k]? = some point ∨ 0 < k ∧ (f.block b).points[k - 1]? = some point →
      Covers intervals v (f.position b point.2)

variable {liveIn : Nat → Finset Nat} {rounds : Nat} {body : Body} {message : String}

theorem leastFixpoint_of_least (hLeast : (flowGraph f).LeastSolution liveIn) : LeastFixpoint f liveIn := by
  constructor
  · intro b hBlock
    rw [← before_eq]
    exact (before_eq_of_least hLeast hBlock).symm
  · intro other hOther b hBlock
    -- outside the blocks the other family is not constrained, and nothing is demanded there
    let inside : Nat → Finset Nat := fun c => if c < f.basicBlocks.length then other c else ∅
    have hInside : (flowGraph f).Solution inside := by
      constructor
      · intro c
        by_cases hLt : c < f.basicBlocks.length
        · simp only [inside, if_pos hLt]
          rw [hOther c hLt]
          exact Finset.subset_union_left
        · simp only [steps_of_le (not_lt.mp hLt), exposed]
          exact Finset.empty_subset _
      · intro c hLt
        have hOut : (flowGraph f).liveOut inside c ⊆ (flowGraph f).liveOut other c := by
          apply liveOut_mono _ hLt
          intro d hMem
          simp only [inside, if_pos (show d < f.basicBlocks.length from hMem), subset_refl]
        have hRight : inside c = other c := if_pos hLt
        rw [hRight, hOther c hLt]
        exact (Finset.sdiff_subset_sdiff hOut (subset_refl _)).trans Finset.subset_union_right
    have hSub := hLeast.least inside hInside b hBlock
    rwa [show inside b = other b from if_pos hBlock] at hSub

/-- With enough rounds the data flow of a readable function ends, and it ends in the least solution. -/
theorem liveInSets_of_readable (hReadable : Readable f) :
    ∃ enough, ∀ rounds, enough < rounds → ∃ liveIn, liveInSets f rounds = .ok liveIn ∧
      (flowGraph f).LeastSolution liveIn := by
  obtain ⟨uses, hUses, hExposed⟩ := uses_of_readable hReadable
  have hDemands := (flowGraph f).demands f.wellFormed.predecessors_lt f.wellFormed.edges
  have hStart : ∀ b < f.basicBlocks.length, exposed ∅ ((flowGraph f).steps b) ⊆
      (Finset.range f.basicBlocks.length).biUnion fun c => exposed ∅ ((flowGraph f).steps c) :=
    fun b hBlock => Finset.subset_biUnion_of_mem (fun c => exposed ∅ ((flowGraph f).steps c))
      (Finset.mem_range.mpr hBlock)
  have hAll : ∀ b < f.basicBlocks.length, b ∈ (List.range f.basicBlocks.length).reverse :=
    fun b hBlock => mem_reverse.mpr (mem_range.mpr hBlock)
  have hPending : ∀ b ∈ (List.range f.basicBlocks.length).reverse, b < f.basicBlocks.length :=
    fun b hMem => mem_range.mp (mem_reverse.mp hMem)
  obtain ⟨enough, hEnough⟩ := Worklist.run_spec hDemands hStart hAll hPending
  refine ⟨enough, fun rounds hRounds => ?_⟩
  obtain ⟨liveIn, hRun, hLeast⟩ := hEnough rounds hRounds
  have hLiveIn : computeLiveIn f rounds (uses.map Prod.fst) = some liveIn := by
    rw [computeLiveIn, hExposed]
    exact hRun
  refine ⟨liveIn, ?_, hLeast⟩
  rw [liveInSets, hUses]
  simp only [bind, Except.bind, hLiveIn]

theorem liveInSets_of_not_readable (hReadable : ¬ Readable f) (rounds : Nat) :
    ∃ b < f.basicBlocks.length, ∃ point ∈ (f.block b).points, ∃ message, readsAt f point = .error message ∧
      liveInSets f rounds = .error message := by
  obtain ⟨b, hBlock, point, hPoint, message, hRead, hUses⟩ := uses_of_not_readable hReadable
  refine ⟨b, hBlock, point, hPoint, message, hRead, ?_⟩
  rw [liveInSets, hUses]
  rfl

theorem scanIntervals_sound (hLeast : (flowGraph f).LeastSolution liveIn) :
    ∃ intervals, (List.range f.basicBlocks.length).foldlM (scanBlock f liveIn) (initialIntervals f) = .ok intervals ∧
      intervals.length = f.instrs.length ∧ SoundIntervals f intervals := by
  have hLength : (initialIntervals f).length = f.instrs.length := by
    rw [initialIntervals, length_mapIdx]
  obtain ⟨intervals, hFold, hSame, -, hCovers⟩ := scanBlocks (List.range f.basicBlocks.length) (initialIntervals f)
    fun b hMem => before_eq_of_least hLeast (mem_range.mp hMem)
  refine ⟨intervals, hFold, hSame.trans hLength, ?_⟩
  intro v hValue b hBlock k hLive point hPoint
  have hMem := mem_before_of_liveAt hLeast.toSolution hLive hBlock
  rcases hPoint with hPoint | ⟨hPos, hPoint⟩
  · exact hCovers b (mem_range.mpr hBlock) v (hLength.symm ▸ hValue) k point hPoint (Or.inl hMem)
  · refine hCovers b (mem_range.mpr hBlock) v (hLength.symm ▸ hValue) (k - 1) point hPoint (Or.inr ?_)
    rw [Nat.sub_add_cancel hPos]
    exact hMem

variable {x more : Nat} {output : List LiveInterval} {materialize : Nat → Bool} {v : Value}

theorem Covers.modify {intervals : List LiveInterval} {v : Nat} (h : Covers intervals v x) (i : Nat)
    {change : LiveInterval → LiveInterval}
    (hChange : ∀ interval : LiveInterval, interval.contains x → (change interval).contains x) :
    Covers (intervals.modify i change) v x := by
  obtain ⟨interval, hGet, hContains⟩ := h
  rw [Covers, getElem?_modify, hGet]
  by_cases hEq : i = v
  · exact ⟨change interval, by simp [hEq], hChange interval hContains⟩
  · exact ⟨interval, by simp [hEq], hContains⟩

theorem Covers.extendStores {intervals : List LiveInterval} {v x : Nat} (h : Covers intervals v x) :
    Covers (extendStores f intervals) v x := by
  rw [Khir.extendStores]
  induction f.places generalizing intervals with
  | nil => exact h
  | cons place rest ih =>
    rw [foldl_cons]
    apply ih
    split
    · exact h.modify place.2 fun interval hContains => hContains.extend _
    · exact h

theorem Covers.clobberStep {state : ClobberState} {v x : Nat} (h : Covers state.intervals v x) (place : Nat × Nat) :
    Covers (clobberStep f state place).intervals v x := by
  unfold Khir.clobberStep
  split
  · split <;>
    · dsimp only
      split
      · exact h.modify place.2 fun interval hContains => hContains
      · exact h
  · exact h
  · exact h
  · exact h

theorem Covers.clobbers {state : ClobberState} {v : Nat} (h : Covers state.intervals v x) (places : List (Nat × Nat)) :
    Covers (places.foldl (Khir.clobberStep f) state).intervals v x := by
  induction places generalizing state with
  | nil => exact h
  | cons place rest ih => exact ih (h.clobberStep place)

theorem computeLiveIntervals_eq_ok (hOutput : computeLiveIntervals f rounds = .ok output) :
    ∃ scanned parameters, scanIntervals f rounds = .ok scanned ∧ funcArgIntervals f f.instrs 0 0 0 = .ok parameters ∧
      output = ((addClobbers f (extendStores f scanned)).intervals ++ parameters ++
        (addClobbers f (extendStores f scanned)).fixed).filter fun interval => !interval.undef := by
  rw [computeLiveIntervals] at hOutput
  obtain ⟨scanned, hScanned, hOutput⟩ := bind_ok hOutput
  obtain ⟨parameters, hParameters, hOutput⟩ := bind_ok hOutput
  exact ⟨scanned, parameters, hScanned, hParameters, (Except.ok.inj hOutput).symm⟩

theorem liveInSets_mono (h : liveInSets f rounds = .ok liveIn) (hLe : rounds ≤ more) :
    liveInSets f more = .ok liveIn := by
  rw [liveInSets] at h
  obtain ⟨uses, hUses, h⟩ := bind_ok h
  split at h
  · exact absurd h (by simp)
  case h_2 sets hSets =>
    have hMore : computeLiveIn f more (uses.map Prod.fst) = some sets := Worklist.run_mono hSets hLe
    rw [liveInSets, hUses]
    simp only [bind, Except.bind, hMore]
    exact h

theorem computeLiveIntervals_mono (h : computeLiveIntervals f rounds = .ok output) (hLe : rounds ≤ more) :
    computeLiveIntervals f more = .ok output := by
  rw [computeLiveIntervals, scanIntervals] at h ⊢
  obtain ⟨scanned, hScanned, h⟩ := bind_ok h
  obtain ⟨liveIn, hSets, hScanned⟩ := bind_ok hScanned
  rw [liveInSets_mono hSets hLe]
  change ((List.range f.basicBlocks.length).foldlM (scanBlock f liveIn) (initialIntervals f) >>= _) = _
  rw [hScanned]
  exact h

theorem SoundIntervals.widened {scanned : List LiveInterval} (hSound : SoundIntervals f scanned) :
    SoundIntervals f (addClobbers f (extendStores f scanned)).intervals := by
  intro v hValue b hBlock k hLive point hPoint
  have hCovers := (hSound v hValue b hBlock k hLive point hPoint).extendStores (f := f)
  have hState : Covers (ClobberState.mk (extendStores f scanned) [] 0 0).intervals v (f.position b point.2) := hCovers
  exact hState.clobbers f.places

theorem getReadValuesGEP_error {i : Nat} (h : getReadValuesGEP body i = .error message) :
    message ≠ "Invalid liveness" := by
  unfold getReadValuesGEP at h
  split at h
  case h_1 | h_2 =>
    dsimp only at h
    split at h
    · exact Except.error.inj h ▸ by decide
    · exact absurd h (by simp)
  case h_3 => exact Except.error.inj h ▸ by decide

theorem materialized_error {text : String} (h : materialized body materialize text v = .error message) :
    message = text := by
  unfold materialized at h
  split at h
  · exact (Except.error.inj h).symm
  · exact absurd h (by simp)

theorem address_error (h : address body materialize v = .error message) : message ≠ "Invalid liveness" := by
  unfold address at h
  split at h
  · exact getReadValuesGEP_error h
  · exact absurd h (by simp)

theorem bind_error {α β : Type} {x : Except String α} {g : α → Except String β} (h : (x >>= g) = .error message) :
    x = .error message ∨ ∃ a, g a = .error message := by
  cases x with
  | error other => exact Or.inl (congrArg _ (Except.error.inj h))
  | ok a => exact Or.inr ⟨a, h⟩

theorem readsAt_error {point : Nat × Nat} (h : readsAt f point = .error message) : message ≠ "Invalid liveness" := by
  have hText : ∀ {text : String} {v : Value}, materialized f.toBody f.computeGEPMaterialize text v = .error message →
      text ≠ "Invalid liveness" → message ≠ "Invalid liveness" :=
    fun hError hNe => materialized_error hError ▸ hNe
  unfold readsAt getReadValues at h
  dsimp only at h
  split at h
  case h_2 | h_4 | h_6 | h_10 => exact hText h (by decide)
  case h_5 | h_7 => exact address_error h
  case h_8 | h_14 =>
    obtain hError | ⟨_, hRest⟩ := bind_error h
    · exact address_error hError
    · obtain hError | ⟨_, hRest⟩ := bind_error hRest
      · exact hText hError (by decide)
      · exact absurd hRest (by simp [pure, Except.pure])
  case h_11 =>
    obtain hError | ⟨_, hRest⟩ := bind_error h
    · exact hText hError (by decide)
    · exact absurd hRest (by simp [pure, Except.pure])
  case h_13 =>
    split at h
    · exact getReadValuesGEP_error h
    · exact absurd h (by simp)
  all_goals exact absurd h (by simp)

end Sound

end KushDB.Khir
