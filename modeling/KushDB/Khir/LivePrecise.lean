import KushDB.Khir.LivenessSound

/-! # Live intervals reach no further than liveness

An interval starts and ends at places where its value is live before or after the instruction, so it is exactly the
hull of the places touched by the liveness of the value along the paths of the graph.
-/

namespace KushDB.Khir

open Liveness List

/-- The value is live, in the sense of paths, before or after the instruction at the position. -/
def Touched (f : Function) (v p : Nat) : Prop :=
  ∃ b < f.basicBlocks.length, ∃ k, (flowGraph f).LiveAt v b k ∧ ∃ point,
    ((f.block b).points[k]? = some point ∨ 0 < k ∧ (f.block b).points[k - 1]? = some point) ∧
      f.position b point.2 = p

structure LiveInterval.Hull (touched : Nat → Prop) (interval : LiveInterval) : Prop where
  covers : ∀ p, touched p → interval.contains p
  ends : ∀ first last, interval.range = some (first, last) → first ≤ last ∧ touched first ∧ touched last

/-- The vector of the scan: one interval for each instruction, the hull of what its value touches. -/
def ExactIntervals (f : Function) (intervals : List LiveInterval) : Prop :=
  intervals.length = f.instrs.length ∧ ∀ v < f.instrs.length, ∃ interval, intervals[v]? = some interval ∧
    interval.owner = .virtual v (f.instr v).typeOf ∧ interval.Hull (Touched f v)

section Ends

variable {f : Function}

def EndsTouched (f : Function) (intervals : List LiveInterval) : Prop :=
  ∀ v interval, intervals[v]? = some interval → interval.owner = .virtual v (f.instr v).typeOf ∧
    ∀ first last, interval.range = some (first, last) → first ≤ last ∧ Touched f v first ∧ Touched f v last

theorem EndsTouched.extendAll {intervals : List LiveInterval} {live : Finset Nat} {p : Nat}
    (h : EndsTouched f intervals) (hLive : ∀ v ∈ live, Touched f v p) :
    EndsTouched f (extendAll live p intervals) := by
  intro v interval hGet
  rw [extendAll_getElem?] at hGet
  obtain ⟨old, hOld, rfl⟩ := Option.map_eq_some_iff.mp hGet
  obtain ⟨hOwner, hEnds⟩ := h v old hOld
  by_cases hMem : v ∈ live
  · rw [if_pos hMem]
    have hTouched := hLive v hMem
    cases hRange : old.range with
    | none =>
      simp only [LiveInterval.extend, hRange]
      refine ⟨hOwner, fun first last hEq => ?_⟩
      obtain ⟨rfl, rfl⟩ := Prod.mk.inj (Option.some.inj hEq)
      exact ⟨le_rfl, hTouched, hTouched⟩
    | some range =>
      obtain ⟨a, b⟩ := range
      obtain ⟨hLe, hA, hB⟩ := hEnds a b hRange
      simp only [LiveInterval.extend, hRange]
      refine ⟨hOwner, fun first last hEq => ?_⟩
      obtain ⟨rfl, rfl⟩ := Prod.mk.inj (Option.some.inj hEq)
      refine ⟨(min_le_left _ _).trans (hLe.trans (le_max_left _ _)), ?_, ?_⟩
      · rcases min_choice a p with hMin | hMin <;> rw [hMin] <;> assumption
      · rcases max_choice b p with hMax | hMax <;> rw [hMax] <;> assumption
  · rw [if_neg hMem]
    exact ⟨hOwner, hEnds⟩

variable {intervals : List LiveInterval} {liveIn : Nat → Finset Nat}

/-- The induction is on the rest of the block, from its end. -/
theorem EndsTouched.scan {b : Nat} (hLeast : (flowGraph f).LeastSolution liveIn)
    (hBlock : b < f.basicBlocks.length) (h : EndsTouched f intervals) (rest : List (Nat × Nat)) {k : Nat}
    (hRest : (f.block b).points.drop k = rest) :
    EndsTouched f (rest.foldr (scanStep f b) ((flowGraph f).liveOut liveIn b, intervals)).2 := by
  induction rest generalizing k with
  | nil => exact h
  | cons point rest ih =>
    have hLt : k < (f.block b).points.length := by
      by_contra hNot
      rw [drop_eq_nil_of_le (not_lt.mp hNot)] at hRest
      exact absurd hRest (cons_ne_nil _ _).symm
    rw [drop_eq_getElem_cons hLt] at hRest
    obtain ⟨hPoint, hTail⟩ := List.cons.inj hRest
    have hGet : (f.block b).points[k]? = some point := by
      rw [getElem?_eq_getElem hLt, hPoint]
    have hSteps : ∀ j, ((flowGraph f).steps b).drop j = ((f.block b).points.drop j).map (stepAt f) :=
      fun j => map_drop.symm
    have hLength : ((flowGraph f).steps b).length = (f.block b).points.length := length_map _
    have hAfter : before (rest.map (stepAt f)) ((flowGraph f).liveOut liveIn b) =
        before (((flowGraph f).steps b).drop (k + 1)) ((flowGraph f).liveOut liveIn b) := by
      rw [hSteps, hTail]
    have hBefore : before ((point :: rest).map (stepAt f)) ((flowGraph f).liveOut liveIn b) =
        before (((flowGraph f).steps b).drop k) ((flowGraph f).liveOut liveIn b) := by
      rw [hSteps, drop_eq_getElem_cons hLt, hPoint, hTail]
    rw [foldr_cons, scanStep]
    dsimp only
    apply EndsTouched.extendAll
    · apply EndsTouched.extendAll (ih hTail)
      intro v hMem
      rw [scan_fst, hAfter, mem_before_iff hLeast hBlock (by omega)] at hMem
      exact ⟨b, hBlock, k + 1, hMem, point, Or.inr ⟨Nat.succ_pos k, hGet⟩, rfl⟩
    · intro v hMem
      rw [scan_fst, ← before_cons, ← map_cons, hBefore, mem_before_iff hLeast hBlock (by omega)] at hMem
      exact ⟨b, hBlock, k, hMem, point, Or.inl hGet, rfl⟩

theorem endsTouched_initial (f : Function) : EndsTouched f (initialIntervals f) := by
  intro v interval hGet
  rw [initialIntervals, getElem?_mapIdx] at hGet
  obtain ⟨instr, hInstr, rfl⟩ := Option.map_eq_some_iff.mp hGet
  have hEq : f.instr v = instr := by
    rw [Body.instr, getD_eq_getElem?_getD, hInstr]
    rfl
  exact ⟨by rw [hEq], fun first last hRange => absurd hRange (by simp)⟩

theorem EndsTouched.scanBlocks (hLeast : (flowGraph f).LeastSolution liveIn)
    (blocks : List Nat) (hBlocks : ∀ b ∈ blocks, b < f.basicBlocks.length) {result : List LiveInterval}
    (h : EndsTouched f intervals) (hFold : blocks.foldlM (scanBlock f liveIn) intervals = .ok result) :
    EndsTouched f result := by
  induction blocks generalizing intervals with
  | nil => exact Except.ok.inj hFold ▸ h
  | cons b rest ih =>
    have hBlock := hBlocks b mem_cons_self
    rw [foldlM_cons, scanBlock_ok intervals (before_eq_of_least hLeast hBlock)] at hFold
    exact ih (fun c hMem => hBlocks c (mem_cons_of_mem _ hMem))
      (h.scan hLeast hBlock (f.block b).points drop_zero) hFold

end Ends

/-- With enough rounds the scan of a readable function gives the exact hulls. -/
theorem scanIntervals_of_readable {f : Function} (hReadable : Readable f) : ∃ enough, ∀ rounds, enough < rounds →
    ∃ scanned, scanIntervals f rounds = .ok scanned ∧ ExactIntervals f scanned := by
  obtain ⟨enough, hEnough⟩ := liveInSets_of_readable hReadable
  refine ⟨enough, fun rounds hRounds => ?_⟩
  obtain ⟨liveIn, hSets, hLeast⟩ := hEnough rounds hRounds
  obtain ⟨scanned, hFold, hLength, hSound⟩ := scanIntervals_sound hLeast
  have hEnds := (endsTouched_initial f).scanBlocks hLeast (List.range f.basicBlocks.length)
    (fun b hMem => mem_range.mp hMem) hFold
  refine ⟨scanned, by rw [scanIntervals, hSets]; exact hFold, hLength, fun v hValue => ?_⟩
  have hGet := getElem?_eq_getElem (hLength.symm ▸ hValue)
  obtain ⟨hOwner, hEndsV⟩ := hEnds v _ hGet
  refine ⟨_, hGet, hOwner, ⟨?_, hEndsV⟩⟩
  rintro p ⟨b, hBlock, k, hLive, point, hPoint, rfl⟩
  obtain ⟨interval, hSame, hContains⟩ := hSound v hValue b hBlock k hLive point hPoint
  obtain rfl := Option.some.inj (hGet.symm.trans hSame)
  exact hContains

end KushDB.Khir
