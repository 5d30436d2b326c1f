import KushDB.Library.Fallible
import KushDB.Khir.LiveIntervals

/-! # The passes of the liveness analysis

The first pass over the blocks either meets an instruction that cannot be read or collects the exposed reads of every
block. The backward pass over a block ends in what is live before it, and it widens the interval of a value to every
place before or after which the value is live in the sets of the pass.
-/

namespace KushDB.Khir

open Fallible Liveness List

section Passes

theorem mapM_error {α β : Type} {g : α → Except String β} {items : List α}
    (hItems : ∃ item ∈ items, ∃ message, g item = .error message) :
    ∃ item ∈ items, ∃ message, g item = .error message ∧ items.mapM g = .error message := by
  induction items with
  | nil => exact absurd hItems (by simp)
  | cons item rest ih =>
    cases hItem : g item with
    | error message => exact ⟨item, mem_cons_self, message, hItem, by rw [mapM_cons, hItem]; rfl⟩
    | ok result =>
      obtain ⟨other, hOther, message, hMessage⟩ := hItems
      have hRest : other ∈ rest := by
        rcases mem_cons.mp hOther with rfl | hRest
        · rw [hItem] at hMessage
          exact absurd hMessage (by simp)
        · exact hRest
      obtain ⟨first, hFirst, message, hError, hMap⟩ := ih ⟨other, hRest, message, hMessage⟩
      exact ⟨first, mem_cons_of_mem _ hFirst, message, hError, by rw [mapM_cons, hItem, hMap]; rfl⟩

variable {f : Function}
variable {points : List (Nat × Nat)} {b : Nat}

theorem external_fold_ok (state : Finset Nat × Finset Nat)
    (hReads : ∀ point ∈ points, ∃ reads, readsAt f point = .ok reads) :
    points.foldlM (externalStep f) state =
      Except.ok (state.1 ∪ exposed state.2 (points.map (stepAt f)), state.2 ∪ defs (points.map (stepAt f))) := by
  induction points generalizing state with
  | nil => simp [exposed, defs, pure, Except.pure]
  | cons point rest ih =>
    obtain ⟨reads, hPoint⟩ := hReads point mem_cons_self
    have hStep : (stepAt f point).reads = reads := by
      rw [stepAt, readValues, hPoint]
    have hDefs : defs ((point :: rest).map (stepAt f)) = (stepAt f point).written ∪ defs (rest.map (stepAt f)) := rfl
    have hExposed : exposed state.2 ((point :: rest).map (stepAt f)) =
        (reads.toFinset \ state.2) ∪ exposed (state.2 ∪ (stepAt f point).written) (rest.map (stepAt f)) := by
      rw [map_cons, exposed, hStep]
    rw [foldlM_cons, externalStep, hPoint]
    refine (ih _ fun other hOther => hReads other (mem_cons_of_mem _ hOther)).trans ?_
    rw [hDefs, hExposed, Finset.union_assoc, Finset.union_assoc]
    rfl

theorem external_fold_error (state : Finset Nat × Finset Nat)
    (hReads : ∃ point ∈ points, ∃ message, readsAt f point = .error message) :
    ∃ point ∈ points, ∃ message, readsAt f point = .error message ∧
      points.foldlM (externalStep f) state = .error message := by
  induction points generalizing state with
  | nil => exact absurd hReads (by simp)
  | cons point rest ih =>
    cases hPoint : readsAt f point with
    | error message =>
      refine ⟨point, mem_cons_self, message, hPoint, ?_⟩
      rw [foldlM_cons, externalStep, hPoint]
      rfl
    | ok reads =>
      obtain ⟨other, hOther, message, hMessage⟩ := hReads
      have hRest : other ∈ rest := by
        rcases mem_cons.mp hOther with rfl | hRest
        · rw [hPoint] at hMessage
          exact absurd hMessage (by simp)
        · exact hRest
      obtain ⟨first, hFirst, message, hError, hFold⟩ := ih _ ⟨other, hRest, message, hMessage⟩
      refine ⟨first, mem_cons_of_mem _ hFirst, message, hError, ?_⟩
      rw [foldlM_cons, externalStep, hPoint]
      exact hFold

theorem addExternalUses_cases (f : Function) (b : Nat) :
    (∃ point ∈ (f.block b).points, ∃ message, readsAt f point = .error message ∧
      addExternalUses f b = .error message) ∨
    (∀ point ∈ (f.block b).points, ∃ reads, readsAt f point = .ok reads) ∧
      addExternalUses f b = .ok (exposed ∅ ((flowGraph f).steps b), defs ((flowGraph f).steps b)) := by
  by_cases hError : ∃ point ∈ (f.block b).points, ∃ message, readsAt f point = .error message
  · exact Or.inl (external_fold_error _ hError)
  · right
    have hReads : ∀ point ∈ (f.block b).points, ∃ reads, readsAt f point = .ok reads := by
      intro point hPoint
      cases hRead : readsAt f point with
      | error message => exact absurd ⟨point, hPoint, message, hRead⟩ hError
      | ok reads => exact ⟨reads, rfl⟩
    refine ⟨hReads, ?_⟩
    rw [addExternalUses, external_fold_ok _ hReads, Finset.empty_union, Finset.empty_union]
    rfl

theorem block_of_le (hBlock : f.basicBlocks.length ≤ b) : f.block b = default := by
  rw [Body.block, getD_eq_getElem?_getD, getElem?_eq_none hBlock]
  rfl

theorem steps_of_le (hBlock : f.basicBlocks.length ≤ b) : (flowGraph f).steps b = [] := by
  simp only [flowGraph, block_of_le hBlock]
  rfl

/-- Every instruction of the function can be read. -/
def Readable (f : Function) : Prop :=
  ∀ b < f.basicBlocks.length, ∀ point ∈ (f.block b).points, ∃ reads, readsAt f point = .ok reads

theorem uses_of_readable (hReadable : Readable f) :
    ∃ uses, (List.range f.basicBlocks.length).mapM (addExternalUses f) = .ok uses ∧
      (fun b => (uses.map Prod.fst).getD b ∅) = fun b => exposed ∅ ((flowGraph f).steps b) := by
  have hUses : ∀ b ∈ List.range f.basicBlocks.length, addExternalUses f b =
      .ok (exposed ∅ ((flowGraph f).steps b), defs ((flowGraph f).steps b)) := by
    intro b hMem
    rcases addExternalUses_cases f b with ⟨point, hPoint, message, hError, -⟩ | ⟨-, hOk⟩
    · obtain ⟨reads, hRead⟩ := hReadable b (mem_range.mp hMem) point hPoint
      exact absurd (hRead.symm.trans hError) (by simp)
    · exact hOk
  refine ⟨_, mapM_eq_pure hUses, funext fun b => ?_⟩
  by_cases hBlock : b < f.basicBlocks.length
  · simp [getD_eq_getElem?_getD, hBlock]
  · simp [exposed, getD_eq_getElem?_getD, steps_of_le (not_lt.mp hBlock), hBlock]

/-- The error of an instruction that cannot be read is the outcome of the first pass. -/
theorem uses_of_not_readable (hReadable : ¬ Readable f) :
    ∃ b < f.basicBlocks.length, ∃ point ∈ (f.block b).points, ∃ message, readsAt f point = .error message ∧
      (List.range f.basicBlocks.length).mapM (addExternalUses f) = .error message := by
  have hError : ∃ b ∈ List.range f.basicBlocks.length, ∃ message, addExternalUses f b = .error message := by
    by_contra hNone
    refine hReadable fun b hBlock => ?_
    rcases addExternalUses_cases f b with ⟨_, _, message, _, hMessage⟩ | ⟨hReads, -⟩
    · exact absurd ⟨b, mem_range.mpr hBlock, message, hMessage⟩ hNone
    · exact hReads
  obtain ⟨b, hMem, message, hUses, hMap⟩ := mapM_error hError
  rcases addExternalUses_cases f b with ⟨point, hPoint, other, hRead, hOther⟩ | ⟨-, hOk⟩
  · obtain rfl : other = message := Except.error.inj (hOther.symm.trans hUses)
    exact ⟨b, mem_range.mp hMem, point, hPoint, other, hRead, hMap⟩
  · exact absurd (hOk.symm.trans hUses) (by simp)

end Passes

section Covers

theorem LiveInterval.contains_extend (interval : LiveInterval) (x : Nat) : (interval.extend x).contains x := by
  unfold LiveInterval.extend
  split
  · exact ⟨x, x, rfl, le_rfl, le_rfl⟩
  · rename_i first last _
    exact ⟨min first x, max last x, rfl, min_le_right _ _, le_max_right _ _⟩

theorem LiveInterval.contains.extend {interval : LiveInterval} {x : Nat} (h : interval.contains x) (y : Nat) :
    (interval.extend y).contains x := by
  obtain ⟨first, last, hRange, hFirst, hLast⟩ := h
  unfold LiveInterval.extend
  rw [hRange]
  exact ⟨min first y, max last y, rfl, (min_le_left _ _).trans hFirst, hLast.trans (le_max_left _ _)⟩

/-- The interval of the value in the vector contains the position. -/
def Covers (intervals : List LiveInterval) (v x : Nat) : Prop :=
  ∃ interval, intervals[v]? = some interval ∧ interval.contains x

theorem extendAll_getElem? (live : Finset Nat) (position : Nat) (intervals : List LiveInterval) (v : Nat) :
    (extendAll live position intervals)[v]? =
      intervals[v]?.map fun interval => if v ∈ live then interval.extend position else interval := by
  rw [extendAll, getElem?_mapIdx]

theorem length_extendAll (live : Finset Nat) (position : Nat) (intervals : List LiveInterval) :
    (extendAll live position intervals).length = intervals.length := by
  rw [extendAll, length_mapIdx]

theorem Covers.extendAll {intervals : List LiveInterval} {v x : Nat} (h : Covers intervals v x) (live : Finset Nat)
    (position : Nat) : Covers (extendAll live position intervals) v x := by
  obtain ⟨interval, hGet, hContains⟩ := h
  refine ⟨_, by rw [extendAll_getElem?, hGet, Option.map_some], ?_⟩
  split
  · exact hContains.extend position
  · exact hContains

variable {intervals : List LiveInterval} {v : Nat}

theorem covers_extendAll {live : Finset Nat} (hLive : v ∈ live) (hLt : v < intervals.length) (position : Nat) :
    Covers (extendAll live position intervals) v position := by
  refine ⟨_, by rw [extendAll_getElem?, getElem?_eq_getElem hLt, Option.map_some], ?_⟩
  rw [if_pos hLive]
  exact LiveInterval.contains_extend _ _

variable {f : Function}

theorem scan_fst (b : Nat) (points : List (Nat × Nat)) (out : Finset Nat) (intervals : List LiveInterval) :
    (points.foldr (scanStep f b) (out, intervals)).1 = before (points.map (stepAt f)) out := by
  induction points with
  | nil => rfl
  | cons point rest ih => rw [foldr_cons, scanStep, ih, map_cons, before_cons]

theorem length_scan (b : Nat) (points : List (Nat × Nat)) (out : Finset Nat) (intervals : List LiveInterval) :
    (points.foldr (scanStep f b) (out, intervals)).2.length = intervals.length := by
  induction points with
  | nil => rfl
  | cons point rest ih => rw [foldr_cons, scanStep, length_extendAll, length_extendAll, ih]

theorem Covers.scan {x : Nat} (h : Covers intervals v x) (b : Nat) (points : List (Nat × Nat)) (out : Finset Nat) :
    Covers (points.foldr (scanStep f b) (out, intervals)).2 v x := by
  induction points with
  | nil => exact h
  | cons point rest ih => exact (ih.extendAll _ _).extendAll _ _

/-- A value that is live before or after a point is widened to the place of that point. -/
theorem covers_scan {b k : Nat} {points : List (Nat × Nat)} {point : Nat × Nat} {out : Finset Nat}
    (hLt : v < intervals.length) (hPoint : points[k]? = some point)
    (hLive : v ∈ before ((points.map (stepAt f)).drop k) out ∨ v ∈ before ((points.map (stepAt f)).drop (k + 1)) out) :
    Covers (points.foldr (scanStep f b) (out, intervals)).2 v (f.position b point.2) := by
  induction points generalizing k with
  | nil => exact absurd hPoint (by simp)
  | cons head rest ih =>
    rw [foldr_cons, scanStep]
    cases k with
    | zero =>
      obtain rfl : head = point := by simpa using hPoint
      rcases hLive with hBefore | hAfter
      · apply covers_extendAll _ (by rw [length_extendAll, length_scan]; exact hLt)
        rw [scan_fst]
        exact hBefore
      · apply Covers.extendAll
        apply covers_extendAll _ (by rw [length_scan]; exact hLt)
        rw [scan_fst]
        exact hAfter
    | succ k =>
      apply Covers.extendAll
      apply Covers.extendAll
      exact ih (by simpa using hPoint) hLive

end Covers

section Blocks

variable {f : Function}
variable {liveIn : Nat → Finset Nat}

theorem scanBlock_ok {b : Nat} (intervals : List LiveInterval)
    (hFixed : before ((flowGraph f).steps b) ((flowGraph f).liveOut liveIn b) = liveIn b) :
    scanBlock f liveIn intervals b =
      .ok ((f.block b).points.foldr (scanStep f b) ((flowGraph f).liveOut liveIn b, intervals)).2 := by
  have hFst := scan_fst (f := f) b (f.block b).points ((flowGraph f).liveOut liveIn b) intervals
  rw [scanBlock, if_neg]
  rw [hFst, not_not]
  exact hFixed

/-- The passes over the blocks never fail, keep what was covered and cover what is live in each block. -/
theorem scanBlocks (blocks : List Nat) (intervals : List LiveInterval)
    (hFixed : ∀ b ∈ blocks, before ((flowGraph f).steps b) ((flowGraph f).liveOut liveIn b) = liveIn b) :
    ∃ result, blocks.foldlM (scanBlock f liveIn) intervals = .ok result ∧ result.length = intervals.length ∧
      (∀ v x, Covers intervals v x → Covers result v x) ∧
      ∀ b ∈ blocks, ∀ v < intervals.length, ∀ k point, (f.block b).points[k]? = some point →
        (v ∈ before (((flowGraph f).steps b).drop k) ((flowGraph f).liveOut liveIn b) ∨
          v ∈ before (((flowGraph f).steps b).drop (k + 1)) ((flowGraph f).liveOut liveIn b)) →
        Covers result v (f.position b point.2) := by
  induction blocks generalizing intervals with
  | nil => exact ⟨intervals, rfl, rfl, fun _ _ h => h, fun b hMem => absurd hMem not_mem_nil⟩
  | cons b rest ih =>
    have hBlock := scanBlock_ok intervals (hFixed b mem_cons_self)
    obtain ⟨result, hFold, hLength, hKeep, hCovers⟩ :=
      ih ((f.block b).points.foldr (scanStep f b) ((flowGraph f).liveOut liveIn b, intervals)).2
        fun c hMem => hFixed c (mem_cons_of_mem _ hMem)
    rw [length_scan] at hLength hCovers
    refine ⟨result, ?_, hLength, fun v x h => hKeep v x (h.scan b _ _), ?_⟩
    · rw [foldlM_cons, hBlock]
      exact hFold
    · intro c hMem v hLt k point hPoint hLive
      rcases mem_cons.mp hMem with rfl | hRest
      · exact hKeep v _ (covers_scan hLt hPoint hLive)
      · exact hCovers c hRest v hLt k point hPoint hLive

end Blocks

end KushDB.Khir
