import KushDB.Khir.Emitter
import KushDB.Khir.CallArgLiveness

/-! # The arguments put aside at a call

Arguments are put aside while code is emitted, across segments and blocks, and the next call takes all of them. Since
an argument is always followed by the next one or by its call, a call finds the arguments that stand directly before it
and nothing is left over at the end of a block, in whatever order the blocks are emitted.
-/

namespace KushDB.Khir

open List

section Points

variable {first i : Nat}

theorem points_first (segments : List (Nat × Nat))
    (hPoint : (segments.flatMap fun segment => (segmentIndices segment).map fun i => (segment.1, i))[0]? =
      some (first, i)) : i = first := by
  induction segments with
  | nil => exact absurd hPoint (by simp)
  | cons segment rest ih =>
    rw [flatMap_cons] at hPoint
    rcases Nat.eq_zero_or_pos (segment.2 + 1 - segment.1) with hEmpty | hPos
    · rw [segmentIndices, hEmpty] at hPoint
      exact ih hPoint
    · rw [getElem?_append_left (by simpa [segmentIndices] using hPos), getElem?_map, segmentIndices,
        getElem?_range' hPos] at hPoint
      obtain ⟨rfl, rfl⟩ := Prod.mk.inj (Option.some.inj hPoint)
      rfl

/-- The next instruction of a block follows in the same segment or starts a new one. -/
theorem points_next (segments : List (Nat × Nat)) {k first' i' : Nat}
    (hHere : (segments.flatMap fun segment => (segmentIndices segment).map fun i => (segment.1, i))[k]? =
      some (first, i))
    (hNext : (segments.flatMap fun segment => (segmentIndices segment).map fun i => (segment.1, i))[k + 1]? =
      some (first', i')) : first' = first ∧ i' = i + 1 ∨ i' = first' := by
  induction segments generalizing k with
  | nil => exact absurd hHere (by simp)
  | cons segment rest ih =>
    rw [flatMap_cons] at hHere hNext
    have hLength : ((segmentIndices segment).map fun i => (segment.1, i)).length = segment.2 + 1 - segment.1 := by
      simp [segmentIndices]
    have hIndex : ∀ {j}, j < segment.2 + 1 - segment.1 →
        ((segmentIndices segment).map fun i => (segment.1, i))[j]? = some (segment.1, segment.1 + j) := by
      intro j hJ
      rw [getElem?_map, segmentIndices, getElem?_range' hJ, Nat.one_mul]
      rfl
    rcases Nat.lt_or_ge (k + 1) (segment.2 + 1 - segment.1) with hLt | hGe
    · rw [getElem?_append_left (by omega), hIndex (by omega)] at hHere
      rw [getElem?_append_left (by omega), hIndex hLt] at hNext
      obtain ⟨rfl, rfl⟩ := Prod.mk.inj (Option.some.inj hHere)
      obtain ⟨rfl, rfl⟩ := Prod.mk.inj (Option.some.inj hNext)
      exact Or.inl ⟨rfl, rfl⟩
    · rw [getElem?_append_right (by omega), hLength] at hNext
      rcases Nat.lt_or_ge k (segment.2 + 1 - segment.1) with hLast | hOut
      · rw [show k + 1 - (segment.2 + 1 - segment.1) = 0 by omega] at hNext
        exact Or.inr (points_first rest hNext)
      · rw [getElem?_append_right (by omega), hLength] at hHere
        rw [show k + 1 - (segment.2 + 1 - segment.1) = k - (segment.2 + 1 - segment.1) + 1 by omega] at hNext
        exact ih hHere hNext

end Points

section Pending

variable {f : Function}

theorem callArgsBefore_self (body : Body) (first : Nat) : callArgsBefore body first first = [] := by
  cases first with
  | zero => rfl
  | succ j => rw [callArgsBefore, if_neg (by omega)]

/-- The arguments of the run that ends before an instruction, put aside in order. -/
def gathered (body : Body) (first i : Nat) : PendingArgs :=
  (callArgsBefore body first i).reverse.foldl (pendingStep body) {}

/-- What is put aside before a point of a block, or at its end. -/
def pendingBefore (body : Body) : Option (Nat × Nat) → PendingArgs
  | some (first, i) => gathered body first i
  | none => {}

variable {b first i k : Nat}

theorem callArgsBefore_of_next {first' i' : Nat} (hPoint : (f.block b).points[k]? = some (first, i))
    (hNext : (f.block b).points[k + 1]? = some (first', i')) (hArg : f.opcode i ≠ .callArg) :
    callArgsBefore f.toBody first' i' = [] := by
  rcases points_next (f.block b).segments hPoint hNext with ⟨rfl, rfl⟩ | rfl
  · rw [callArgsBefore, if_neg fun h => hArg h.2]
  · exact callArgsBefore_self f.toBody i'

/-- Only an argument or a call has arguments directly before it. -/
theorem callArgsBefore_of_not_continuesCall (hAt : StandsAt f b k first i) (hContinues : (f.opcode i).continuesCall = false) :
    callArgsBefore f.toBody first i = [] := by
  rw [eq_nil_iff_forall_not_mem]
  intro j hMem
  obtain ⟨start, hLt, -, hArgs⟩ := points_of_mem_callArgsBefore hAt.point hMem
  obtain ⟨w, hBefore, hArg⟩ := hArgs (k - 1) (by omega) (by omega)
  obtain ⟨hNext, hCall⟩ := StandsAt.next ⟨hAt.block, hBefore⟩ hArg
  rw [Nat.sub_add_cancel (by omega)] at hNext
  obtain ⟨-, rfl⟩ := Prod.mk.inj (Option.some.inj (hAt.point.symm.trans hNext.point))
  rw [hCall] at hContinues
  exact absurd hContinues (by simp)

theorem pendingBefore_next (hPoint : (f.block b).points[k]? = some (first, i)) (hArg : f.opcode i ≠ .callArg) :
    pendingBefore f.toBody (f.block b).points[k + 1]? = {} := by
  cases hNext : (f.block b).points[k + 1]? with
  | none => rfl
  | some next => rw [pendingBefore, gathered, callArgsBefore_of_next hPoint hNext hArg]; rfl

/-- One instruction takes what is put aside before it to what is put aside before the next. -/
theorem pendingStep_gathered (hAt : StandsAt f b k first i) :
    pendingStep f.toBody (gathered f.toBody first i) i = pendingBefore f.toBody (f.block b).points[k + 1]? := by
  by_cases hArg : f.opcode i = .callArg
  · obtain ⟨segment, -, m, hFirst, hInside, -⟩ := BasicBlock.points_around hAt.point
    have hLe : first ≤ i := hFirst ▸ (mem_segmentIndices.mp hInside).1
    rw [(hAt.next hArg).1.point, pendingBefore, gathered, gathered, callArgsBefore, if_pos ⟨hLe, hArg⟩,
      reverse_cons, foldl_append]
    rfl
  · rw [pendingBefore_next hAt.point hArg]
    by_cases hCall : (f.opcode i).isCall = true
    · rcases isCall_iff.mp hCall with hOpcode | hOpcode <;> rw [pendingStep, hOpcode]
    · have hContinues : (f.opcode i).continuesCall = false := by
        revert hArg hCall
        cases f.opcode i <;> simp [Opcode.isCall, Opcode.continuesCall]
      rw [gathered, callArgsBefore_of_not_continuesCall hAt hContinues, pendingStep]
      split
      · exact absurd ‹_› hArg
      · rfl
      · rfl
      · rfl

theorem foldl_code_take (hBlock : b < f.basicBlocks.length) (k : Nat) (hLe : k ≤ (f.block b).points.length) :
    ((f.block b).code.take k).foldl (pendingStep f.toBody) {} = pendingBefore f.toBody (f.block b).points[k]? := by
  induction k with
  | zero =>
    cases hPoint : (f.block b).points[0]? with
    | none => rfl
    | some point =>
      obtain ⟨first, i⟩ := point
      obtain rfl := points_first (f.block b).segments hPoint
      rw [pendingBefore, gathered, callArgsBefore_self]
      rfl
  | succ k ih =>
    obtain ⟨⟨first, i⟩, hPoint⟩ : ∃ point, (f.block b).points[k]? = some point :=
      ⟨_, getElem?_eq_getElem hLe⟩
    have hAt : StandsAt f b k first i := ⟨hBlock, hPoint⟩
    rw [take_add_one, hAt.code, foldl_append, ih (Nat.le_of_lt hLe), hPoint]
    exact pendingStep_gathered hAt

theorem foldl_code (hBlock : b < f.basicBlocks.length) : (f.block b).code.foldl (pendingStep f.toBody) {} = {} := by
  have hAll := foldl_code_take hBlock _ le_rfl
  rw [getElem?_eq_none le_rfl, take_of_length_le (by rw [BasicBlock.code, length_map])] at hAll
  exact hAll

/-- A point finds the arguments directly before it, whatever was emitted before its block. -/
theorem pendingAt_eq {emitted : List Nat} (hEmitted : ∀ c ∈ emitted, c < f.basicBlocks.length)
    (hAt : StandsAt f b k first i) : pendingAt f.toBody emitted b k = gathered f.toBody first i := by
  have hBefore : (emitted.flatMap fun c => (f.block c).code).foldl (pendingStep f.toBody) {} = {} := by
    induction emitted with
    | nil => rfl
    | cons c rest ih =>
      rw [flatMap_cons, foldl_append, foldl_code (hEmitted c mem_cons_self)]
      exact ih fun d hMem => hEmitted d (mem_cons_of_mem c hMem)
  obtain ⟨hLt, -⟩ := List.getElem?_eq_some_iff.mp hAt.point
  rw [pendingAt, foldl_append, hBefore, foldl_code_take hAt.block k hLt.le, hAt.point]
  rfl

end Pending

end KushDB.Khir
