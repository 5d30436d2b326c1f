import Mathlib.Order.Nat
import KushDB.Khir.Function

/-! # Runs of call arguments in the linear numbering

Inside a segment the linear numbering follows the numbers of the instructions. So the arguments of a call and the call
itself stand at consecutive positions, and the parameters stand side by side.
-/

namespace KushDB.Khir

open List

section Segments

variable {i k : Nat}
variable {first : Nat} {block : BasicBlock}

/-- A point of a block stands in a segment, and the whole segment stands around it. -/
theorem points_segment (segments : List (Nat × Nat))
    (hPoint : (segments.flatMap fun segment => (segmentIndices segment).map fun i => (segment.1, i))[k]? =
      some (first, i)) :
    ∃ segment ∈ segments, ∃ m, segment.1 = first ∧ i ∈ segmentIndices segment ∧ k = m + (i - first) ∧
      ∀ j ∈ segmentIndices segment,
        (segments.flatMap fun segment => (segmentIndices segment).map fun i => (segment.1, i))[m + (j - first)]? =
          some (first, j) := by
  induction segments generalizing k with
  | nil => exact absurd hPoint (by simp)
  | cons segment rest ih =>
    rw [flatMap_cons] at hPoint ⊢
    have hIndex : ∀ j ∈ segmentIndices segment,
        ((segmentIndices segment).map fun i => (segment.1, i))[j - segment.1]? = some (segment.1, j) := by
      intro j hMem
      obtain ⟨hFirst, hLast⟩ := mem_segmentIndices.mp hMem
      rw [getElem?_map, segmentIndices, getElem?_range' (by omega), Option.map_some]
      congr 2
      omega
    rcases Nat.lt_or_ge k ((segmentIndices segment).map fun i => (segment.1, i)).length with hLt | hGe
    · rw [getElem?_append_left hLt, getElem?_map] at hPoint
      obtain ⟨j, hJ, hPair⟩ := Option.map_eq_some_iff.mp hPoint
      obtain ⟨rfl, rfl⟩ := Prod.mk.inj hPair
      have hMem := mem_of_getElem? hJ
      have hK : segment.1 + k = j := by
        have hLength : k < segment.2 + 1 - segment.1 := by simpa [segmentIndices] using hLt
        rw [segmentIndices, getElem?_range' hLength, Nat.one_mul] at hJ
        exact Option.some.inj hJ
      refine ⟨segment, mem_cons_self, 0, rfl, hMem, by omega, fun j' hMem' => ?_⟩
      obtain ⟨hBound, -⟩ := List.getElem?_eq_some_iff.mp (hIndex j' hMem')
      rw [Nat.zero_add, getElem?_append_left hBound]
      exact hIndex j' hMem'
    · rw [getElem?_append_right hGe] at hPoint
      obtain ⟨other, hOther, m, hFirst, hMem, hK, hAll⟩ := ih hPoint
      refine ⟨other, mem_cons_of_mem _ hOther,
        ((segmentIndices segment).map fun i => (segment.1, i)).length + m, hFirst, hMem, by omega, fun j hJ => ?_⟩
      rw [getElem?_append_right (by omega), ← hAll j hJ]
      congr 1
      omega

theorem BasicBlock.points_around (hPoint : block.points[k]? = some (first, i)) :
    ∃ segment ∈ block.segments, ∃ m, segment.1 = first ∧ i ∈ segmentIndices segment ∧ k = m + (i - first) ∧
      ∀ j ∈ segmentIndices segment, block.points[m + (j - first)]? = some (first, j) :=
  points_segment block.segments hPoint

theorem BasicBlock.code_getElem? : block.code[k]? = some i ↔ ∃ first, block.points[k]? = some (first, i) := by
  rw [BasicBlock.code, getElem?_map, Option.map_eq_some_iff]
  constructor
  · rintro ⟨⟨first, j⟩, hPoint, rfl⟩
    exact ⟨first, hPoint⟩
  · rintro ⟨first, hPoint⟩
    exact ⟨(first, i), hPoint, rfl⟩

end Segments

section Order

variable {f : Function}
variable {b i p : Nat}
variable {k v : Nat}

theorem order_getElem? (hBlock : b < f.basicBlocks.length) (hCode : (f.block b).code[k]? = some i) :
    f.order[f.base b + k]? = some i := by
  rw [Body.order, getElem?_map, f.places_getElem? hBlock hCode]
  rfl

theorem order_inj {q : Nat} (hP : f.order[p]? = some i) (hQ : f.order[q]? = some i) : p = q := by
  obtain ⟨hLt, -⟩ := List.getElem?_eq_some_iff.mp hP
  exact (getElem?_inj hLt f.wellFormed.nodup).mp (hP.trans hQ.symm)

theorem order_position (hPlace : (b, i) ∈ f.places) : f.order[f.position b i]? = some i := by
  obtain ⟨k, hGet⟩ := mem_iff_getElem?.mp hPlace
  have hPosition : f.position b i = k := by
    obtain ⟨hLt, hEq⟩ := List.getElem?_eq_some_iff.mp hGet
    rw [Body.position, ← hEq, f.wellFormed.places_nodup.idxOf_getElem]
  rw [hPosition, Body.order, getElem?_map, hGet]
  rfl

theorem exists_code_of_order (hOrder : f.order[p]? = some i) :
    ∃ b < f.basicBlocks.length, ∃ k, (f.block b).code[k]? = some i ∧ p = f.base b + k := by
  rw [Body.order, getElem?_map] at hOrder
  obtain ⟨⟨b, j⟩, hPlace, rfl⟩ := Option.map_eq_some_iff.mp hOrder
  obtain ⟨hBlock, hMem⟩ := Body.mem_places.mp (mem_of_getElem? hPlace)
  obtain ⟨k, hCode⟩ := mem_iff_getElem?.mp hMem
  have hSame : f.order[p]? = some j := by rw [Body.order, getElem?_map, hPlace]; rfl
  exact ⟨b, hBlock, k, hCode, order_inj hSame (order_getElem? hBlock hCode)⟩

/-- Instruction `i`, in a segment that starts at `first`, is the `k`-th of block `b`. -/
structure StandsAt (f : Function) (b k first i : Nat) : Prop where
  block : b < f.basicBlocks.length
  point : (f.block b).points[k]? = some (first, i)

section

variable {first : Nat} (h : StandsAt f b k first i)
include h

theorem StandsAt.code : (f.block b).code[k]? = some i :=
  BasicBlock.code_getElem?.mpr ⟨first, h.point⟩

theorem StandsAt.order : f.order[f.base b + k]? = some i :=
  order_getElem? h.block h.code

theorem StandsAt.position : f.position b i = f.base b + k :=
  f.wellFormed.position_eq h.block h.code

theorem StandsAt.next (hArg : f.opcode i = .callArg) :
    StandsAt f b (k + 1) first (i + 1) ∧ (f.opcode (i + 1)).continuesCall = true := by
  obtain ⟨segment, hSegment, m, rfl, hMem, hK, hAll⟩ := BasicBlock.points_around h.point
  obtain ⟨hLt, hNext⟩ := f.wellFormed.callArgs b h.block segment hSegment i hMem hArg
  obtain ⟨hFirst, -⟩ := mem_segmentIndices.mp hMem
  have hPoint := hAll (i + 1) (mem_segmentIndices.mpr ⟨by omega, hLt⟩)
  have hIndex : m + (i + 1 - segment.1) = k + 1 := by omega
  exact ⟨⟨h.block, hIndex ▸ hPoint⟩, hNext⟩

end

theorem exists_standsAt (hOrder : f.order[p]? = some i) : ∃ b k first, p = f.base b + k ∧ StandsAt f b k first i := by
  obtain ⟨b, hBlock, k, hCode, hPosition⟩ := exists_code_of_order hOrder
  obtain ⟨first, hPoint⟩ := BasicBlock.code_getElem?.mp hCode
  exact ⟨b, k, first, hPosition, hBlock, hPoint⟩

theorem order_callArg (hOrder : f.order[p]? = some v) (hArg : f.opcode v = .callArg) :
    f.order[p + 1]? = some (v + 1) ∧ (f.opcode (v + 1)).continuesCall = true := by
  obtain ⟨b, k, first, rfl, hAt⟩ := exists_standsAt hOrder
  obtain ⟨hNext, hContinues⟩ := hAt.next hArg
  exact ⟨hNext.order, hContinues⟩

/-- Parameters in the first block stand at the start of one segment. -/
theorem order_parameters (hParameter : f.opcode i = .funcArg) (hPlace : (0, i) ∈ f.places) :
    ∃ p, ∀ j ≤ i, f.position 0 j = p + j ∧ f.order[p + j]? = some j := by
  obtain ⟨hBlock, hCode⟩ := Body.mem_places.mp hPlace
  obtain ⟨k, hGet⟩ := mem_iff_getElem?.mp hCode
  obtain ⟨first, hPoint⟩ := BasicBlock.code_getElem?.mp hGet
  obtain ⟨segment, hSegment, m, rfl, hMem, -, hAll⟩ := BasicBlock.points_around hPoint
  have hZero := f.wellFormed.funcArgsTogether 0 hBlock segment hSegment i hMem hParameter
  obtain ⟨-, hLast⟩ := mem_segmentIndices.mp hMem
  refine ⟨f.base 0 + m, fun j hJ => ?_⟩
  have hPoint' := hAll j (mem_segmentIndices.mpr ⟨by omega, by omega⟩)
  have hCode' := BasicBlock.code_getElem?.mpr ⟨segment.1, hPoint'⟩
  rw [hZero, Nat.sub_zero] at hCode'
  rw [Nat.add_assoc]
  exact ⟨f.wellFormed.position_eq hBlock hCode', order_getElem? hBlock hCode'⟩

end Order

section Runs

/-- The number of call arguments that stand directly before a position. -/
def Body.callRun (body : Body) : Nat → Nat
  | 0 => 0
  | p + 1 => if (body.order[p]?).any (body.opcode · = .callArg) then body.callRun p + 1 else 0

variable {f : Function}
variable {p v : Nat}

theorem callRun_of_callArg (hOrder : f.order[p]? = some v) (hArg : f.opcode v = .callArg) :
    f.callRun (p + 1) = f.callRun p + 1 := by
  rw [Body.callRun, hOrder, Option.any_some, if_pos (decide_eq_true hArg)]

theorem callRun_of_not_callArg (hOrder : f.order[p]? = some v) (hArg : f.opcode v ≠ .callArg) :
    f.callRun (p + 1) = 0 := by
  rw [Body.callRun, hOrder, Option.any_some, if_neg (by simpa using hArg)]

/-- Only the arguments of a call and the call itself stand after an argument. -/
theorem callRun_eq_zero (hOrder : f.order[p]? = some v) (hContinues : (f.opcode v).continuesCall = false) :
    f.callRun p = 0 := by
  cases p with
  | zero => rfl
  | succ p =>
    obtain ⟨hLt, -⟩ := List.getElem?_eq_some_iff.mp hOrder
    have hBefore := getElem?_eq_getElem (Nat.lt_of_succ_lt hLt)
    by_cases hArg : f.opcode f.order[p] = .callArg
    · obtain ⟨hNext, hCall⟩ := order_callArg hBefore hArg
      rw [Option.some.inj (hOrder.symm.trans hNext), hCall] at hContinues
      exact absurd hContinues (by simp)
    · exact callRun_of_not_callArg hBefore hArg

/-- From position `s` to position `p` there are only call arguments. -/
def ArgsUpTo (f : Function) (s p : Nat) : Prop :=
  s ≤ p ∧ ∀ q, s ≤ q → q < p → ∃ v, f.order[q]? = some v ∧ f.opcode v = .callArg

variable {s : Nat}

theorem ArgsUpTo.callRun (h : ArgsUpTo f s p) : f.callRun p = f.callRun s + (p - s) := by
  obtain ⟨hLe, hArgs⟩ := h
  induction p, hLe using Nat.le_induction with
  | base => omega
  | succ p hLe ih =>
    obtain ⟨v, hOrder, hArg⟩ := hArgs p hLe (Nat.lt_succ_self p)
    rw [callRun_of_callArg hOrder hArg, ih fun q hQ hLt => hArgs q hQ (hLt.trans (Nat.lt_succ_self p))]
    omega

/-- The run before a position is made of call arguments. -/
theorem argsUpTo_of_callRun (p : Nat) {m : Nat} (hM : m ≤ f.callRun p) : m ≤ p ∧ ArgsUpTo f (p - m) p := by
  induction p generalizing m with
  | zero =>
    obtain rfl : m = 0 := Nat.le_zero.mp hM
    exact ⟨le_rfl, le_rfl, fun q _ hLt => absurd hLt (Nat.not_lt_zero q)⟩
  | succ p ih =>
    cases m with
    | zero => exact ⟨Nat.zero_le _, le_rfl, fun q hQ hLt => absurd hLt (Nat.not_lt.mpr hQ)⟩
    | succ m =>
      rw [Body.callRun] at hM
      split at hM
      case isFalse => omega
      case isTrue hAny =>
        obtain ⟨v, hOrder, hArg⟩ := (Option.any_eq_true _ _).mp hAny
        obtain ⟨hLe, -, hArgs⟩ := ih (Nat.le_of_succ_le_succ hM)
        have hSub : p + 1 - (m + 1) = p - m := by omega
        rw [hSub]
        refine ⟨by omega, by omega, fun q hQ hLt => ?_⟩
        rcases Nat.lt_succ_iff_lt_or_eq.mp hLt with hOld | rfl
        · exact hArgs q hQ hOld
        · exact ⟨v, hOrder, of_decide_eq_true hArg⟩

/-- The position that ends a run of call arguments holds the instruction that many numbers later. -/
theorem ArgsUpTo.order (h : ArgsUpTo f s p) (hOrder : f.order[s]? = some v) : f.order[p]? = some (v + (p - s)) := by
  obtain ⟨hLe, hArgs⟩ := h
  induction p, hLe using Nat.le_induction with
  | base => rw [Nat.sub_self, Nat.add_zero, hOrder]
  | succ p hLe ih =>
    have hHere := ih fun q hQ hLt => hArgs q hQ (hLt.trans (Nat.lt_succ_self p))
    obtain ⟨w, hOrder', hArg⟩ := hArgs p hLe (Nat.lt_succ_self p)
    obtain rfl := Option.some.inj (hHere.symm.trans hOrder')
    rw [(order_callArg hHere hArg).1]
    congr 1
    omega

end Runs

end KushDB.Khir
