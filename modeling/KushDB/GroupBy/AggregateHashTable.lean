import KushDB.Execution.SplitPipeline
import Mathlib.Data.List.Perm.Basic

/-! # The payload blocks of an aggregate hash table

Payloads are laid out one after the other in blocks, as many to a block as fit. The output pipeline addresses them by
their number: a range of numbers is turned into a range of blocks and byte offsets. The hash entries, which
find the payload of a key, are left out here; nothing below reads them.
-/

namespace KushDB.GroupBy

open KushDB.Execution List

def blockSize : Nat := 2 ^ 12

/-- What starts at a byte offset of a block, for the payloads written so far. Block 0 is never used. -/
structure AggregateHashTable (P : Type) where
  payloadBlock : Nat → Nat → Option P
  payloadBlockSize : Nat
  lastPayloadOffset : Nat
  payloadSize : Nat
  payloadSize_pos : 0 < payloadSize
  payloadSize_le : payloadSize ≤ blockSize

namespace AggregateHashTable

section

variable {P : Type}

def init (payloadSize : Nat) (hPos : 0 < payloadSize) (hLe : payloadSize ≤ blockSize) : AggregateHashTable P :=
  ⟨fun _ _ => none, 2, 0, payloadSize, hPos, hLe⟩

def allocateNewPage (ht : AggregateHashTable P) : AggregateHashTable P :=
  { ht with payloadBlockSize := ht.payloadBlockSize + 1, lastPayloadOffset := 0 }

def setPayload (ht : AggregateHashTable P) (blockIdx blockOffset : Nat) (payload : P) : AggregateHashTable P :=
  { ht with
    payloadBlock := Function.update ht.payloadBlock blockIdx
      (Function.update (ht.payloadBlock blockIdx) blockOffset (some payload)) }

def insert (ht : AggregateHashTable P) (payload : P) : AggregateHashTable P :=
  -- A new page if there is no more space left on the last one.
  let ht := if blockSize < ht.lastPayloadOffset + ht.payloadSize then ht.allocateNewPage else ht
  let blockIdx := ht.payloadBlockSize - 1
  let offset := ht.lastPayloadOffset
  { ht.setPayload blockIdx offset payload with lastPayloadOffset := offset + ht.payloadSize }

def getPayload (ht : AggregateHashTable P) (blockIdx blockOffset : Nat) : Option P :=
  ht.payloadBlock blockIdx blockOffset

def tuplesPerBlock (ht : AggregateHashTable P) : Nat := blockSize / ht.payloadSize

def computeBlockIdx (ht : AggregateHashTable P) (idx : Nat) : Nat := idx / ht.tuplesPerBlock + 1

def computeBlockOffset (ht : AggregateHashTable P) (idx : Nat) : Nat := ht.payloadSize * (idx % ht.tuplesPerBlock)

def size (ht : AggregateHashTable P) : Int :=
  let fullBlocks := int32 (ht.payloadBlockSize - 2)
  let output := if 0 < fullBlocks then int32 (fullBlocks * ht.tuplesPerBlock) else 0
  int32 (output + (ht.lastPayloadOffset / ht.payloadSize : Nat))

/-- The payloads handed to the handler within one block. -/
def blockLoop (ht : AggregateHashTable P) (blockIdx loopEnd blockOffset : Nat) : List (Option P) :=
  if blockOffset + ht.payloadSize ≤ loopEnd then
    ht.getPayload blockIdx blockOffset :: ht.blockLoop blockIdx loopEnd (blockOffset + ht.payloadSize)
  else []
termination_by loopEnd - blockOffset
decreasing_by
  have := ht.payloadSize_pos
  omega

def blocksLoop (ht : AggregateHashTable P) (endBlock endOffset blockIdx : Nat) : List (Option P) :=
  if blockIdx ≤ endBlock then
    let loopEnd := if blockIdx = endBlock then endOffset else blockSize
    -- Every block is run through from its beginning, the first one too.
    ht.blockLoop blockIdx loopEnd 0 ++ ht.blocksLoop endBlock endOffset (blockIdx + 1)
  else []
termination_by endBlock + 1 - blockIdx

def forEach (ht : AggregateHashTable P) (first last : Int) : List (Option P) :=
  let startBlock := ht.computeBlockIdx first.toNat
  let endBlock := ht.computeBlockIdx last.toNat
  let endOffset := ht.computeBlockOffset last.toNat + ht.payloadSize
  ht.blocksLoop endBlock endOffset startBlock

/-! ## Where payloads are stored -/

theorem tuplesPerBlock_pos (ht : AggregateHashTable P) : 0 < ht.tuplesPerBlock :=
  Nat.div_pos ht.payloadSize_le ht.payloadSize_pos

/-- What is stored at the place of a payload number. -/
def payloadAt (ht : AggregateHashTable P) (idx : Nat) : Option P :=
  ht.getPayload (ht.computeBlockIdx idx) (ht.computeBlockOffset idx)

/-- The table holds these payloads, in this order. -/
structure Stores (ht : AggregateHashTable P) (groups : List P) : Prop where
  payload : ∀ idx, idx < groups.length → ht.payloadAt idx = groups[idx]?
  blocks : ∃ full, ht.payloadBlockSize = full + 2 ∧ ∃ used ≤ ht.tuplesPerBlock,
    ht.lastPayloadOffset = ht.payloadSize * used ∧ groups.length = full * ht.tuplesPerBlock + used

variable {payloadSize : Nat} {groups : List P} {ht : AggregateHashTable P}

theorem stores_init (hPos : 0 < payloadSize) (hLe : payloadSize ≤ blockSize) :
    Stores (init payloadSize hPos hLe : AggregateHashTable P) [] :=
  ⟨nofun, 0, rfl, 0, Nat.zero_le _, rfl, by simp⟩

/-- Different payload numbers have different places. -/
theorem place_inj (ht : AggregateHashTable P) {left right : Nat} (hBlock : ht.computeBlockIdx left = ht.computeBlockIdx right)
    (hOffset : ht.computeBlockOffset left = ht.computeBlockOffset right) : left = right := by
  have hDiv : left / ht.tuplesPerBlock = right / ht.tuplesPerBlock := by
    simpa [computeBlockIdx] using hBlock
  have hMod := Nat.eq_of_mul_eq_mul_left ht.payloadSize_pos hOffset
  rw [← Nat.div_add_mod left ht.tuplesPerBlock, ← Nat.div_add_mod right ht.tuplesPerBlock, hDiv, hMod]

theorem payloadAt_setPayload (ht : AggregateHashTable P) (idx other : Nat) (payload : P) :
    (ht.setPayload (ht.computeBlockIdx other) (ht.computeBlockOffset other) payload).payloadAt idx =
      if idx = other then some payload else ht.payloadAt idx := by
  change Function.update ht.payloadBlock _ _ (ht.computeBlockIdx idx) (ht.computeBlockOffset idx) = _
  split
  · rename_i hEq
    rw [hEq, Function.update_self, Function.update_self]
  · rename_i hNe
    by_cases hBlock : ht.computeBlockIdx idx = ht.computeBlockIdx other
    · rw [hBlock, Function.update_self, Function.update_of_ne fun hOffset => hNe (ht.place_inj hBlock hOffset), ← hBlock]
      rfl
    · rw [Function.update_of_ne hBlock]
      rfl

theorem fits_iff (ht : AggregateHashTable P) (used : Nat) :
    ht.payloadSize * used + ht.payloadSize ≤ blockSize ↔ used < ht.tuplesPerBlock := by
  rw [← Nat.mul_succ, tuplesPerBlock, ← Nat.succ_le_iff, Nat.le_div_iff_mul_le ht.payloadSize_pos, Nat.mul_comm]

/-- A payload is stored at the place of its number, on a new page if the last one is full. -/
theorem insert_eq (h : Stores ht groups) (payload : P) :
    ∃ full used, used < ht.tuplesPerBlock ∧ groups.length = full * ht.tuplesPerBlock + used ∧
      ht.insert payload =
        { ht.setPayload (ht.computeBlockIdx groups.length) (ht.computeBlockOffset groups.length) payload with
          payloadBlockSize := full + 2
          lastPayloadOffset := ht.payloadSize * (used + 1) } := by
  obtain ⟨full, hFull, used, hUsed, hOffset, hLength⟩ := h.blocks
  have hPos := ht.tuplesPerBlock_pos
  by_cases hRoom : used < ht.tuplesPerBlock
  · refine ⟨full, used, hRoom, hLength, ?_⟩
    have hIdx : ht.computeBlockIdx groups.length = ht.payloadBlockSize - 1 := by
      rw [computeBlockIdx, hLength, Nat.mul_comm, Nat.mul_add_div hPos, Nat.div_eq_of_lt hRoom, hFull]
      rfl
    have hPlace : ht.computeBlockOffset groups.length = ht.payloadSize * used := by
      rw [computeBlockOffset, hLength, Nat.mul_comm full, Nat.mul_add_mod, Nat.mod_eq_of_lt hRoom]
    rw [insert, if_neg (by rw [hOffset, not_lt, fits_iff]; exact hRoom), hIdx, hPlace, Nat.mul_succ, ← hOffset, ← hFull]
    rfl
  · obtain rfl : used = ht.tuplesPerBlock := by omega
    refine ⟨full + 1, 0, hPos, by rw [hLength, Nat.add_mul, Nat.one_mul, Nat.add_zero], ?_⟩
    have hIdx : ht.computeBlockIdx groups.length = ht.payloadBlockSize + 1 - 1 := by
      rw [computeBlockIdx, hLength, Nat.mul_comm, Nat.mul_add_div hPos, Nat.div_self hPos, hFull]
      rfl
    have hPlace : ht.computeBlockOffset groups.length = 0 := by
      rw [computeBlockOffset, hLength, Nat.mul_comm full, Nat.mul_add_mod, Nat.mod_self, Nat.mul_zero]
    rw [insert, if_pos (by rw [hOffset, ← not_le, fits_iff]; exact hRoom), hIdx, hPlace, Nat.zero_add, Nat.mul_one]
    simp only [allocateNewPage, setPayload, hFull, Nat.zero_add]

theorem Stores.insert (h : Stores ht groups) (payload : P) : Stores (ht.insert payload) (groups ++ [payload]) := by
  obtain ⟨full, used, hUsed, hLength, hInsert⟩ := insert_eq h payload
  rw [hInsert]
  refine ⟨fun idx hIdx => ?_, full, rfl, used + 1, hUsed, rfl, ?_⟩
  · refine (payloadAt_setPayload ht idx groups.length payload).trans ?_
    rw [length_append, length_singleton] at hIdx
    split
    · rename_i hEq
      simp [hEq]
    · rw [h.payload idx (by omega), getElem?_append_left (by omega)]
  · rw [length_append, length_singleton, hLength]
    rfl

/-- The table after a sequence of new groups. -/
def stored (payloadSize : Nat) (hPos : 0 < payloadSize) (hLe : payloadSize ≤ blockSize) (groups : List P) :
    AggregateHashTable P :=
  groups.foldl insert (init payloadSize hPos hLe)

theorem stores_stored (hPos : 0 < payloadSize) (hLe : payloadSize ≤ blockSize) (groups : List P) :
    Stores (stored payloadSize hPos hLe groups) groups := by
  induction groups using List.reverseRecOn with
  | nil => exact stores_init hPos hLe
  | append_singleton groups payload ih =>
    rw [stored, foldl_append]
    exact ih.insert payload

theorem payloadSize_insert (ht : AggregateHashTable P) (payload : P) : (ht.insert payload).payloadSize = ht.payloadSize := by
  simp only [insert, setPayload, allocateNewPage]
  split <;> rfl

theorem payloadSize_stored (hPos : 0 < payloadSize) (hLe : payloadSize ≤ blockSize) (groups : List P) :
    (stored payloadSize hPos hLe groups).payloadSize = payloadSize := by
  induction groups using List.reverseRecOn with
  | nil => rfl
  | append_singleton groups payload ih =>
    rw [stored, foldl_append]
    exact (payloadSize_insert _ payload).trans ih

theorem size_eq (h : Stores ht groups) (hFits : groups.length < 2 ^ 31) : ht.size = groups.length := by
  obtain ⟨full, hFull, used, hUsed, hOffset, hLength⟩ := h.blocks
  have hPos := ht.tuplesPerBlock_pos
  have hFullLe : full ≤ full * ht.tuplesPerBlock := Nat.le_mul_of_pos_right full hPos
  have hBlocks : int32 (ht.payloadBlockSize - 2) = full := by
    rw [hFull, int32_eq] <;> omega
  have hProduct : int32 ((full : Int) * ht.tuplesPerBlock) = (full * ht.tuplesPerBlock : Nat) := by
    rw [← Int.natCast_mul, int32_eq] <;> omega
  have hOutput : (if 0 < (full : Int) then int32 (full * ht.tuplesPerBlock) else 0) =
      ((full * ht.tuplesPerBlock : Nat) : Int) := by
    split
    · exact hProduct
    · obtain rfl : full = 0 := by omega
      simp
  rw [size]
  simp only [hBlocks, hOutput, hOffset, Nat.mul_div_cancel_left used ht.payloadSize_pos]
  rw [int32_eq] <;> omega

end

end AggregateHashTable

end KushDB.GroupBy
