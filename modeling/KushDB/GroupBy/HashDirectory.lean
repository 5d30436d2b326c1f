import KushDB.Compile.KeyType
import KushDB.GroupBy.AggregateHashTable
import KushDB.Library.Probing

/-! # The hash directory of a paged table

The aggregate hash table and the index in memory find their payloads in the same way. An entry of the directory holds
16 bits of the hash and the place of a payload, and block 0 stands for an empty entry. The directory is probed
linearly, and it is built anew from the payloads when it gets too full. Size and capacity are 32 bit integers, and the
generated code reads them as signed ones.
-/

namespace KushDB.GroupBy

open KushDB.Execution Compile List

/-! ## Entries -/

def constructEntry (salt blockOffset : BitVec 16) (blockIdx : BitVec 32) : BitVec 64 :=
  (salt.zeroExtend 64 <<< 48) ||| (blockOffset.zeroExtend 64 <<< 32) ||| blockIdx.zeroExtend 64

structure Parts where
  salt : BitVec 16
  blockOffset : BitVec 16
  blockIdx : BitVec 32
deriving DecidableEq, Repr

def getParts (entry : BitVec 64) : Parts :=
  ⟨(entry >>> 48).truncate 16, (entry >>> 32).truncate 16, entry.truncate 32⟩

theorem getParts_constructEntry (salt blockOffset : BitVec 16) (blockIdx : BitVec 32) :
    getParts (constructEntry salt blockOffset blockIdx) = ⟨salt, blockOffset, blockIdx⟩ := by
  rw [getParts, Parts.mk.injEq]
  refine ⟨?_, ?_, ?_⟩
  · ext i hi
    simp [constructEntry]
    grind
  · ext i hi
    simp [constructEntry]
    grind
  · ext i hi
    simp [constructEntry]

theorem getParts_zero : getParts 0 = ⟨0, 0, 0⟩ := by decide

/-- The block as the rebuilding of the directory reads it. -/
theorem toNat_and_mask (entry : BitVec 64) : (entry &&& 0xFFFFFFFF).toNat = (getParts entry).blockIdx.toNat := by
  rw [BitVec.toNat_and]
  exact (Nat.and_two_pow_sub_one_eq_mod entry.toNat 32).trans (BitVec.toNat_setWidth 32 entry).symm

def saltOf (hash : BitVec 64) : BitVec 16 := (hash >>> 48).truncate 16

/-! ## Places of payloads -/

namespace AggregateHashTable

variable {P : Type}

/-- Where the next payload goes. -/
def nextPlace (ht : AggregateHashTable P) : Nat × Nat :=
  let ht := if blockSize < ht.lastPayloadOffset + ht.payloadSize then ht.allocateNewPage else ht
  (ht.payloadBlockSize - 1, ht.lastPayloadOffset)

def blockPlaces (ht : AggregateHashTable P) (blockIdx last blockOffset : Nat) : List (Nat × Nat) :=
  if blockOffset + ht.payloadSize ≤ last then
    (blockIdx, blockOffset) :: ht.blockPlaces blockIdx last (blockOffset + ht.payloadSize)
  else []
termination_by last - blockOffset
decreasing_by
  have := ht.payloadSize_pos
  omega

/-- The places of the payloads, in the order in which the directory is built anew from them. -/
def places (ht : AggregateHashTable P) : List (Nat × Nat) :=
  (List.range' 1 (ht.payloadBlockSize - 1)).flatMap fun blockIdx =>
    ht.blockPlaces blockIdx (if blockIdx = ht.payloadBlockSize - 1 then ht.lastPayloadOffset else blockSize) 0

def placeOf (ht : AggregateHashTable P) (idx : Nat) : Nat × Nat := (ht.computeBlockIdx idx, ht.computeBlockOffset idx)

variable {groups : List P} {ht : AggregateHashTable P} {last : Nat}

theorem nextPlace_eq (h : Stores ht groups) : ht.nextPlace = ht.placeOf groups.length := by
  obtain ⟨full, hFull, used, hUsed, hOffset, hLength⟩ := h.blocks
  have hPos := ht.tuplesPerBlock_pos
  by_cases hRoom : used < ht.tuplesPerBlock
  · rw [nextPlace, if_neg (by rw [hOffset, not_lt, fits_iff]; exact hRoom), placeOf, computeBlockIdx,
      computeBlockOffset, hLength, Nat.mul_comm full, Nat.mul_add_div hPos, Nat.div_eq_of_lt hRoom, Nat.mul_add_mod,
      Nat.mod_eq_of_lt hRoom, ← hOffset, hFull]
    rfl
  · obtain rfl : used = ht.tuplesPerBlock := by omega
    rw [nextPlace, if_pos (by rw [hOffset, ← not_le, fits_iff]; exact hRoom), placeOf, computeBlockIdx,
      computeBlockOffset, hLength, Nat.mul_comm full, Nat.mul_add_div hPos, Nat.div_self hPos, Nat.mul_add_mod,
      Nat.mod_self, Nat.mul_zero]
    simp only [allocateNewPage, hFull]
    rfl

theorem blockPlaces_eq (ht : AggregateHashTable P) (blockIdx : Nat) {used count : Nat}
    (hCount : used + count = last / ht.payloadSize) :
    ht.blockPlaces blockIdx last (ht.payloadSize * used) =
      (List.range' used count).map fun slot => (blockIdx, ht.payloadSize * slot) := by
  have hFits : ∀ slot, ht.payloadSize * slot + ht.payloadSize ≤ last ↔ slot < last / ht.payloadSize := fun slot => by
    rw [← Nat.mul_succ, ← Nat.succ_le_iff, Nat.le_div_iff_mul_le ht.payloadSize_pos, Nat.mul_comm]
  induction count generalizing used with
  | zero =>
    rw [blockPlaces, if_neg (by rw [hFits]; omega)]
    rfl
  | succ count ih =>
    rw [blockPlaces, if_pos (by rw [hFits]; omega), ← Nat.mul_succ, ih (by omega), List.range'_succ, map_cons]

/-- The places within one block, as those of payload numbers. -/
theorem blockPlaces_placeOf (ht : AggregateHashTable P) (full : Nat) (h : last / ht.payloadSize ≤ ht.tuplesPerBlock) :
    ht.blockPlaces (full + 1) last 0 =
      (List.range' (full * ht.tuplesPerBlock) (last / ht.payloadSize)).map ht.placeOf := by
  have hLoop := ht.blockPlaces_eq (full + 1) (Nat.zero_add (last / ht.payloadSize))
  rw [Nat.mul_zero] at hLoop
  rw [hLoop, List.range'_eq_map_range, List.range'_eq_map_range, map_map, map_map]
  refine map_congr_left fun slot hSlot => ?_
  have hLt : slot < ht.tuplesPerBlock := (mem_range.mp hSlot).trans_le h
  simp only [Function.comp_apply, Nat.zero_add, placeOf, computeBlockIdx, computeBlockOffset]
  rw [Nat.mul_comm full, Nat.mul_add_div ht.tuplesPerBlock_pos, Nat.div_eq_of_lt hLt, Nat.mul_add_mod,
    Nat.mod_eq_of_lt hLt, Nat.add_zero]

theorem fullPlaces_eq (ht : AggregateHashTable P) (full : Nat) :
    ((List.range' 1 full).flatMap fun blockIdx => ht.blockPlaces blockIdx blockSize 0) =
      (List.range (full * ht.tuplesPerBlock)).map ht.placeOf := by
  induction full with
  | zero => simp
  | succ full ih =>
    rw [List.range'_concat, flatMap_append, ih, flatMap_singleton, Nat.one_mul, Nat.add_comm 1,
      ht.blockPlaces_placeOf full (Nat.le_refl _), range_eq_range', range_eq_range', ← map_append,
      Nat.succ_mul]
    refine congrArg (List.map ht.placeOf) ?_
    have hAppend := @List.range'_append_1 0 (full * ht.tuplesPerBlock) (blockSize / ht.payloadSize)
    rw [Nat.zero_add] at hAppend
    exact hAppend

theorem places_eq (h : Stores ht groups) : ht.places = (List.range groups.length).map ht.placeOf := by
  obtain ⟨full, hFull, used, hUsed, hOffset, hLength⟩ := h.blocks
  have hFullBlocks : ((List.range' 1 full).flatMap fun blockIdx =>
      ht.blockPlaces blockIdx (if blockIdx = full + 1 then ht.lastPayloadOffset else blockSize) 0) =
      (List.range' 1 full).flatMap fun blockIdx => ht.blockPlaces blockIdx blockSize 0 := by
    refine flatMap_congr fun blockIdx hBlock => ?_
    rw [mem_range'_1] at hBlock
    rw [if_neg (by omega)]
  have hLast : ht.lastPayloadOffset / ht.payloadSize = used := by
    rw [hOffset, Nat.mul_div_cancel_left _ ht.payloadSize_pos]
  rw [places, show ht.payloadBlockSize - 1 = full + 1 by omega, List.range'_concat, flatMap_append, hFullBlocks,
    fullPlaces_eq, flatMap_singleton, Nat.one_mul, Nat.add_comm 1, if_pos rfl,
    ht.blockPlaces_placeOf full (by omega), hLast, ← map_append, hLength, range_eq_range',
    range_eq_range']
  refine congrArg (List.map ht.placeOf) ?_
  have hAppend := @List.range'_append_1 0 (full * ht.tuplesPerBlock) used
  rw [Nat.zero_add] at hAppend
  exact hAppend

end AggregateHashTable

/-! ## The table -/

structure Payload (K S : Type) where
  hash : BitVec 64
  key : K
  state : S
deriving Repr

structure HashDirectory (K S : Type) where
  size : Nat
  capacity : Nat
  mask : Nat
  entries : List (BitVec 64)
  blocks : AggregateHashTable (Payload K S)

/-- Where a search ends: at an empty entry, or at the place of a payload. -/
inductive Found
  | empty (idx : Nat)
  | payload (blockIdx blockOffset : Nat)
deriving DecidableEq, Repr

namespace HashDirectory

variable {K S : Type}

def init (payloadSize : Nat) (hPos : 0 < payloadSize) (hLe : payloadSize ≤ blockSize) : HashDirectory K S :=
  ⟨0, 1024, 1023, List.replicate 1024 0, AggregateHashTable.init payloadSize hPos hLe⟩

/-- The index is truncated to 32 bits and extended with its sign. -/
def getEntry (ht : HashDirectory K S) (idx : Nat) : Option (BitVec 64) :=
  let idx := int32 idx
  if idx < 0 then none else ht.entries[idx.toNat]?

/-- The loop that looks for a key. It changes nothing until it ends, so one that has seen all entries goes on for ever. -/
def find (ht : HashDirectory K S) (salt : BitVec 16) (checkEq : K → Bool) : Nat → Nat → Option Found
  | 0, _ => none
  | fuel + 1, idx =>
    (ht.getEntry idx).bind fun entry =>
      let parts := getParts entry
      if parts.blockIdx = 0 then some (.empty idx)
      else if parts.salt = salt then
        (ht.blocks.getPayload parts.blockIdx.toNat parts.blockOffset.toNat).bind fun payload =>
          if checkEq payload.key then some (.payload parts.blockIdx.toNat parts.blockOffset.toNat)
          else ht.find salt checkEq fuel ((idx + 1) &&& ht.mask)
      else ht.find salt checkEq fuel ((idx + 1) &&& ht.mask)

/-- A new payload, on a new page if the last one is full, and its entry. -/
def insert (ht : HashDirectory K S) (idx : Nat) (payload : Payload K S) : HashDirectory K S :=
  { ht with
    size := (ht.size + 1) % 2 ^ 32
    entries := ht.entries.set idx (constructEntry (saltOf payload.hash) (BitVec.ofNat 16 ht.blocks.nextPlace.2)
      (BitVec.ofNat 32 ht.blocks.nextPlace.1))
    blocks := ht.blocks.insert payload }

def setPayload (ht : HashDirectory K S) (blockIdx blockOffset : Nat) (payload : Payload K S) :
    HashDirectory K S :=
  { ht with blocks := ht.blocks.setPayload blockIdx blockOffset payload }

/-! ### Building the directory anew -/

def emptySlot (mask : Nat) (entries : List (BitVec 64)) : Nat → Nat → Option Nat
  | 0, _ => none
  | fuel + 1, idx =>
    entries[idx]?.bind fun entry =>
      if 0 < (entry &&& 0xFFFFFFFF).toNat then emptySlot mask entries fuel ((idx + 1) &&& mask) else some idx

def reinsert (ht : HashDirectory K S) (mask : Nat) (entries : List (BitVec 64)) (place : Nat × Nat) :
    Option (List (BitVec 64)) :=
  (ht.blocks.getPayload place.1 place.2).bind fun payload =>
    (emptySlot mask entries entries.length (payload.hash.toNat &&& mask)).map fun idx =>
      entries.set idx (constructEntry (saltOf payload.hash) (BitVec.ofNat 16 place.2) (BitVec.ofNat 32 place.1))

def resize (ht : HashDirectory K S) : Option (HashDirectory K S) :=
  let capacity := ht.capacity * 2 % 2 ^ 32
  let mask := (capacity + 2 ^ 32 - 1) % 2 ^ 32
  (ht.blocks.places.foldlM (ht.reinsert mask) (List.replicate capacity 0)).map fun entries =>
    { ht with capacity := capacity, mask := mask, entries := entries }

/-- The quotient of the capacity by the load factor 1.5 is a double, close enough to the exact one not to matter. -/
def ensureEmptySlot (ht : HashDirectory K S) : Option (HashDirectory K S) :=
  if int32 ht.size = int32 ht.capacity then ht.resize
  else if 2 * int32 ht.capacity < 3 * int32 ht.size then ht.resize
  else some ht

/-- The payloads the table holds. -/
def payloads (ht : HashDirectory K S) : Option (List (Payload K S)) :=
  ht.blocks.places.mapM fun place => ht.blocks.getPayload place.1 place.2

/-- The search for a key, from the entry its hash leads to. -/
def lookup (type : KeyType K) (ht : HashDirectory K S) (key : K) : Option Found :=
  ht.find (saltOf (type.hash key)) (fun other => type.eq other key) ht.entries.length
    ((type.hash key).toNat &&& ht.mask)

end HashDirectory

end KushDB.GroupBy
