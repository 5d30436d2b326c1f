import KushDB.GroupBy.HashDirectory

/-! # The entries of a hash directory

The payloads are numbered in the order of their insertion. The directory is a table of these numbers for linear
probing, each entry written as the place of its number.
-/

namespace KushDB.GroupBy

open KushDB.Execution Compile Probing List

section

variable {P : Type}

def entryOf (blocks : AggregateHashTable P) (hashAt : Nat → BitVec 64) (number : Nat) : BitVec 64 :=
  constructEntry (saltOf (hashAt number)) (BitVec.ofNat 16 (blocks.computeBlockOffset number))
    (BitVec.ofNat 32 (blocks.computeBlockIdx number))

/-- The entries are the numbers in the slots, written as places. -/
structure Directory (blocks : AggregateHashTable P) (hashAt : Nat → BitVec 64) (n : Nat) (entries : List (BitVec 64))
    (slot : Nat → Option Nat) : Prop where
  indexes : Indexes entries.length slot (fun number => (hashAt number).toNat % entries.length) n
  entry : ∀ idx < entries.length, entries[idx]? = some ((slot idx).elim 0 (entryOf blocks hashAt))

variable {blocks : AggregateHashTable P} {hashAt : Nat → BitVec 64} {n : Nat} {entries : List (BitVec 64)}
  {slot : Nat → Option Nat}

theorem computeBlockOffset_lt (blocks : AggregateHashTable P) (number : Nat) :
    blocks.computeBlockOffset number < 2 ^ 16 := by
  have hLe := (blocks.fits_iff (number % blocks.tuplesPerBlock)).mpr (Nat.mod_lt _ blocks.tuplesPerBlock_pos)
  have hPos := blocks.payloadSize_pos
  rw [AggregateHashTable.computeBlockOffset]
  unfold blockSize at hLe
  omega

variable {number doublings mask : Nat}

theorem computeBlockIdx_lt (blocks : AggregateHashTable P) (h : number < 2 ^ 31) :
    blocks.computeBlockIdx number < 2 ^ 32 := by
  have := Nat.div_le_self number blocks.tuplesPerBlock
  rw [AggregateHashTable.computeBlockIdx]
  omega

theorem toNat_ofNat_lt {width value : Nat} (h : value < 2 ^ width) : (BitVec.ofNat width value).toNat = value := by
  rw [BitVec.toNat_ofNat, Nat.mod_eq_of_lt h]

theorem blockIdx_ne_zero (blocks : AggregateHashTable P) (h : number < 2 ^ 31) :
    BitVec.ofNat 32 (blocks.computeBlockIdx number) ≠ 0 := by
  intro hZero
  have hValue := congrArg BitVec.toNat hZero
  rw [toNat_ofNat_lt (computeBlockIdx_lt blocks h), AggregateHashTable.computeBlockIdx] at hValue
  exact absurd hValue (Nat.succ_ne_zero _)

theorem getParts_entryOf (blocks : AggregateHashTable P) (hashAt : Nat → BitVec 64) (number : Nat) :
    getParts (entryOf blocks hashAt number) = ⟨saltOf (hashAt number),
      BitVec.ofNat 16 (blocks.computeBlockOffset number), BitVec.ofNat 32 (blocks.computeBlockIdx number)⟩ :=
  getParts_constructEntry _ _ _

variable {idx : Nat} {blocks' : AggregateHashTable P} {other : Nat → BitVec 64}

theorem Directory.slot_lt (h : Directory blocks hashAt n entries slot) (hIdx : idx < entries.length)
    (hSlot : slot idx = some number) : number < n :=
  h.indexes.lt idx hIdx number hSlot

theorem entryOf_congr (hSize : blocks'.payloadSize = blocks.payloadSize) (hSame : hashAt number = other number) :
    entryOf blocks hashAt number = entryOf blocks' other number := by
  unfold entryOf AggregateHashTable.computeBlockIdx AggregateHashTable.computeBlockOffset
    AggregateHashTable.tuplesPerBlock
  rw [hSame, hSize]

theorem Directory.congr (h : Directory blocks hashAt n entries slot) (hSize : blocks'.payloadSize = blocks.payloadSize)
    (hSame : ∀ number < n, hashAt number = other number) : Directory blocks' other n entries slot where
  indexes := h.indexes.congr fun number hNumber => by rw [hSame number hNumber]
  entry idx hIdx := by
    rw [h.entry idx hIdx]
    cases hSlot : slot idx with
    | none => rw [Option.elim_none, Option.elim_none]
    | some number => rw [Option.elim_some, Option.elim_some, entryOf_congr hSize (hSame number (h.slot_lt hIdx hSlot))]

theorem directory_empty (blocks : AggregateHashTable P) (hashAt : Nat → BitVec 64) (capacity : Nat) :
    Directory blocks hashAt 0 (List.replicate capacity 0) fun _ => none where
  indexes := indexes_empty _ _
  entry idx hIdx := by
    rw [getElem?_eq_getElem hIdx, getElem_replicate]
    rfl

theorem Directory.insert (h : Directory blocks hashAt n entries slot) {distance : Nat} (hPos : 0 < entries.length)
    (hFree : slot (place entries.length ((hashAt n).toNat % entries.length) distance) = none)
    (hBefore : ∀ earlier < distance, slot (place entries.length ((hashAt n).toNat % entries.length) earlier) ≠ none) :
    Directory blocks hashAt (n + 1)
      (entries.set (place entries.length ((hashAt n).toNat % entries.length) distance) (entryOf blocks hashAt n))
      (Function.update slot (place entries.length ((hashAt n).toNat % entries.length) distance) (some n)) where
  indexes := by
    rw [length_set]
    exact h.indexes.insert hPos hFree hBefore
  entry idx hIdx := by
    rw [length_set] at hIdx
    rw [getElem?_set]
    split
    · rename_i hEq
      rw [if_pos (hEq ▸ hIdx), hEq, Function.update_self, Option.elim_some]
    · rename_i hNe
      rw [Function.update_of_ne (Ne.symm hNe), h.entry idx hIdx]

/-! ## Probing -/

theorem and_mask (hPower : entries.length = 2 ^ doublings) (hMask : mask = entries.length - 1) (value : Nat) :
    value &&& mask = value % entries.length := by
  rw [hMask, hPower, Nat.and_two_pow_sub_one_eq_mod]

section

variable (h : Directory blocks hashAt n entries slot) (hNumbers : n ≤ 2 ^ 31) (hPower : entries.length = 2 ^ doublings)
  (hMask : mask = entries.length - 1)
include h hNumbers hPower hMask

theorem emptySlot_eq (fuel : Nat) (hIdx : idx < entries.length) :
    HashDirectory.emptySlot mask entries fuel idx = search entries.length (fun idx => (slot idx).isNone) fuel idx := by
  induction fuel generalizing idx with
  | zero => rfl
  | succ fuel ih =>
    rw [HashDirectory.emptySlot, search, h.entry idx hIdx, Option.bind_some, toNat_and_mask, and_mask hPower hMask,
      ih (Nat.mod_lt _ (by omega))]
    cases hSlot : slot idx with
    | none => rw [Option.elim_none, getParts_zero, if_neg (by decide), if_pos Option.isNone_none]
    | some number =>
      have hNumber := h.slot_lt hIdx hSlot
      have hBlock : 0 < (BitVec.ofNat 32 (blocks.computeBlockIdx number)).toNat := by
        rw [toNat_ofNat_lt (computeBlockIdx_lt blocks (by omega)), AggregateHashTable.computeBlockIdx]
        exact Nat.succ_pos _
      rw [Option.elim_some, getParts_entryOf, if_pos hBlock, if_neg (by simp)]

/-- The entry for a new number is found behind the others on its path. -/
theorem Directory.emptySlot (hRoom : n < entries.length) :
    ∃ idx, HashDirectory.emptySlot mask entries entries.length ((hashAt n).toNat &&& mask) = some idx ∧
      ∃ slot', Directory blocks hashAt (n + 1) (entries.set idx (entryOf blocks hashAt n)) slot' := by
  have hFirst : (hashAt n).toNat % entries.length < entries.length := Nat.mod_lt _ (by omega)
  have hStop : ∀ idx < entries.length, (slot idx).isNone = true ↔
      slot idx = none ∨ ∃ number, slot idx = some number ∧ (fun _ => false) number = true := by
    intro idx _
    simp
  obtain ⟨distance, hSearch, hBefore, hEnd⟩ :=
    h.indexes.search hRoom hFirst (fun number _ hWanted => absurd hWanted Bool.false_ne_true) hStop
  rw [and_mask hPower hMask, emptySlot_eq h hNumbers hPower hMask _ hFirst, hSearch]
  rcases hEnd with ⟨hFree, _⟩ | ⟨_, _, _, hWanted⟩
  · exact ⟨_, rfl, _, h.insert (by omega) hFree hBefore⟩
  · exact absurd hWanted Bool.false_ne_true

end

end

end KushDB.GroupBy
