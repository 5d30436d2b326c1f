import KushDB.ColumnIndex.Groups

/-! # The slots of the table

The slots are written one after the other, each behind the entries of the ones before. No slot changes what belongs to
another. When the file is too short for the entries some write fails.
-/

namespace KushDB.ColumnIndex

open KushDB.Bytes KushDB.Execution KushDB.Runtime List

variable {K : Type} {format : EntryFormat K}

theorem linkCount_le (size : Nat) : linkCount size ≤ size := by
  rw [linkCount, int32, Int.bmod_def]
  split <;> omega

theorem linkCount_eq {size : Nat} (h : size ≤ 2 ^ 31) : linkCount size = size := by
  rw [linkCount, int32_eq (by omega) (by omega)]
  omega

/-- The entries of one slot. -/
theorem writeGroup_spec {file : File} {pos offset : Nat} {entries : List (Entry K)} (hTable : 8 + pos * 8 + 8 ≤ offset)
    (hLength : offset + totalLength format entries ≤ file.length) (hFile : file.length < 2 ^ 63)
    (hZero : file.readNat (8 + pos * 8) 8 = some 0) :
    ∃ next, writeGroup format (file, offset) (pos, entries) = some (next, offset + totalLength format entries) ∧
      Grows file next pos offset (offset + totalLength format entries) ∧
      GroupAt format next pos (placed format offset entries)
        (((placed format offset entries).map Prod.fst).take (linkCount entries.length)) := by
  obtain ⟨written, hWritten, hChanges, hEntries⟩ := writeEntries_spec hLength hFile []
  rw [nil_append] at hWritten
  have hSame := hChanges.length
  have hCount : linkCount entries.length ≤ (placed format offset entries).length := by
    rw [length_placed]
    exact linkCount_le _
  have hGroup : GroupAt format written pos (placed format offset entries)
      ((((placed format offset entries).map Prod.fst).take (linkCount entries.length)).drop
        (linkCount entries.length)) := by
    rw [drop_of_length_le (by rw [length_take]; omega)]
    exact ⟨hEntries, 0, by rw [hChanges.readNat (by omega), hZero], rfl⟩
  obtain ⟨next, hNext, hGrows, hDone⟩ := linkLoop_spec hTable (by omega) (by omega)
    (fun item hItem => bounds_placed hItem) (pairwise_placed offset entries) hCount (Nat.le_refl _) hGroup
  refine ⟨next, ?_, (grows_of_entries hChanges (Nat.le_refl _) (Nat.le_refl _)).trans hGrows, hDone⟩
  simp only [writeGroup, hWritten, Option.bind_eq_bind, Option.bind_some, length_map, length_placed, hNext]

/-- The slots with their entries and offsets. -/
def layout (format : EntryFormat K) : Nat → List (Nat × List (Entry K)) → List (Nat × List (Nat × Entry K))
  | _, [] => []
  | offset, group :: groups =>
    (group.1, placed format offset group.2) :: layout format (offset + totalLength format group.2) groups

theorem flatMap_layout (format : EntryFormat K) (offset : Nat) (groups : List (Nat × List (Entry K))) :
    (layout format offset groups).flatMap Prod.snd = placed format offset (groups.flatMap Prod.snd) := by
  induction groups generalizing offset with
  | nil => rfl
  | cons group groups ih => rw [layout, flatMap_cons, flatMap_cons, placed_append, ih]

theorem exists_slot {offset : Nat} {groups : List (Nat × List (Entry K))} {group : Nat × List (Entry K)}
    (h : group ∈ groups) :
    ∃ start, offset ≤ start ∧ (group.1, placed format start group.2) ∈ layout format offset groups := by
  induction groups generalizing offset with
  | nil => cases h
  | cons first groups ih =>
    rcases mem_cons.mp h with rfl | hRest
    · exact ⟨offset, Nat.le_refl _, mem_cons_self⟩
    · obtain ⟨start, hStart, hMem⟩ := ih hRest
      exact ⟨start, (Nat.le_add_right _ _).trans hStart, mem_cons_of_mem _ hMem⟩

/-- All slots, one after the other. -/
theorem writeGroups_spec {groups : List (Nat × List (Entry K))} {file : File} {bits offset : Nat}
    (hTable : tableEnd bits ≤ offset)
    (hLength : offset + totalLength format (groups.flatMap Prod.snd) ≤ file.length) (hFile : file.length < 2 ^ 63)
    (hPos : ∀ group ∈ groups, group.1 < 2 ^ bits) (hNodup : (groups.map Prod.fst).Nodup)
    (hZero : ∀ group ∈ groups, file.readNat (8 + group.1 * 8) 8 = some 0) :
    ∃ next, groups.foldlM (writeGroup format) (file, offset) =
        some (next, offset + totalLength format (groups.flatMap Prod.snd)) ∧
      next.length = file.length ∧
      (∀ other count, other + count ≤ offset → (∀ group ∈ groups, other + count ≤ 8 + group.1 * 8 ∨
        8 + group.1 * 8 + 8 ≤ other) → next.read other count = file.read other count) ∧
      ∀ slot ∈ layout format offset groups,
        GroupAt format next slot.1 slot.2 ((slot.2.map Prod.fst).take (linkCount slot.2.length)) := by
  induction groups generalizing file offset with
  | nil => exact ⟨file, rfl, rfl, fun _ _ _ _ => rfl, fun slot hSlot => nomatch hSlot⟩
  | cons group groups ih =>
    rw [flatMap_cons, totalLength_append] at hLength
    rw [forall_mem_cons] at hPos hZero
    rw [map_cons, nodup_cons] at hNodup
    have hWords : ∀ other ∈ groups, other.1 < group.1 ∨ group.1 < other.1 := fun other hOther =>
      Nat.lt_or_gt_of_ne fun hEq => hNodup.1 (hEq ▸ mem_map_of_mem hOther)
    rw [tableEnd] at hTable
    obtain ⟨first, hFirst, hGrows, hGroup⟩ := @writeGroup_spec K format file group.1 offset group.2 (by omega) (by omega)
      hFile hZero.1
    have hFirstLength := hGrows.length
    obtain ⟨next, hNext, hNextLength, hFrame, hSlots⟩ := @ih first (offset + totalLength format group.2)
      (by rw [tableEnd]; omega) (by omega) (by omega) hPos.2 hNodup.2 fun other hOther => by
        have hApart := hWords other hOther
        have hLess := hPos.2 other hOther
        rw [File.readNat, hGrows.read _ _ (by omega) (by omega)]
        exact hZero.2 other hOther
    refine ⟨next, ?_, hNextLength.trans hFirstLength, ?_, ?_⟩
    · rw [foldlM_cons, hFirst, flatMap_cons, totalLength_append, ← Nat.add_assoc]
      exact hNext
    · intro other count hBefore hOut
      rw [forall_mem_cons] at hOut
      rw [hFrame other count (by omega) hOut.2, hGrows.read other count (by omega) hOut.1]
    · intro slot hSlot
      rw [layout, mem_cons] at hSlot
      rcases hSlot with rfl | hRest
      · rw [length_placed]
        refine hGroup.congr (fun offset hMem => mem_of_mem_take hMem) (fun item hItem => bounds_placed hItem)
          (fun other count hLow hHigh => hFrame other count hHigh fun later hLater => ?_)
          (hFrame _ _ (by omega) fun later hLater => ?_)
        · have hLess := hPos.2 later hLater
          omega
        · have hApart := hWords later hLater
          omega
      · exact hSlots slot hRest

/-! ## Files that are too short -/

variable {file next : File}
variable {last offset : Nat} {offsets : List Nat}

theorem writeEntries_length {entries : List (Entry K)} {done : List Nat}
    (h : entries.foldlM (writeOne format) (file, offset, done) = some (next, last, offsets)) :
    next.length = file.length ∧ last = offset + totalLength format entries ∧
      (offset ≤ file.length → last ≤ file.length) := by
  induction entries generalizing file offset done with
  | nil =>
    cases h
    exact ⟨rfl, rfl, id⟩
  | cons entry entries ih =>
    rw [foldlM_cons, writeOne, Option.bind_eq_bind, Option.bind_eq_some_iff] at h
    obtain ⟨state, hState, hRest⟩ := h
    obtain ⟨first, hFirst, rfl⟩ := Option.map_eq_some_iff.mp hState
    obtain ⟨hFirstLength, hFits⟩ := format.writeEntry_length hFirst
    obtain ⟨hLength, hLast, hBound⟩ := ih hRest
    have hEntryLength : entryLength format entry =
      format.keySize + 16 + entry.2.length * 4 + format.tailLength entry.1 := rfl
    rw [totalLength_cons]
    omega

theorem linkLoop_length {pos : Nat} {i : Nat} (h : linkLoop format pos offsets i file = some next) :
    next.length = file.length := by
  induction i generalizing file with
  | zero =>
    cases h
    rfl
  | succ i ih =>
    simp only [linkLoop, link, Option.bind_eq_bind, Option.bind_eq_some_iff] at h
    obtain ⟨offset, _, linked, ⟨head, _, middle, hMiddle, hLinked⟩, hRest⟩ := h
    rw [ih hRest, (File.writeNat_eq_some hLinked).1, (File.writeNat_eq_some hMiddle).1]

theorem writeGroups_length {groups : List (Nat × List (Entry K))}
    (h : groups.foldlM (writeGroup format) (file, offset) = some (next, last)) :
    next.length = file.length ∧ last = offset + totalLength format (groups.flatMap Prod.snd) ∧
      (offset ≤ file.length → last ≤ file.length) := by
  induction groups generalizing file offset with
  | nil =>
    cases h
    exact ⟨rfl, rfl, id⟩
  | cons group groups ih =>
    simp only [foldlM_cons, writeGroup, Option.bind_eq_bind, Option.bind_eq_some_iff] at h
    obtain ⟨state, ⟨⟨written, middle, offsets⟩, hWritten, linked, hLinked, hState⟩, hRest⟩ := h
    cases hState
    dsimp only at hLinked hRest
    obtain ⟨hWrittenLength, hMiddle, hMiddleBound⟩ := writeEntries_length hWritten
    have hLinkedLength := linkLoop_length hLinked
    obtain ⟨hLength, hLast, hBound⟩ := ih hRest
    rw [flatMap_cons, totalLength_append]
    omega

end KushDB.ColumnIndex
