import KushDB.ColumnIndex.Slots

/-! # Looking up a key in a file

A slot has the entries of the keys whose hashes lead to it. Those that are linked are found by going along the list.
-/

namespace KushDB.ColumnIndex

open KushDB.Bytes KushDB.Execution KushDB.Runtime Grouping List

variable {K : Type} {format : EntryFormat K} {hash : K → BitVec 64} {index : List (Entry K)}

/-! ## The groups -/

theorem posOf_lt (hash : K → BitVec 64) (bits : Nat) (key : K) : posOf hash bits key < 2 ^ bits := by
  rw [posOf, Nat.and_two_pow_sub_one_eq_mod]
  exact Nat.mod_lt _ (Nat.two_pow_pos bits)

/-- The entries of a slot. -/
def slotEntries (hash : K → BitVec 64) (index : List (Entry K)) (pos : Nat) : List (Entry K) :=
  index.filter fun entry => posOf hash (bitsOf index.length) entry.1 = pos

theorem foldl_pushEntry (later : List (Entry K)) (group : Nat × List (Entry K)) :
    later.foldl pushEntry group = (group.1, group.2 ++ later) := by
  induction later generalizing group with
  | nil => rw [foldl_nil, append_nil]
  | cons entry later ih => rw [foldl_cons, ih, pushEntry, append_assoc, singleton_append]

theorem inSlot_newSlot {bits : Nat} {left right : Entry K} :
    inSlot hash bits (newSlot hash bits left) right = true ↔ posOf hash bits left.1 = posOf hash bits right.1 :=
  decide_eq_true_iff

theorem mem_posToEntries {group : Nat × List (Entry K)} (h : group ∈ posToEntries hash index) :
    group.2 = slotEntries hash index group.1 ∧ ∃ entry ∈ index, group.1 = posOf hash (bitsOf index.length) entry.1 := by
  obtain ⟨first, hFirst, later, rfl, hFilter⟩ := mem_groupsOf
    (fun _ _ hSame => inSlot_newSlot.mpr (inSlot_newSlot.mp hSame).symm)
    (fun _ _ _ hLeft hRight => inSlot_newSlot.mpr ((inSlot_newSlot.mp hLeft).trans (inSlot_newSlot.mp hRight))) h
  rw [foldl_pushEntry]
  refine ⟨?_, first, hFirst, rfl⟩
  rw [newSlot, singleton_append, ← hFilter (inSlot_newSlot.mpr rfl), slotEntries]
  exact filter_congr fun entry _ => decide_eq_decide.mpr eq_comm

theorem exists_group {entry : Entry K} (h : entry ∈ index) :
    ∃ group ∈ posToEntries hash index, group.1 = posOf hash (bitsOf index.length) entry.1 := by
  have hGroup : ∃ (first : Entry K) (later : List (Entry K)),
      later.foldl pushEntry (newSlot hash (bitsOf index.length) first) ∈ posToEntries hash index ∧ (entry = first ∨
        inSlot hash (bitsOf index.length) (newSlot hash (bitsOf index.length) first) entry = true) :=
    exists_mem_groupsOf h
  obtain ⟨first, later, hMem, hFirst⟩ := hGroup
  refine ⟨_, hMem, ?_⟩
  rw [foldl_pushEntry]
  rcases hFirst with rfl | hSame
  · rfl
  · exact inSlot_newSlot.mp hSame

theorem nodup_posToEntries (hash : K → BitVec 64) (index : List (Entry K)) :
    ((posToEntries hash index).map Prod.fst).Nodup := by
  have hSame : ∀ (group : Nat × List (Entry K)) (entry : Entry K), inSlot hash (bitsOf index.length) group entry = true ↔
      group.1 = posOf hash (bitsOf index.length) entry.1 := fun _ _ => decide_eq_true_iff
  have hNew : ∀ entry : Entry K, (newSlot hash (bitsOf index.length) entry).1 =
      posOf hash (bitsOf index.length) entry.1 := fun _ => rfl
  have hPush : ∀ (group : Nat × List (Entry K)) (entry : Entry K), (pushEntry group entry).1 = group.1 := fun _ _ => rfl
  exact nodup_groupsOf hSame hNew hPush index

theorem perm_posToEntries (hash : K → BitVec 64) (index : List (Entry K)) :
    ((posToEntries hash index).flatMap Prod.snd).Perm index :=
  perm_groupsOf (fun _ => rfl) (fun _ _ => rfl) index

/-! ## The whole file -/

structure Serialized (format : EntryFormat K) (index : List (Entry K)) (groups : List (Nat × List (Entry K)))
    (file : File) : Prop where
  length : file.length = fileLength format index
  mask : file.readNat 0 8 = some (2 ^ bitsOf index.length - 1)
  slots : ∀ slot ∈ layout format (tableEnd (bitsOf index.length)) groups,
    GroupAt format file slot.1 slot.2 ((slot.2.map Prod.fst).take (linkCount slot.2.length))
  empty : ∀ pos < 2 ^ bitsOf index.length, pos ∉ groups.map Prod.fst → file.readNat (8 + pos * 8) 8 = some 0

variable {groups : List (Nat × List (Entry K))}

theorem fileLength_eq (h : groups.Perm (posToEntries hash index)) :
    fileLength format index = tableEnd (bitsOf index.length) + totalLength format (groups.flatMap Prod.snd) := by
  have hPerm := (List.Perm.flatMap_right Prod.snd h).trans (perm_posToEntries hash index)
  rw [fileLength, totalLength, (hPerm.map _).sum_eq]

theorem serialize_spec (old : Nat → Byte) (hGroups : groups.Perm (posToEntries hash index))
    (hFile : fileLength format index < 2 ^ 63) :
    ∃ file, serialize format old index groups = some file ∧ Serialized format index groups file := by
  have hTotal : fileLength format index = _ := fileLength_eq hGroups
  have hPos : ∀ group ∈ groups, group.1 < 2 ^ bitsOf index.length := by
    intro group hGroup
    obtain ⟨entry, _, hEq⟩ := (mem_posToEntries (hGroups.subset hGroup)).2
    rw [hEq]
    exact posOf_lt hash _ entry.1
  have hNodup : (groups.map Prod.fst).Nodup := (hGroups.map _).nodup_iff.mpr (nodup_posToEntries hash index)
  have hTable : tableEnd (bitsOf index.length) = 8 + 2 ^ bitsOf index.length * 8 := rfl
  generalize hInitial : (⟨fileLength format index, old⟩ : File) = initial
  have hInitialLength : initial.length = fileLength format index := by rw [← hInitial]
  obtain ⟨first, hFirst, hFirstChanges, hMask⟩ := File.writeNat_spec (by omega : 0 + 8 ≤ initial.length)
    (by omega : 2 ^ bitsOf index.length - 1 < 256 ^ 8)
  have hFirstLength := hFirstChanges.length
  have hZeros : (List.replicate (2 ^ bitsOf index.length * 8) (0 : Byte)).length = 2 ^ bitsOf index.length * 8 :=
    length_replicate
  obtain ⟨second, hSecond, hSecondChanges, hSecondRead⟩ :=
    File.write_spec (by omega : 8 + (List.replicate (2 ^ bitsOf index.length * 8) (0 : Byte)).length ≤ first.length)
  rw [hZeros] at hSecondChanges hSecondRead
  have hSecondLength := hSecondChanges.length
  have hWords := words_zero hSecondRead
  obtain ⟨file, hWrite, hLength, hFrame, hSlots⟩ := @writeGroups_spec K format groups second (bitsOf index.length)
    (tableEnd (bitsOf index.length)) (Nat.le_refl _) (by omega) (by omega) hPos hNodup fun group hGroup =>
      hWords group.1 (hPos group hGroup)
  refine ⟨file, ?_, by omega, ?_, hSlots, ?_⟩
  · simp only [serialize, Nat.mod_eq_of_lt (by omega : fileLength format index < 2 ^ 64), hInitial, hFirst, hSecond,
      hWrite, Option.bind_eq_bind, Option.bind_some]
    rw [if_neg (by omega)]
  · rw [File.readNat, hFrame 0 8 (by omega) fun group _ => by omega, ← File.readNat, hSecondChanges.readNat (by omega),
      hMask]
  · intro pos hLess hOut
    have hApart : ∀ group ∈ groups, 8 + pos * 8 + 8 ≤ 8 + group.1 * 8 ∨ 8 + group.1 * 8 + 8 ≤ 8 + pos * 8 := by
      intro group hGroup
      have hNe : group.1 ≠ pos := fun hEq => hOut (hEq ▸ mem_map_of_mem hGroup)
      omega
    rw [File.readNat, hFrame _ _ (by omega) hApart, ← File.readNat]
    exact hWords pos hLess

/-- A file is only written when it is not too long. -/
theorem fileLength_lt_of_serialize {old : Nat → Byte} {file : File} (hGroups : groups.Perm (posToEntries hash index))
    (h : serialize format old index groups = some file) : fileLength format index < 2 ^ 63 := by
  have hTotal : fileLength format index = _ := fileLength_eq hGroups
  by_contra hLong
  have hShort : ¬2 ^ 63 ≤ fileLength format index % 2 ^ 64 := by
    intro hNone
    rw [serialize] at h
    simp only [if_pos hNone] at h
    cases h
  simp only [serialize, if_neg hShort, Option.bind_eq_bind, Option.bind_eq_some_iff] at h
  obtain ⟨first, hFirst, second, hSecond, ⟨last, offset⟩, hGroups, _⟩ := h
  have hFirstLength := (File.writeNat_eq_some hFirst).1
  have hSecondLength := File.write_eq_some hSecond
  have hLast := writeGroups_length hGroups
  rw [length_replicate] at hSecondLength
  rw [tableEnd] at hLast hTotal
  dsimp only at hFirstLength
  omega

/-! ## Looking up -/

section

variable [DecidableEq K]

/-- The bucket of an entry that was found, or an empty one. -/
def bucketAt (format : EntryFormat K) (found : Option (Nat × Entry K)) : Bucket :=
  found.elim ⟨none, 0⟩ fun item => ⟨some (item.1 + format.keySize + 16), int32 item.2.2.length⟩

variable {file : File}

theorem find_eq (key : K) {items : List (Nat × Entry K)} (hEntries : ∀ item ∈ items, EntryAt format file item.1 item.2)
    (hPos : ∀ item ∈ items, item.1 ≠ 0) {head : Nat} (hChain : Chain format file head (items.map Prod.fst)) {fuel : Nat}
    (hFuel : items.length < fuel) :
    find format file key fuel head = some (bucketAt format (items.find? fun item => item.2.1 = key)) := by
  induction items generalizing head fuel with
  | nil =>
    obtain ⟨fuel, rfl⟩ := Nat.exists_eq_succ_of_ne_zero (by omega : fuel ≠ 0)
    have hZero : head = 0 := hChain
    rw [find, if_pos hZero, find?_nil]
    rfl
  | cons item items ih =>
    obtain ⟨fuel, rfl⟩ := Nat.exists_eq_succ_of_ne_zero (by omega : fuel ≠ 0)
    rw [forall_mem_cons] at hEntries hPos
    rw [length_cons] at hFuel
    obtain ⟨rfl, next, hNext, hRest⟩ := hChain
    rw [find, if_neg hPos.1, format.readKey_eq hEntries.1.key]
    by_cases hKey : item.2.1 = key
    · rw [find?_cons_of_pos (by simpa using hKey)]
      simp only [Option.bind_eq_bind, Option.bind_some, if_pos hKey, hEntries.1.size, bucketAt, Option.elim_some]
    · rw [find?_cons_of_neg (by simpa using hKey)]
      simp only [Option.bind_eq_bind, Option.bind_some, if_neg hKey, hNext]
      exact ih hEntries.2 hPos.2 hRest (by omega)

/-- The entries of a slot that the loop has linked. -/
def linkedEntries (hash : K → BitVec 64) (index : List (Entry K)) (pos : Nat) : List (Entry K) :=
  (slotEntries hash index pos).take (linkCount (slotEntries hash index pos).length)

/-- The values found for a key are those of its entry among the linked ones. -/
theorem get_spec {groups : List (Nat × List (Entry K))} (hLists : ∀ entry ∈ index, entry.2.length < 2 ^ 31)
    (hGroups : groups.Perm (posToEntries hash index)) (h : Serialized format index groups file) (key : K) :
    ∃ bucket, get format hash file key = some bucket ∧
      bucket.values file = some (((linkedEntries hash index (posOf hash (bitsOf index.length) key)).find? fun entry =>
        entry.1 = key).elim [] Prod.snd) ∧
      ((linkedEntries hash index (posOf hash (bitsOf index.length) key)).find? (fun entry => entry.1 = key) = none →
        bucket = ⟨none, 0⟩) := by
  have hGet : ∀ head, file.readNat (8 + posOf hash (bitsOf index.length) key * 8) 8 = some head →
      get format hash file key = find format file key (file.length + 1) head := by
    intro head hHead
    rw [get, h.mask]
    simp only [Option.bind_eq_bind, Option.bind_some]
    rw [← posOf, hHead, Option.bind_some]
  by_cases hSlot : posOf hash (bitsOf index.length) key ∈ groups.map Prod.fst
  · obtain ⟨group, hGroup, hPos⟩ := mem_map.mp hSlot
    obtain ⟨hEntries, _⟩ := mem_posToEntries (hGroups.subset hGroup)
    obtain ⟨start, hStart, hMem⟩ := @exists_slot K format (tableEnd (bitsOf index.length)) groups group hGroup
    obtain ⟨hAll, head, hHead, hChain⟩ := h.slots _ hMem
    dsimp only at hAll hHead hChain
    rw [length_placed, ← map_take] at hChain
    have hFew : ((placed format start group.2).take (linkCount group.2.length)).length < file.length + 1 := by
      have hLess := (bitsOf_spec index.length).1
      have hFilter : group.2.length ≤ index.length := hEntries ▸ length_filter_le _ _
      rw [length_take, length_placed, h.length, fileLength, tableEnd]
      omega
    have hFound := find_eq key (fun item hItem => hAll item (mem_of_mem_take hItem)) (fun item hItem hZero => by
      have hBounds := bounds_placed (mem_of_mem_take hItem)
      rw [tableEnd] at hStart
      omega) hChain hFew
    have hLinked : (linkedEntries hash index (posOf hash (bitsOf index.length) key)).find? (fun entry => entry.1 = key) =
        (((placed format start group.2).take (linkCount group.2.length)).find? fun item => item.2.1 = key).map
          Prod.snd := by
      rw [linkedEntries, ← hPos, ← hEntries]
      nth_rewrite 2 [← map_snd_placed format start group.2]
      rw [← map_take, find?_map]
      rfl
    refine ⟨_, (hGet head (hPos ▸ hHead)).trans hFound, ?_, ?_⟩ <;> rw [hLinked]
    · cases hItem : ((placed format start group.2).take (linkCount group.2.length)).find? fun item => item.2.1 = key with
      | none => rfl
      | some item =>
        have hMemItem := mem_of_mem_take (mem_of_find?_eq_some hItem)
        have hMemEntry : item.2 ∈ index := by
          refine mem_of_mem_filter (p := fun entry => posOf hash (bitsOf index.length) entry.1 = group.1) ?_
          rw [← slotEntries, ← hEntries, ← map_snd_placed format start group.2]
          exact mem_map_of_mem hMemItem
        have hShort := hLists item.2 hMemEntry
        simp only [bucketAt, Option.elim_some, Option.map_some, Bucket.values]
        rw [int32_eq (by omega) (by omega), Int.toNat_natCast]
        exact (hAll item hMemItem).values
    · intro hNone
      rw [Option.map_eq_none_iff.mp hNone]
      rfl
  · have hEmpty : slotEntries hash index (posOf hash (bitsOf index.length) key) = [] := by
      refine filter_eq_nil_iff.mpr fun entry hEntry hSame => hSlot ?_
      obtain ⟨group, hGroup, hPos⟩ := @exists_group K hash index entry hEntry
      rw [← of_decide_eq_true hSame, ← hPos]
      exact mem_map_of_mem (hGroups.symm.subset hGroup)
    rw [linkedEntries, hEmpty, take_nil, find?_nil, hGet 0 (h.empty _ (posOf_lt hash _ key) hSlot)]
    exact ⟨⟨none, 0⟩, rfl, rfl, fun _ => rfl⟩

end

end KushDB.ColumnIndex
