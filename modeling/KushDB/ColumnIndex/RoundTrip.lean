import KushDB.ColumnIndex.Lookup

/-! # Reading a column index back

The file has the computed length, its entries lie apart, and every key leads to its list. This fails when a slot has more
entries than a 32 bit integer can count, or when the file would have 2^63 bytes.
-/

namespace KushDB.ColumnIndex

open KushDB.Bytes KushDB.Execution KushDB.Runtime Grouping List

section

variable {K : Type} {format : EntryFormat K} {hash : K → BitVec 64} {index : List (Entry K)}

/-- Every entry of the map has its own part of the file. -/
def Separated (format : EntryFormat K) (index : List (Entry K)) (file : File) : Prop :=
  ∃ items : List (Nat × Entry K), (items.map Prod.snd).Perm index ∧
    (items.Pairwise fun left right => left.1 + entryLength format left.2 ≤ right.1) ∧
    ∀ item ∈ items, tableEnd (bitsOf index.length) ≤ item.1 ∧ item.1 + entryLength format item.2 ≤ file.length ∧
      EntryAt format file item.1 item.2

variable {groups : List (Nat × List (Entry K))} {entry : Entry K}

theorem separated {file : File} (hGroups : groups.Perm (posToEntries hash index))
    (h : Serialized format index groups file) : Separated format index file := by
  have hFlat := flatMap_layout format (tableEnd (bitsOf index.length)) groups
  refine ⟨placed format (tableEnd (bitsOf index.length)) (groups.flatMap Prod.snd), ?_, pairwise_placed _ _, ?_⟩
  · rw [map_snd_placed]
    exact (List.Perm.flatMap_right Prod.snd hGroups).trans (perm_posToEntries hash index)
  · intro item hItem
    obtain ⟨hLow, hHigh⟩ := bounds_placed hItem
    rw [← hFlat] at hItem
    obtain ⟨slot, hSlot, hMem⟩ := mem_flatMap.mp hItem
    refine ⟨hLow, ?_, (h.slots slot hSlot).entries item hMem⟩
    rw [h.length, fileLength_eq hGroups]
    exact hHigh

/-! ## Entries that are linked -/

theorem linkedEntries_subset {pos : Nat} (h : entry ∈ linkedEntries hash index pos) : entry ∈ index :=
  mem_of_mem_filter (mem_of_mem_take h)

/-- Entries that are not linked have empty lists. -/
def Linked (hash : K → BitVec 64) (index : List (Entry K)) : Prop :=
  ∀ group ∈ posToEntries hash index, ∀ entry ∈ group.2.drop (linkCount group.2.length), entry.2 = []

theorem mem_slot (h : entry ∈ index) :
    entry ∈ linkedEntries hash index (posOf hash (bitsOf index.length) entry.1) ∨
      ∃ group ∈ posToEntries hash index, entry ∈ group.2.drop (linkCount group.2.length) := by
  have hSlot : entry ∈ slotEntries hash index (posOf hash (bitsOf index.length) entry.1) :=
    mem_filter.mpr ⟨h, decide_eq_true rfl⟩
  obtain ⟨group, hGroup, hPos⟩ := @exists_group K hash index entry h
  rw [← take_append_drop (linkCount (slotEntries hash index (posOf hash (bitsOf index.length) entry.1)).length)
    (slotEntries hash index (posOf hash (bitsOf index.length) entry.1)), mem_append] at hSlot
  refine hSlot.imp_right fun hDrop => ⟨group, hGroup, ?_⟩
  rwa [(mem_posToEntries hGroup).1, hPos]

theorem linked_of_le (h : index.length ≤ 2 ^ 31) : Linked hash index := by
  intro group hGroup entry hDrop
  have hLength : group.2.length ≤ index.length := by
    rw [(mem_posToEntries hGroup).1]
    exact length_filter_le _ _
  rw [linkCount_eq (by omega), drop_length] at hDrop
  cases hDrop

/-! ## Round trips -/

variable [DecidableEq K]

/-- The list of a key, empty for keys that are not in the map. -/
def listOf (index : List (Entry K)) (key : K) : List (BitVec 32) :=
  (index.find? fun entry => entry.1 = key).elim [] Prod.snd

def RoundTrips (format : EntryFormat K) (hash : K → BitVec 64) (old : Nat → Byte) (index : List (Entry K))
    (groups : List (Nat × List (Entry K))) : Prop :=
  ∃ file, serialize format old index groups = some file ∧ file.length = fileLength format index ∧
    Separated format index file ∧
    ∀ key, ∃ bucket, get format hash file key = some bucket ∧ bucket.values file = some (listOf index key) ∧
      ((∀ entry ∈ index, entry.1 ≠ key) → bucket = ⟨none, 0⟩)

variable {entries : List (Entry K)}

theorem find_of_nodup (h : (entries.map Prod.fst).Nodup) (hEntry : entry ∈ entries) :
    (entries.find? fun other => other.1 = entry.1) = some entry := by
  induction entries with
  | nil => cases hEntry
  | cons first entries ih =>
    rw [map_cons, nodup_cons] at h
    rcases mem_cons.mp hEntry with rfl | hRest
    · exact find?_cons_of_pos (decide_eq_true rfl)
    · have hNe : ¬first.1 = entry.1 := fun hEq => h.1 (hEq ▸ mem_map_of_mem hRest)
      rw [find?_cons_of_neg (by simpa using hNe), ih h.2 hRest]

theorem find_eq_none {key : K} (h : ∀ entry ∈ entries, entry.1 ≠ key) :
    (entries.find? fun other => other.1 = key) = none :=
  find?_eq_none.mpr fun entry hEntry hEq => h entry hEntry (of_decide_eq_true hEq)

/-- What is found is the list of the key, unless its entry has not been linked. -/
theorem find_linkedEntries (hKeys : (index.map Prod.fst).Nodup) (hEntry : entry ∈ index) :
    (linkedEntries hash index (posOf hash (bitsOf index.length) entry.1)).find? (fun other => other.1 = entry.1) =
      if entry ∈ linkedEntries hash index (posOf hash (bitsOf index.length) entry.1) then some entry else none := by
  have hUnique : ∀ other ∈ index, other.1 = entry.1 → other = entry := by
    intro other hOther hEq
    have hFind := find_of_nodup hKeys hOther
    rw [hEq, find_of_nodup hKeys hEntry] at hFind
    exact (Option.some.inj hFind).symm
  split
  · rename_i hLinked
    refine find_of_nodup ?_ hLinked
    exact hKeys.sublist (((take_sublist _ _).trans filter_sublist).map _)
  · rename_i hNot
    refine find_eq_none fun other hOther hEq => hNot ?_
    have hSame := hUnique other (linkedEntries_subset hOther) hEq
    subst hSame
    exact hOther

theorem roundTrips_of_linked (old : Nat → Byte) (hKeys : (index.map Prod.fst).Nodup)
    (hLists : ∀ entry ∈ index, entry.2.length < 2 ^ 31) (hGroups : groups.Perm (posToEntries hash index))
    (hFile : fileLength format index < 2 ^ 63) (hLinked : Linked hash index) :
    RoundTrips format hash old index groups := by
  obtain ⟨file, hWrite, h⟩ := serialize_spec old hGroups hFile
  refine ⟨file, hWrite, h.length, separated hGroups h, fun key => ?_⟩
  obtain ⟨bucket, hGet, hValues, hNone⟩ := get_spec hLists hGroups h key
  refine ⟨bucket, hGet, ?_, fun hOther => hNone (find_eq_none fun entry hEntry => hOther entry (linkedEntries_subset hEntry))⟩
  rw [hValues, listOf]
  by_cases hMem : ∃ entry ∈ index, entry.1 = key
  · obtain ⟨entry, hEntry, rfl⟩ := hMem
    rw [find_linkedEntries hKeys hEntry, find_of_nodup hKeys hEntry]
    split
    · rfl
    · rename_i hNot
      obtain ⟨group, hGroup, hDrop⟩ := (mem_slot hEntry).resolve_left hNot
      rw [Option.elim_none, Option.elim_some, hLinked group hGroup entry hDrop]
  · have hOther : ∀ entry ∈ index, entry.1 ≠ key := fun entry hEntry hEq => hMem ⟨entry, hEntry, hEq⟩
    rw [find_eq_none hOther, find_eq_none fun entry hEntry => hOther entry (linkedEntries_subset hEntry)]

theorem linked_of_roundTrips {old : Nat → Byte} (hKeys : (index.map Prod.fst).Nodup)
    (hLists : ∀ entry ∈ index, entry.2.length < 2 ^ 31) (hGroups : groups.Perm (posToEntries hash index))
    (h : RoundTrips format hash old index groups) : fileLength format index < 2 ^ 63 ∧ Linked hash index := by
  obtain ⟨file, hWrite, _, _, hGets⟩ := h
  have hFile := fileLength_lt_of_serialize hGroups hWrite
  refine ⟨hFile, fun group hGroup entry hDrop => ?_⟩
  obtain ⟨hEntries, _⟩ := mem_posToEntries hGroup
  have hSlot : entry ∈ slotEntries hash index group.1 := hEntries ▸ mem_of_mem_drop hDrop
  obtain ⟨hEntry, hPos⟩ := mem_filter.mp hSlot
  obtain ⟨other, hOther, hSerialized⟩ := serialize_spec old hGroups hFile
  obtain rfl : file = other := Option.some.inj (hWrite.symm.trans hOther)
  obtain ⟨bucket, hGet, hValues, _⟩ := get_spec hLists hGroups hSerialized entry.1
  obtain ⟨found, hFound, hList, _⟩ := hGets entry.1
  obtain rfl : bucket = found := Option.some.inj (hGet.symm.trans hFound)
  -- The entry stands behind the linked ones, and the keys differ.
  have hNot : entry ∉ linkedEntries hash index (posOf hash (bitsOf index.length) entry.1) := by
    rw [linkedEntries, of_decide_eq_true hPos, ← hEntries]
    have hNodup : group.2.Nodup := by
      rw [hEntries]
      exact (List.Nodup.of_map _ hKeys).filter _
    rw [← take_append_drop (linkCount group.2.length) group.2, nodup_append] at hNodup
    exact fun hTake => hNodup.2.2 entry hTake entry hDrop rfl
  rw [hList, listOf, find_of_nodup hKeys hEntry, find_linkedEntries hKeys hEntry, if_neg hNot] at hValues
  exact Option.some.inj hValues

end

/-! ## The types of columns -/

inductive ColumnType
  | int8
  | int16
  | int32
  | int64
  | text
deriving DecidableEq, Repr

namespace ColumnType

def Key : ColumnType → Type
  | int8 => BitVec (8 * 1)
  | int16 => BitVec (8 * 2)
  | int32 => BitVec (8 * 4)
  | int64 => BitVec (8 * 8)
  | text => List Byte

instance : (type : ColumnType) → DecidableEq type.Key
  | int8 => inferInstanceAs (DecidableEq (BitVec (8 * 1)))
  | int16 => inferInstanceAs (DecidableEq (BitVec (8 * 2)))
  | int32 => inferInstanceAs (DecidableEq (BitVec (8 * 4)))
  | int64 => inferInstanceAs (DecidableEq (BitVec (8 * 8)))
  | text => inferInstanceAs (DecidableEq (List Byte))

def format : (type : ColumnType) → EntryFormat type.Key
  | int8 => intFormat 1 (by decide)
  | int16 => intFormat 2 (by decide)
  | int32 => intFormat 4 (by decide)
  | int64 => intFormat 8 (by decide)
  | text => stringFormat

/-- Numbers have a hash function of their own. -/
def hash (stdHash : List Byte → BitVec 64) : (type : ColumnType) → type.Key → BitVec 64
  | int8 => fun key => hash64 (@toUInt64 1 key)
  | int16 => fun key => hash64 (@toUInt64 2 key)
  | int32 => fun key => hash64 (@toUInt64 4 key)
  | int64 => fun key => hash64 (@toUInt64 8 key)
  | text => stdHash

end ColumnType

/-- An index can be read back exactly when its file has less than 2^63 bytes and no slot has entries with values that
the loop does not link. -/
theorem index_roundTrips_iff (type : ColumnType) (stdHash : List Byte → BitVec 64) (old : Nat → Byte)
    (index : List (Entry type.Key)) (hKeys : (index.map Prod.fst).Nodup)
    (hLists : ∀ entry ∈ index, entry.2.length < 2 ^ 31) (groups : List (Nat × List (Entry type.Key)))
    (hGroups : groups.Perm (posToEntries (type.hash stdHash) index)) :
    RoundTrips type.format (type.hash stdHash) old index groups ↔
      fileLength type.format index < 2 ^ 63 ∧
      ∀ group ∈ posToEntries (type.hash stdHash) index, ∀ entry ∈ group.2.drop (linkCount group.2.length),
        entry.2 = [] := by
  constructor
  · exact linked_of_roundTrips hKeys hLists hGroups
  · rintro ⟨hFile, hLinked⟩
    exact roundTrips_of_linked old hKeys hLists hGroups hFile hLinked

/-- Two small numbers, one of them without values. -/
def smallIndex : List (Entry ColumnType.int8.Key) := [((1 : BitVec 8), [7, 8]), ((2 : BitVec 8), [])]

theorem fileLength_smallIndex : fileLength ColumnType.int8.format smallIndex < 2 ^ 63 := by
  have hBits := (bitsOf_spec 2).2
  change 8 + 2 ^ bitsOf 2 * 8 + 56 < 2 ^ 63
  omega

theorem roundTrips_smallIndex : RoundTrips ColumnType.int8.format (ColumnType.int8.hash fun _ => 0) (fun _ => 255)
    smallIndex (posToEntries (ColumnType.int8.hash fun _ => 0) smallIndex) :=
  (index_roundTrips_iff ColumnType.int8 (fun _ => 0) (fun _ => 255) smallIndex (by decide) (by decide) _
    (List.Perm.refl _)).mpr ⟨fileLength_smallIndex, linked_of_le (by decide)⟩

/-! ## Too many entries in a slot -/

/-- Strings of four bytes, each with one value. -/
def wordIndex (count : Nat) : List (Entry ColumnType.text.Key) := (List.range count).map fun number => (encode 4 number, [0])

theorem nodup_wordIndex {count : Nat} (h : count ≤ 2 ^ 32) : ((wordIndex count).map Prod.fst).Nodup := by
  rw [wordIndex, map_map]
  refine List.Nodup.map_on (fun left hLeft right hRight hEq => ?_) nodup_range
  rw [mem_range] at hLeft hRight
  have hDecode : decode (encode 4 left) = decode (encode 4 right) := congrArg decode hEq
  rwa [decode_encode (by omega), decode_encode (by omega)] at hDecode

variable {count : Nat}

theorem short_wordIndex : ∀ entry ∈ wordIndex count, entry.2.length < 2 ^ 31 := by
  intro entry hEntry
  obtain ⟨number, _, rfl⟩ := mem_map.mp hEntry
  exact (by decide : 1 < 2 ^ 31)

theorem not_linked_wordIndex (hPos : 0 < count) (hCount : linkCount count = 0) :
    ¬Linked (ColumnType.text.hash fun _ => 0) (wordIndex count) := by
  intro hLinked
  have hEntry : ((encode 4 0, [0]) : Entry ColumnType.text.Key) ∈ wordIndex count :=
    mem_map.mpr ⟨0, mem_range.mpr hPos, rfl⟩
  obtain ⟨group, hGroup, hSlot⟩ := @exists_group _ (ColumnType.text.hash fun _ => 0) _ _ hEntry
  have hAll : group.2 = wordIndex count := by
    rw [(mem_posToEntries hGroup).1, hSlot]
    exact filter_eq_self.mpr fun entry _ => decide_eq_true rfl
  have hLength : (wordIndex count).length = count := by rw [wordIndex, length_map, length_range]
  have hNil := hLinked group hGroup (encode 4 0, [0]) (by rwa [hAll, hLength, hCount, drop_zero])
  cases hNil

/-- All keys have one hash, and the loop starts at a negative number. -/
theorem not_roundTrips_wordIndex :
    ((wordIndex 2147483649).map Prod.fst).Nodup ∧ (∀ entry ∈ wordIndex 2147483649, entry.2.length < 2 ^ 31) ∧
    ¬RoundTrips ColumnType.text.format (ColumnType.text.hash fun _ => 0) (fun _ => 0) (wordIndex 2147483649)
      (posToEntries (ColumnType.text.hash fun _ => 0) (wordIndex 2147483649)) := by
  have hKeys := @nodup_wordIndex 2147483649 (by decide)
  refine ⟨hKeys, short_wordIndex, fun hTrips => ?_⟩
  exact not_linked_wordIndex (by decide) (by decide)
    (linked_of_roundTrips hKeys short_wordIndex (List.Perm.refl _) hTrips).2

end KushDB.ColumnIndex
