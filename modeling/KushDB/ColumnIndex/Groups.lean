import KushDB.ColumnIndex.Serialize

/-! # The entries of a slot

The entries are written one behind the other. Then the loop puts them, from the last to the first, before the list of
their slot.
-/

namespace KushDB.ColumnIndex

open KushDB.Bytes KushDB.Execution KushDB.Runtime List

variable {K : Type} {format : EntryFormat K}

structure EntryAt (format : EntryFormat K) (file : File) (offset : Nat) (entry : Entry K) : Prop where
  key : format.KeyAt file offset entry
  size : file.readNat (offset + format.keySize) 8 = some entry.2.length
  values : readValues file (offset + format.keySize + 16) entry.2.length = some entry.2

variable {file next : File} {offset first last pos : Nat} {items : List (Nat × Entry K)}

/-- An entry does not depend on the offset of the next one. -/
theorem EntryAt.congr {entry : Entry K} (h : EntryAt format file offset entry)
    (hSame : ∀ other length, offset ≤ other → other + length ≤ offset + entryLength format entry →
      other + length ≤ offset + format.keySize + 8 ∨ offset + format.keySize + 16 ≤ other →
      next.read other length = file.read other length) : EntryAt format next offset entry := by
  simp only [entryLength] at hSame
  refine ⟨format.keyAt_congr h.key (fun other length _ _ => ?_) fun other length _ _ => ?_, ?_, ?_⟩
  · exact hSame other length (by omega) (by omega) (by omega)
  · exact hSame other length (by omega) (by omega) (by omega)
  · rw [File.readNat, hSame _ _ (by omega) (by omega) (by omega)]
    exact h.size
  · rw [readValues_congr fun other length _ _ => hSame other length (by omega) (by omega) (by omega)]
    exact h.values

/-! ## Places -/

def totalLength (format : EntryFormat K) (entries : List (Entry K)) : Nat := (entries.map (entryLength format)).sum

/-- The entries with their offsets. -/
def placed (format : EntryFormat K) : Nat → List (Entry K) → List (Nat × Entry K)
  | _, [] => []
  | offset, entry :: entries => (offset, entry) :: placed format (offset + entryLength format entry) entries

theorem totalLength_cons (entry : Entry K) (entries : List (Entry K)) :
    totalLength format (entry :: entries) = entryLength format entry + totalLength format entries := by
  rw [totalLength, map_cons, sum_cons, totalLength]

theorem totalLength_append (left right : List (Entry K)) :
    totalLength format (left ++ right) = totalLength format left + totalLength format right := by
  rw [totalLength, map_append, sum_append]
  rfl

theorem map_snd_placed (format : EntryFormat K) (offset : Nat) (entries : List (Entry K)) :
    (placed format offset entries).map Prod.snd = entries := by
  induction entries generalizing offset with
  | nil => rfl
  | cons entry entries ih => rw [placed, map_cons, ih]

theorem length_placed (offset : Nat) (entries : List (Entry K)) : (placed format offset entries).length = entries.length := by
  rw [← length_map Prod.snd, map_snd_placed]

theorem placed_append (offset : Nat) (left right : List (Entry K)) :
    placed format offset (left ++ right) =
      placed format offset left ++ placed format (offset + totalLength format left) right := by
  induction left generalizing offset with
  | nil => rfl
  | cons entry left ih => rw [cons_append, placed, ih, placed, totalLength_cons, cons_append, Nat.add_assoc]

variable {entries : List (Entry K)} {item : Nat × Entry K} {linked : List Nat}

theorem bounds_placed (h : item ∈ placed format offset entries) :
    offset ≤ item.1 ∧ item.1 + entryLength format item.2 ≤ offset + totalLength format entries := by
  induction entries generalizing offset with
  | nil => cases h
  | cons entry entries ih =>
    rw [placed, mem_cons] at h
    rw [totalLength_cons]
    rcases h with rfl | hRest
    · exact ⟨Nat.le_refl _, Nat.add_le_add_left (Nat.le_add_right _ _) _⟩
    · have hBounds := ih hRest
      omega

theorem pairwise_placed (offset : Nat) (entries : List (Entry K)) :
    (placed format offset entries).Pairwise fun left right => left.1 + entryLength format left.2 ≤ right.1 := by
  induction entries generalizing offset with
  | nil => exact List.Pairwise.nil
  | cons entry entries ih =>
    rw [placed, pairwise_cons]
    exact ⟨fun item hItem => (bounds_placed hItem).1, ih _⟩

/-! ## Writing the entries -/

theorem writeEntries_spec (hLength : offset + totalLength format entries ≤ file.length) (hFile : file.length < 2 ^ 63)
    (done : List Nat) :
    ∃ next, entries.foldlM (writeOne format) (file, offset, done) =
        some (next, offset + totalLength format entries, done ++ (placed format offset entries).map Prod.fst) ∧
      file.Changes next offset (offset + totalLength format entries) ∧
      ∀ item ∈ placed format offset entries, EntryAt format next item.1 item.2 := by
  induction entries generalizing file offset done with
  | nil =>
    refine ⟨file, by simp [placed, totalLength], File.Changes.refl _ _ _, fun item hItem => ?_⟩
    cases hItem
  | cons entry entries ih =>
    rw [totalLength_cons] at hLength
    have hEntryLength : entryLength format entry =
      format.keySize + 16 + entry.2.length * 4 + format.tailLength entry.1 := rfl
    obtain ⟨first, hFirst, hFirstChanges, hKey, hSize, hValues⟩ :=
      @EntryFormat.writeEntry_spec K format file offset entry (by omega) hFile
    have hFirstLength := hFirstChanges.length
    obtain ⟨next, hNext, hNextChanges, hEntries⟩ := @ih first (offset + entryLength format entry) (by omega) (by omega)
      (done ++ [offset])
    refine ⟨next, ?_, ?_, ?_⟩
    · rw [append_assoc, singleton_append] at hNext
      rw [foldlM_cons, writeOne, hFirst, totalLength_cons, placed, map_cons, ← Nat.add_assoc]
      exact hNext
    · rw [totalLength_cons]
      exact (hFirstChanges.mono (by omega) (by omega)).trans (hNextChanges.mono (by omega) (by omega))
    · intro item hItem
      rw [placed, mem_cons] at hItem
      rcases hItem with rfl | hRest
      · have hHead : EntryAt format first offset entry := ⟨hKey, hSize, hValues⟩
        exact hHead.congr fun other length _ hLast _ => hNextChanges.read other length (by omega)
      · exact hEntries item hRest

/-! ## Linking -/

/-- The list that starts at an offset. -/
def Chain (format : EntryFormat K) (file : File) : Nat → List Nat → Prop
  | head, [] => head = 0
  | head, offset :: rest => head = offset ∧
    ∃ next, file.readNat (offset + format.keySize + 8) 8 = some next ∧ Chain format file next rest

theorem Chain.congr {offsets : List Nat}
    (hSame : ∀ offset ∈ offsets, next.read (offset + format.keySize + 8) 8 = file.read (offset + format.keySize + 8) 8)
    {head : Nat} (h : Chain format file head offsets) : Chain format next head offsets := by
  induction offsets generalizing head with
  | nil => exact h
  | cons offset rest ih =>
    rw [forall_mem_cons] at hSame
    obtain ⟨hHead, following, hNext, hRest⟩ := h
    refine ⟨hHead, following, ?_, ih hSame.2 hRest⟩
    rw [File.readNat, hSame.1]
    exact hNext

/-- Only the word of the slot and the addresses from `first` on and below `last` have changed. -/
structure Grows (file next : File) (pos first last : Nat) : Prop where
  length : next.length = file.length
  read : ∀ offset count, offset + count ≤ first ∨ last ≤ offset →
    offset + count ≤ 8 + pos * 8 ∨ 8 + pos * 8 + 8 ≤ offset → next.read offset count = file.read offset count

theorem Grows.trans {middle : File} (h : Grows file middle pos first last) (hNext : Grows middle next pos first last) :
    Grows file next pos first last :=
  ⟨hNext.length.trans h.length, fun offset count hOut hWord =>
    (hNext.read offset count hOut hWord).trans (h.read offset count hOut hWord)⟩

theorem grows_of_entries {lower upper : Nat} (h : file.Changes next lower upper) (hLower : first ≤ lower)
    (hUpper : upper ≤ last) : Grows file next pos first last :=
  ⟨h.length, fun offset count _ _ => h.read offset count (by omega)⟩

theorem grows_of_word (h : file.Changes next (8 + pos * 8) (8 + pos * 8 + 8)) : Grows file next pos first last :=
  ⟨h.length, fun offset count _ hWord => h.read offset count hWord⟩

/-- The entries of a slot, which its word and their links lead to. -/
structure GroupAt (format : EntryFormat K) (file : File) (pos : Nat) (items : List (Nat × Entry K)) (linked : List Nat) :
    Prop where
  entries : ∀ item ∈ items, EntryAt format file item.1 item.2
  chain : ∃ head, file.readNat (8 + pos * 8) 8 = some head ∧ Chain format file head linked

theorem GroupAt.congr (h : GroupAt format file pos items linked)
    (hLinked : ∀ offset ∈ linked, offset ∈ items.map Prod.fst)
    (hItems : ∀ item ∈ items, first ≤ item.1 ∧ item.1 + entryLength format item.2 ≤ last)
    (hSame : ∀ offset count, first ≤ offset → offset + count ≤ last → next.read offset count = file.read offset count)
    (hWord : next.read (8 + pos * 8) 8 = file.read (8 + pos * 8) 8) : GroupAt format next pos items linked := by
  refine ⟨fun item hItem => (h.entries item hItem).congr fun other length hFirst hLast _ => ?_, ?_⟩
  · have hBounds := hItems item hItem
    exact hSame other length (by omega) (by omega)
  · obtain ⟨head, hHead, hChain⟩ := h.chain
    refine ⟨head, by rw [File.readNat, hWord]; exact hHead, hChain.congr fun offset hOffset => ?_⟩
    obtain ⟨item, hItem, rfl⟩ := mem_map.mp (hLinked offset hOffset)
    have hBounds := hItems item hItem
    rw [entryLength] at hBounds
    exact hSame _ _ (by omega) (by omega)

theorem apart_of_ne (h : items.Pairwise fun left right => left.1 + entryLength format left.2 ≤ right.1)
    {left right : Nat × Entry K} (hLeft : left ∈ items) (hRight : right ∈ items) (hNe : left ≠ right) :
    left.1 + entryLength format left.2 ≤ right.1 ∨ right.1 + entryLength format right.2 ≤ left.1 := by
  have hEither : items.Pairwise fun left right =>
      left.1 + entryLength format left.2 ≤ right.1 ∨ right.1 + entryLength format right.2 ≤ left.1 := h.imp Or.inl
  have hSymm : Std.Symm fun left right : Nat × Entry K =>
      left.1 + entryLength format left.2 ≤ right.1 ∨ right.1 + entryLength format right.2 ≤ left.1 := ⟨fun _ _ => Or.symm⟩
  exact hEither.forall hLeft hRight hNe

theorem nodup_offsets (h : items.Pairwise fun left right => left.1 + entryLength format left.2 ≤ right.1) :
    (items.map Prod.fst).Nodup := by
  rw [List.Nodup, pairwise_map]
  refine h.imp fun {left right} hApart hEq => ?_
  have hPos := format.keySize_pos
  rw [entryLength] at hApart
  omega

/-- One more entry is put before the list. -/
theorem link_spec (h : GroupAt format file pos items linked) (hTable : 8 + pos * 8 + 8 ≤ first)
    (hLast : last ≤ file.length) (hFile : file.length < 2 ^ 63)
    (hItems : ∀ item ∈ items, first ≤ item.1 ∧ item.1 + entryLength format item.2 ≤ last)
    (hApart : items.Pairwise fun left right => left.1 + entryLength format left.2 ≤ right.1)
    (hLinked : ∀ offset ∈ linked, offset ∈ items.map Prod.fst) (hItem : item ∈ items) (hNew : item.1 ∉ linked) :
    ∃ next, link format pos file item.1 = some next ∧ Grows file next pos first last ∧
      GroupAt format next pos items (item.1 :: linked) := by
  obtain ⟨head, hHead, hChain⟩ := h.chain
  have hBounds := hItems item hItem
  have hLength : format.keySize + 16 ≤ entryLength format item.2 := by
    rw [entryLength]
    omega
  obtain ⟨middle, hMiddle, hMiddleChanges, hNext⟩ := File.writeNat_spec
    (by omega : item.1 + format.keySize + 8 + 8 ≤ file.length) (File.readNat_lt hHead)
  have hMiddleLength := hMiddleChanges.length
  obtain ⟨next, hWrite, hChanges, hWord⟩ := File.writeNat_spec
    (by omega : 8 + pos * 8 + 8 ≤ middle.length) (by omega : item.1 < 256 ^ 8)
  have hRead : ∀ offset count, first ≤ offset →
      offset + count ≤ item.1 + format.keySize + 8 ∨ item.1 + format.keySize + 16 ≤ offset →
      next.read offset count = file.read offset count := by
    intro offset count hFirst hOut
    rw [hChanges.read _ _ (by omega), hMiddleChanges.read _ _ (by omega)]
  refine ⟨next, ?_, ?_, ?_, item.1, hWord, rfl, head, ?_, hChain.congr fun offset hOffset => ?_⟩
  · simp only [link, hHead, hMiddle, hWrite, Option.bind_eq_bind, Option.bind_some]
  · exact (grows_of_entries hMiddleChanges (by omega) (by omega)).trans (grows_of_word hChanges)
  · intro other hOther
    have hOtherBounds := hItems other hOther
    refine (h.entries other hOther).congr fun offset count hFirst hLast hOut => hRead offset count (by omega) ?_
    by_cases hSame : other = item
    · subst hSame
      omega
    · rcases apart_of_ne hApart hOther hItem hSame with hBefore | hBehind <;> omega
  · rw [hChanges.readNat (by omega), hNext]
  · obtain ⟨other, hOther, rfl⟩ := mem_map.mp (hLinked offset hOffset)
    have hOtherBounds := hItems other hOther
    have hOtherLength : format.keySize + 16 ≤ entryLength format other.2 := by
      rw [entryLength]
      omega
    have hNe : other ≠ item := fun hEq => hNew (hEq ▸ hOffset)
    refine hRead _ _ (by omega) ?_
    rcases apart_of_ne hApart hOther hItem hNe with hBefore | hBehind <;> omega

/-- The loop links the entries up to an index, in their order. -/
theorem linkLoop_spec {count : Nat} (hTable : 8 + pos * 8 + 8 ≤ first) (hLast : last ≤ file.length)
    (hFile : file.length < 2 ^ 63) (hItems : ∀ item ∈ items, first ≤ item.1 ∧ item.1 + entryLength format item.2 ≤ last)
    (hApart : items.Pairwise fun left right => left.1 + entryLength format left.2 ≤ right.1)
    (hCount : count ≤ items.length) {i : Nat} (hi : i ≤ count)
    (h : GroupAt format file pos items (((items.map Prod.fst).take count).drop i)) :
    ∃ next, linkLoop format pos (items.map Prod.fst) i file = some next ∧ Grows file next pos first last ∧
      GroupAt format next pos items ((items.map Prod.fst).take count) := by
  induction i generalizing file with
  | zero => exact ⟨file, rfl, ⟨rfl, fun _ _ _ _ => rfl⟩, h⟩
  | succ i ih =>
    have hLess : i < items.length := by omega
    have hOffset : (items.map Prod.fst)[i]? = some items[i].1 := by
      rw [getElem?_map, getElem?_eq_getElem hLess, Option.map_some]
    have hDrop : ((items.map Prod.fst).take count).drop i =
        items[i].1 :: ((items.map Prod.fst).take count).drop (i + 1) := by
      rw [drop_eq_getElem_cons (by rw [length_take, length_map]; omega), getElem_take,
        getElem_map]
    have hNodup : (items[i].1 :: ((items.map Prod.fst).take count).drop (i + 1)).Nodup := by
      rw [← hDrop]
      exact (nodup_offsets hApart).sublist ((drop_sublist _ _).trans (take_sublist _ _))
    obtain ⟨middle, hMiddle, hGrows, hGroup⟩ := link_spec h hTable hLast hFile hItems hApart
      (fun offset hMem => mem_of_mem_take (mem_of_mem_drop hMem)) (getElem_mem hLess)
      (nodup_cons.mp hNodup).1
    rw [← hDrop] at hGroup
    obtain ⟨next, hNext, hNextGrows, hDone⟩ :=
      ih (by rwa [hGrows.length]) (by rwa [hGrows.length]) (by omega) hGroup
    refine ⟨next, ?_, hGrows.trans hNextGrows, hDone⟩
    simp only [linkLoop, hOffset, hMiddle, hNext, Option.bind_eq_bind, Option.bind_some]

end KushDB.ColumnIndex
