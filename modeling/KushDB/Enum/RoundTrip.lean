import KushDB.Enum.Entries
import KushDB.Library.Probing

/-! # Reading a dictionary back

The table of offsets holds each item on the path from its hash, whatever the hashes are and in whatever order the items
come. With the entries and strings this gives back every key from its number, every number from its key, and -1 for
other strings.
-/

namespace KushDB.Enum

open KushDB.Bytes KushDB.Execution KushDB.Runtime KushDB.Probing List

variable {order : List (List Byte × Int)} {hash : List Byte → BitVec 64} {bits : Nat}

/-- Where the search for the item of this number starts. -/
def startOf (hash : List Byte → BitVec 64) (bits : Nat) (order : List (List Byte × Int)) (number : Nat) : Nat :=
  order[number]?.elim 0 fun item => (hash item.1).toNat % 2 ^ bits

/-- The offset of the entry of this number. -/
def offsetOf (bits : Nat) (order : List (List Byte × Int)) (number : Nat) : Nat :=
  order[number]?.elim 0 fun item => entryOffset bits + item.2.toNat * 16

def wordOf (bits : Nat) (order : List (List Byte × Int)) (slot : Nat → Option Nat) (pos : Nat) : Nat :=
  (slot pos).elim 0 (offsetOf bits order)

theorem offsetOf_ne_zero {number : Nat} (h : number < order.length) : offsetOf bits order number ≠ 0 := by
  rw [offsetOf, getElem?_eq_getElem h, Option.elim_some, entryOffset]
  omega

variable {file : File} {count : Nat}

theorem emptySlot_eq {word : Nat → Nat} (h : Words file 16 (2 ^ bits) word) (fuel : Nat) {pos : Nat}
    (hPos : pos < 2 ^ bits) :
    emptySlot file (2 ^ bits - 1) fuel pos = search (2 ^ bits) (fun pos => word pos = 0) fuel pos := by
  induction fuel generalizing pos with
  | zero => rfl
  | succ fuel ih =>
    rw [emptySlot, search, h pos hPos, Nat.and_two_pow_sub_one_eq_mod, ih (Nat.mod_lt _ (Nat.two_pow_pos bits))]
    simp only [Option.bind_eq_bind, Option.bind_some, decide_eq_true_eq, ite_not]

/-- The table after the first items have been inserted. -/
theorem insertKeys_spec (hash : List Byte → BitVec 64) (hRoom : order.length < 2 ^ bits)
    (hLength : 16 + 2 ^ bits * 8 ≤ file.length)
    (hOffsets : ∀ item ∈ order, entryOffset bits + item.2.toNat * 16 < 2 ^ 64)
    (hZero : Words file 16 (2 ^ bits) fun _ => 0) (hCount : count ≤ order.length) :
    ∃ next slot, (order.take count).foldlM (insertKey hash bits) file = some next ∧
      file.Changes next 16 (16 + 2 ^ bits * 8) ∧ Indexes (2 ^ bits) slot (startOf hash bits order) count ∧
      Words next 16 (2 ^ bits) (wordOf bits order slot) := by
  induction count with
  | zero => exact ⟨file, _, rfl, File.Changes.refl _ _ _, indexes_empty _ _, hZero⟩
  | succ count ih =>
    obtain ⟨before, slot, hBefore, hChanges, hIndexes, hWords⟩ := ih (by omega)
    have hItem := getElem?_eq_getElem (by omega : count < order.length)
    have hStart : startOf hash bits order count = (hash (order[count]).1).toNat % 2 ^ bits := by
      rw [startOf, hItem, Option.elim_some]
    have hPos : 0 < 2 ^ bits := Nat.two_pow_pos bits
    have hFirst : startOf hash bits order count < 2 ^ bits := hStart ▸ Nat.mod_lt _ hPos
    have hEmpty : ∀ pos < 2 ^ bits, wordOf bits order slot pos = 0 ↔ slot pos = none := by
      intro pos hLess
      rw [wordOf]
      cases hSlot : slot pos with
      | none => exact iff_of_true rfl rfl
      | some number =>
        have hNumber := hIndexes.lt pos hLess number hSlot
        exact iff_of_false (offsetOf_ne_zero (by omega)) (Option.some_ne_none _)
    obtain ⟨free, hFree, hNone⟩ := hIndexes.exists_free (by omega)
    obtain ⟨distance, hDistance, hStop, hGoesOn⟩ := @exists_first (2 ^ bits)
      (fun pos => wordOf bits order slot pos = 0) _ hFirst ⟨free, hFree, decide_eq_true ((hEmpty free hFree).mpr hNone)⟩
    have hPlace := place_lt hPos (startOf hash bits order count) distance
    have hHere := (hEmpty _ hPlace).mp (of_decide_eq_true hStop)
    have hEarlier : ∀ earlier < distance, slot (place (2 ^ bits) (startOf hash bits order count) earlier) ≠ none :=
      fun earlier hLess hNone => of_decide_eq_false (hGoesOn earlier hLess) ((hEmpty _ (place_lt hPos _ _)).mpr hNone)
    obtain ⟨next, hNext, hNextChanges, hNextWords⟩ := hWords.write (by rw [hChanges.length]; exact hLength) hPlace
      (hOffsets _ (getElem_mem (by omega : count < order.length)))
    refine ⟨next, _, ?_, hChanges.trans hNextChanges, hIndexes.insert hPos hHere hEarlier, ?_⟩
    · rw [take_add_one, hItem, Option.toList_some, foldlM_append, hBefore]
      simp only [Option.bind_eq_bind, Option.bind_some, foldlM_cons, foldlM_nil, bind_pure, insertKey]
      rw [Nat.and_two_pow_sub_one_eq_mod, ← hStart, emptySlot_eq hWords _ hFirst,
        search_of_first hFirst hDistance hStop hGoesOn, Option.bind_some, hNext]
    · intro pos hLess
      rw [hNextWords pos hLess, wordOf]
      by_cases hEq : pos = place (2 ^ bits) (startOf hash bits order count) distance
      · rw [hEq, Function.update_self, Function.update_self, Option.elim_some, offsetOf, hItem, Option.elim_some]
      · rw [Function.update_of_ne hEq, Function.update_of_ne hEq]
        rfl

/-! ## The whole file -/

/-- What a file with the dictionary of these keys holds. -/
structure Serialized (hash : List Byte → BitVec 64) (keys : List (List Byte)) (order : List (List Byte × Int))
    (bits : Nat) (file : File) : Prop where
  entryOffset : file.readNat 0 8 = some (entryOffset bits)
  mask : file.readNat 8 8 = some (2 ^ bits - 1)
  entryAt : ∀ id (h : id < keys.length), ∃ offset, EntryAt file (Enum.entryOffset bits + id * 16) offset keys[id] id
  table : ∃ slot, Indexes (2 ^ bits) slot (startOf hash bits order) order.length ∧
    Words file 16 (2 ^ bits) (wordOf bits order slot)

section

variable {keys : List (List Byte)}

theorem mem_order (hCount : keys.length ≤ 2 ^ 31) (hOrder : order.Perm (numbered keys)) {item : List Byte × Int} :
    item ∈ order ↔ ∃ (id : Nat) (h : id < keys.length), item = (keys[id], (id : Int)) := by
  rw [hOrder.mem_iff, mem_numbered]
  refine exists_congr fun id => exists_congr fun hId => ?_
  rw [int32_eq (by omega) (by omega)]

theorem fileLength_eq (hOrder : order.Perm (numbered keys)) :
    fileLength order = entryOffset (bitsOf order.length) + order.length * 16 + stringsLength keys := by
  have hKeys : (numbered keys).map Prod.fst = keys := by
    refine ext_getElem? fun id => ?_
    rw [getElem?_map, numbered, getElem?_mapIdx, Option.map_map]
    exact Option.map_id_apply
  have hLength : order.length = keys.length := hOrder.length_eq.trans (length_numbered keys)
  have hSum : (order.map fun item => 16 + item.1.length + 1).sum = (keys.map fun key => 16 + (key.length + 1)).sum := by
    rw [(hOrder.map _).sum_eq]
    nth_rewrite 2 [← hKeys]
    rw [map_map]
    rfl
  rw [fileLength, hSum, sum_map_add, map_const', sum_replicate_nat, ← hLength, stringsLength,
    Nat.add_assoc]

theorem stringsLength_le (hKeys : ∀ key ∈ keys, key.length < 2 ^ 31) : stringsLength keys ≤ keys.length * 2 ^ 31 := by
  induction keys with
  | nil => exact Nat.le_refl _
  | cons key keys ih =>
    rw [forall_mem_cons] at hKeys
    have hRest := ih hKeys.2
    rw [stringsLength, map_cons, sum_cons, ← stringsLength, length_cons]
    omega

theorem fileLength_lt (hCount : keys.length ≤ 2 ^ 31) (hKeys : ∀ key ∈ keys, key.length < 2 ^ 31)
    (hOrder : order.Perm (numbered keys)) : fileLength order < 2 ^ 63 := by
  have hStrings := stringsLength_le hKeys
  have hLength : order.length = keys.length := hOrder.length_eq.trans (length_numbered keys)
  have hBits := (bitsOf_spec order.length).2
  rw [fileLength_eq hOrder, entryOffset]
  omega

theorem serialize_spec (hash : List Byte → BitVec 64) (old : Nat → Byte) (hCount : keys.length ≤ 2 ^ 31)
    (hKeys : ∀ key ∈ keys, key.length < 2 ^ 31) (hOrder : order.Perm (numbered keys)) :
    ∃ file, serialize hash old order = some file ∧ Serialized hash keys order (bitsOf order.length) file := by
  have hLength : order.length = keys.length := hOrder.length_eq.trans (length_numbered keys)
  have hFile := fileLength_lt hCount hKeys hOrder
  have hTotal := fileLength_eq hOrder
  have hRoom := (bitsOf_spec order.length).1
  have hEntries : entryOffset (bitsOf order.length) = 16 + 2 ^ bitsOf order.length * 8 := rfl
  rw [serialize, keysInOrder_eq hCount hOrder]
  generalize bitsOf order.length = bits at *
  generalize hInitial : (⟨fileLength order, old⟩ : File) = initial
  have hInitialLength : initial.length = fileLength order := by rw [← hInitial]
  obtain ⟨first, hFirst, hFirstChanges, hFirstRead⟩ :=
    File.writeNat_spec (by omega : 0 + 8 ≤ initial.length) (by omega : entryOffset bits < 256 ^ 8)
  have hFirstLength := hFirstChanges.length
  obtain ⟨second, hSecond, hSecondChanges, hSecondRead⟩ := writeEntries_spec
    (by omega : entryOffset bits + keys.length * 16 ≤ entryOffset bits + order.length * 16)
    (by omega : entryOffset bits + order.length * 16 + stringsLength keys ≤ first.length) (by omega) hKeys hCount
  have hSecondLength := hSecondChanges.length
  obtain ⟨third, hThird, hThirdChanges, hThirdRead⟩ :=
    File.writeNat_spec (by omega : 8 + 8 ≤ second.length) (by omega : 2 ^ bits - 1 < 256 ^ 8)
  have hThirdLength := hThirdChanges.length
  have hZeros : (List.replicate (2 ^ bits * 8) (0 : Byte)).length = 2 ^ bits * 8 := length_replicate
  obtain ⟨fourth, hFourth, hFourthChanges, hFourthRead⟩ :=
    File.write_spec (by omega : 16 + (List.replicate (2 ^ bits * 8) (0 : Byte)).length ≤ third.length)
  rw [hZeros] at hFourthChanges hFourthRead
  have hFourthLength := hFourthChanges.length
  have hOffsets : ∀ item ∈ order, entryOffset bits + item.2.toNat * 16 < 2 ^ 64 := by
    intro item hItem
    obtain ⟨id, hId, rfl⟩ := (mem_order hCount hOrder).mp hItem
    rw [Int.toNat_natCast]
    omega
  obtain ⟨last, slot, hLast, hLastChanges, hIndexes, hWords⟩ :=
    insertKeys_spec hash hRoom (by omega) hOffsets (words_zero hFourthRead) (Nat.le_refl order.length)
  rw [take_length] at hLast
  refine ⟨last, ?_, ?_, ?_, ?_, slot, hIndexes, hWords⟩
  · simp only [Option.bind_eq_bind, Option.bind_some, hFirst, hSecond, hThird, hFourth, hLast]
  · rw [hLastChanges.readNat (by omega), hFourthChanges.readNat (by omega), hThirdChanges.readNat (by omega),
      hSecondChanges.readNat (by omega), hFirstRead]
  · rw [hLastChanges.readNat (by omega), hFourthChanges.readNat (by omega), hThirdRead]
  · intro id hId
    refine ⟨_, (((hSecondRead id hId).changes hThirdChanges ?_ ?_).changes hFourthChanges ?_ ?_).changes hLastChanges ?_ ?_⟩ <;>
      omega

/-! ## Looking up -/

variable {file : File}

theorem getKey_eq (h : Serialized hash keys order bits file) {id : Nat} (hId : id < keys.length) :
    getKey file id = some keys[id] := by
  obtain ⟨offset, hEntry⟩ := h.entryAt id hId
  simp only [getKey, h.entryOffset, Option.bind_eq_bind, Option.bind_some, Int.toNat_natCast, hEntry.strLen,
    hEntry.strOffset, hEntry.str]
  rw [if_neg (by omega)]

/-- Whether the item of this number has the key. -/
def isKey (order : List (List Byte × Int)) (value : List Byte) (number : Nat) : Bool :=
  order[number]?.any fun item => item.1 = value

theorem findValue_eq (hCount : keys.length ≤ 2 ^ 31) (hOrder : order.Perm (numbered keys))
    (h : Serialized hash keys order bits file) {slot : Nat → Option Nat}
    (hIndexes : Indexes (2 ^ bits) slot (startOf hash bits order) order.length)
    (hWords : Words file 16 (2 ^ bits) (wordOf bits order slot)) (value : List Byte) (fuel : Nat) {pos : Nat}
    (hPos : pos < 2 ^ bits) :
    findValue file (2 ^ bits - 1) value fuel pos =
      (search (2 ^ bits) (fun pos => (slot pos).all (isKey order value)) fuel pos).map fun pos =>
        (slot pos).elim (-1) fun number => order[number]?.elim 0 Prod.snd := by
  induction fuel generalizing pos with
  | zero => rfl
  | succ fuel ih =>
    rw [findValue, search, hWords pos hPos, Nat.and_two_pow_sub_one_eq_mod,
      ih (Nat.mod_lt _ (Nat.two_pow_pos bits)), wordOf]
    cases hSlot : slot pos with
    | none => simp [hSlot]
    | some number =>
      have hNumber := hIndexes.lt pos hPos number hSlot
      obtain ⟨id, hId, hItem⟩ := (mem_order hCount hOrder).mp (getElem_mem hNumber)
      obtain ⟨offset, hEntry⟩ := h.entryAt id hId
      have hGet : order[number]? = some (keys[id], (id : Int)) := by rw [getElem?_eq_getElem hNumber, hItem]
      have hOffset : offsetOf bits order number = entryOffset bits + id * 16 := by
        rw [offsetOf, hGet, Option.elim_some, Int.toNat_natCast]
      simp only [Option.elim_some, Option.bind_eq_bind, Option.bind_some, hOffset,
        if_neg (hOffset ▸ offsetOf_ne_zero hNumber : entryOffset bits + id * 16 ≠ 0), hEntry.strOffset, hEntry.strLen,
        hEntry.str, hEntry.value, Option.all_some, isKey, hGet, Option.any_some, decide_eq_true_eq]
      by_cases hKey : keys[id] = value
      · simp [hKey, hSlot, hGet, int32_eq (by omega : -(2 ^ 31) ≤ (id : Int)) (by omega)]
      · simp [hKey]

/-- The lookup ends at the item of the key, or finds that there is none. -/
theorem getValue_cases (hCount : keys.length ≤ 2 ^ 31) (hOrder : order.Perm (numbered keys))
    (hRoom : order.length < 2 ^ bits) (h : Serialized hash keys order bits file) (value : List Byte) :
    getValue hash file value = some (-1) ∧ value ∉ keys ∨
      ∃ (id : Nat) (hId : id < keys.length), keys[id] = value ∧ getValue hash file value = some (id : Int) := by
  obtain ⟨slot, hIndexes, hWords⟩ := h.table
  have hPos : 0 < 2 ^ bits := Nat.two_pow_pos bits
  have hFirst : (hash value).toNat % 2 ^ bits < 2 ^ bits := Nat.mod_lt _ hPos
  have hSame : ∀ number < order.length, isKey order value number = true →
      startOf hash bits order number = (hash value).toNat % 2 ^ bits := by
    intro number hNumber hKey
    rw [isKey, getElem?_eq_getElem hNumber, Option.any_some, decide_eq_true_eq] at hKey
    rw [startOf, getElem?_eq_getElem hNumber, Option.elim_some, hKey]
  have hStop : ∀ pos < 2 ^ bits, (slot pos).all (isKey order value) = true ↔
      slot pos = none ∨ ∃ number, slot pos = some number ∧ isKey order value number = true := by
    intro pos _
    cases slot pos <;> simp
  obtain ⟨distance, hSearch, _, hEnd⟩ := hIndexes.search hRoom hFirst hSame hStop
  have hFound : getValue hash file value = some ((slot (place (2 ^ bits) ((hash value).toNat % 2 ^ bits) distance)).elim
      (-1) fun number => order[number]?.elim 0 Prod.snd) := by
    rw [getValue, h.mask]
    simp only [Option.bind_eq_bind, Option.bind_some]
    rw [Nat.sub_add_cancel hPos, Nat.and_two_pow_sub_one_eq_mod,
      findValue_eq hCount hOrder h hIndexes hWords value _ hFirst, hSearch, Option.map_some]
  rw [hFound]
  rcases hEnd with ⟨hFree, hNone⟩ | ⟨number, hNumber, hSlot, hKey⟩
  · refine Or.inl ⟨by rw [hFree, Option.elim_none], fun hMem => ?_⟩
    obtain ⟨id, hId, rfl⟩ := getElem_of_mem hMem
    obtain ⟨number, hNumber, hItem⟩ := getElem_of_mem ((mem_order hCount hOrder).mpr ⟨id, hId, rfl⟩)
    have hMiss := hNone number hNumber
    rw [isKey, getElem?_eq_getElem hNumber, hItem, Option.any_some, decide_eq_false_iff_not] at hMiss
    exact hMiss rfl
  · obtain ⟨id, hId, hItem⟩ := (mem_order hCount hOrder).mp (getElem_mem hNumber)
    rw [isKey, getElem?_eq_getElem hNumber, Option.any_some, decide_eq_true_eq, hItem] at hKey
    exact Or.inr ⟨id, hId, hKey, by rw [hSlot, Option.elim_some, getElem?_eq_getElem hNumber, hItem, Option.elim_some]⟩

/-! ## Round trips -/

/-- The file that is written gives back every key from its number and every number from its key, and has no number for
other strings. -/
def RoundTrips (hash : List Byte → BitVec 64) (old : Nat → Byte) (keys : List (List Byte))
    (order : List (List Byte × Int)) : Prop :=
  ∃ file, serialize hash old order = some file ∧
    (∀ (id : Nat) (h : id < keys.length),
      getKey file id = some keys[id] ∧ getValue hash file keys[id] = some (id : Int)) ∧
    ∀ value ∉ keys, getValue hash file value = some (-1)

theorem roundTrips_of_le (hash : List Byte → BitVec 64) (old : Nat → Byte) (hDistinct : keys.Nodup)
    (hKeys : ∀ key ∈ keys, key.length < 2 ^ 31) (hOrder : order.Perm (numbered keys)) (hCount : keys.length ≤ 2 ^ 31) :
    RoundTrips hash old keys order := by
  obtain ⟨file, hFile, hSerialized⟩ := serialize_spec hash old hCount hKeys hOrder
  have hCases := getValue_cases hCount hOrder (bitsOf_spec order.length).1 hSerialized
  refine ⟨file, hFile, fun id hId => ⟨getKey_eq hSerialized hId, ?_⟩, fun value hNot => ?_⟩
  · rcases hCases keys[id] with ⟨_, hNot⟩ | ⟨other, hOther, hEq, hValue⟩
    · exact absurd (getElem_mem hId) hNot
    · rw [hValue, (hDistinct.getElem_inj_iff).mp hEq]
  · rcases hCases value with ⟨hValue, _⟩ | ⟨id, hId, rfl, _⟩
    · exact hValue
    · exact absurd (getElem_mem hId) hNot

theorem not_roundTrips_of_lt (hash : List Byte → BitVec 64) (old : Nat → Byte) (hOrder : order.Perm (numbered keys))
    (hCount : 2 ^ 31 < keys.length) : ¬RoundTrips hash old keys order := by
  rintro ⟨file, hFile, _⟩
  rw [serialize, keysInOrder_eq_none hCount hOrder] at hFile
  cases hFile

end

/-- A loaded column has a dictionary that can be read back exactly when it has at most 2^31 strings. -/
theorem dictionary_roundTrips_iff (hash : List Byte → BitVec 64) (old : Nat → Byte) (nullable : Bool) (data : List (List Byte))
    (hShort : ∀ s ∈ data, s.length < 2 ^ 31) (order : List (List Byte × Int))
    (hOrder : order.Perm (EnumColumn.load nullable data).dictionary) :
    RoundTrips hash old (keys nullable data) order ↔ (keys nullable data).length ≤ 2 ^ 31 := by
  rw [dictionary_load] at hOrder
  constructor
  · intro hTrips
    by_contra hMany
    exact not_roundTrips_of_lt hash old hOrder (by omega) hTrips
  · exact roundTrips_of_le hash old (nodup_eraseDups _) (fun _ => length_of_mem_keys hShort) hOrder

/-- All strings have one hash, and the map is iterated over backwards. -/
theorem roundTrips_letters : RoundTrips (fun _ => 0) (fun _ => 0) (keys true [[65], [], [34, 66, 34], [65]])
    [([66], 1), ([65], 0)] :=
  (dictionary_roundTrips_iff (fun _ => 0) (fun _ => 0) true [[65], [], [34, 66, 34], [65]] (by decide) [([66], 1), ([65], 0)]
    (by decide)).mpr (by decide)

/-! ## Too many strings -/

/-- The 32 lowest bits of a number, as letters. -/
def letters (number : Nat) : List Byte := (List.range 32).map fun bit => if number.testBit bit then 66 else 65

theorem parseString_letters (number : Nat) : parseString (letters number) = letters number := by
  have hPlain : ∀ byte ∈ letters number, byte ≠ quotes ∧ byte ≠ backslash := by
    intro byte hByte
    obtain ⟨bit, _, rfl⟩ := mem_map.mp hByte
    split <;> decide
  have hUnquote : ∀ s : List Byte, (∀ byte ∈ s, byte ≠ quotes ∧ byte ≠ backslash) → unquote false (s ++ [quotes]) = s := by
    intro s
    induction s with
    | nil => exact fun _ => by decide
    | cons byte rest ih =>
      intro h
      rw [forall_mem_cons] at h
      rw [cons_append, unquote, if_neg h.1.2, if_neg h.1.1, ih h.2]
  have hHead : ¬(2 ≤ (letters number).length ∧ (letters number).head? = some quotes ∧
      (letters number).getLast? = some quotes) := fun h => (hPlain quotes (mem_of_head? h.2.1)).1 rfl
  rw [parseString, if_neg hHead, hUnquote _ hPlain, ite_self]

theorem letters_injective {left right : Nat} (hLeft : left < 2 ^ 32) (hRight : right < 2 ^ 32)
    (h : letters left = letters right) : left = right := by
  refine Nat.eq_of_testBit_eq fun bit => ?_
  by_cases hBit : bit < 32
  · have hByte := map_inj_left.mp h bit (mem_range.mpr hBit)
    cases hLeftBit : left.testBit bit <;> cases hRightBit : right.testBit bit <;> simp [hLeftBit, hRightBit] at hByte ⊢
  · have hHigh : 2 ^ 32 ≤ 2 ^ bit := Nat.pow_le_pow_right (by decide) (by omega)
    rw [Nat.testBit_lt_two_pow (by omega), Nat.testBit_lt_two_pow (by omega)]

theorem keys_letters (hCount : count ≤ 2 ^ 32) :
    keys false ((List.range count).map letters) = (List.range count).map letters := by
  have hParse : ((List.range count).map letters).map parseString = (List.range count).map letters := by
    rw [map_map]
    exact map_congr_left fun number _ => parseString_letters number
  have hNodup : ((List.range count).map letters).Nodup := by
    refine List.Nodup.map_on (fun left hLeft right hRight h => ?_) nodup_range
    rw [mem_range] at hLeft hRight
    exact letters_injective (by omega) (by omega) h
  have hFilter : strings false ((List.range count).map letters) = (List.range count).map letters := by
    rw [strings, hParse]
    exact filter_eq_self.mpr fun _ _ => rfl
  rw [keys, hFilter, eraseDups_of_nodup hNodup]

/-- The string of the number 2^31 cannot be written. -/
theorem not_roundTrips_letters :
    (∀ s ∈ (List.range 2147483649).map letters, s.length < 2 ^ 31) ∧
    ¬RoundTrips (fun _ => 0) (fun _ => 0) (keys false ((List.range 2147483649).map letters))
      (EnumColumn.load false ((List.range 2147483649).map letters)).dictionary := by
  refine ⟨fun s hs => ?_, not_roundTrips_of_lt _ _ (List.Perm.of_eq (dictionary_load _ _)) ?_⟩
  · obtain ⟨number, _, rfl⟩ := mem_map.mp hs
    rw [letters, length_map, length_range]
    decide
  · rw [keys_letters (by decide), length_map, length_range]
    decide

end KushDB.Enum
