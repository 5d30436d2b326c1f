import KushDB.Library.Bytes

/-! # Entries of a column index in a file

An entry has its key, the number of its values, the offset of the next entry and the values. The key is a number of at
most 64 bits, or the offset and length of a string behind the values.
-/

namespace KushDB.ColumnIndex

open KushDB.Bytes List

/-! ## Values -/

def encodeValues (values : List (BitVec 32)) : List Byte := values.flatMap fun value => encode 4 value.toNat

def readValues (file : File) : Nat → Nat → Option (List (BitVec 32))
  | _, 0 => some []
  | offset, count + 1 => do
    let value ← file.readNat offset 4
    let rest ← readValues file (offset + 4) count
    some (BitVec.ofNat 32 value :: rest)

theorem length_encodeValues (values : List (BitVec 32)) : (encodeValues values).length = values.length * 4 := by
  induction values with
  | nil => rfl
  | cons value values ih =>
    rw [encodeValues, flatMap_cons, length_append, length_encode, ← encodeValues, ih, length_cons]
    omega

variable {file next : File} {offset width : Nat}
variable {count : Nat} {entry : List Byte × List (BitVec 32)}

theorem readValues_congr (h : ∀ other length, offset ≤ other → other + length ≤ offset + count * 4 →
      next.read other length = file.read other length) :
    readValues next offset count = readValues file offset count := by
  induction count generalizing offset with
  | zero => rfl
  | succ count ih =>
    rw [readValues, readValues, File.readNat, File.readNat, h offset 4 (by omega) (by omega),
      ih fun other length hFirst hLast => h other length (by omega) (by omega)]

theorem readValues_changes {first last : Nat} (h : file.Changes next first last)
    (hOut : offset + count * 4 ≤ first ∨ last ≤ offset) : readValues next offset count = readValues file offset count :=
  readValues_congr fun other length _ _ => h.read other length (by omega)

theorem readValues_of_read {values : List (BitVec 32)}
    (h : file.read offset (values.length * 4) = some (encodeValues values)) :
    readValues file offset values.length = some values := by
  induction values generalizing offset with
  | nil => rfl
  | cons value values ih =>
    have hLength := length_encodeValues (value :: values)
    have hFirst := File.read_part h (by rw [hLength, length_cons]; omega : 0 + 4 ≤ _)
    have hRest := File.read_part h (by rw [hLength, length_cons]; omega : 4 + values.length * 4 ≤ _)
    rw [encodeValues, flatMap_cons, drop_zero, take_left' (length_encode _ _), Nat.add_zero] at hFirst
    rw [encodeValues, flatMap_cons, drop_left' (length_encode _ _), ← encodeValues,
      take_of_length_le (Nat.le_of_eq (length_encodeValues values))] at hRest
    rw [length_cons, readValues, File.readNat, hFirst, ih hRest, Option.map_some, decode_encode value.isLt]
    simp

/-! ## Formats -/

structure EntryFormat (K : Type) where
  /-- The length of what comes before the number of values. -/
  keySize : Nat
  /-- The length of what comes behind the values. -/
  tailLength : K → Nat
  writeEntry : File → Nat → K × List (BitVec 32) → Option File
  readKey : File → Nat → Option K
  /-- The key of the entry can be read. -/
  KeyAt : File → Nat → K × List (BitVec 32) → Prop
  keySize_pos : 0 < keySize
  readKey_eq : ∀ {file offset entry}, KeyAt file offset entry → readKey file offset = some entry.1
  /-- It is read from what comes before the number of values and behind the values. -/
  keyAt_congr : ∀ {file next : File} {offset : Nat} {entry : K × List (BitVec 32)}, KeyAt file offset entry →
    (∀ other length, offset ≤ other → other + length ≤ offset + keySize → next.read other length = file.read other length) →
    (∀ other length, offset + keySize + 16 + entry.2.length * 4 ≤ other →
      other + length ≤ offset + keySize + 16 + entry.2.length * 4 + tailLength entry.1 →
      next.read other length = file.read other length) → KeyAt next offset entry
  writeEntry_spec : ∀ {file offset entry},
    offset + keySize + 16 + entry.2.length * 4 + tailLength entry.1 ≤ file.length → file.length < 2 ^ 63 →
    ∃ next, writeEntry file offset entry = some next ∧
      File.Changes file next offset (offset + keySize + 16 + entry.2.length * 4 + tailLength entry.1) ∧
      KeyAt next offset entry ∧ next.readNat (offset + keySize) 8 = some entry.2.length ∧
      readValues next (offset + keySize + 16) entry.2.length = some entry.2
  writeEntry_length : ∀ {file next offset entry}, writeEntry file offset entry = some next →
    next.length = file.length ∧ offset + keySize + 16 + entry.2.length * 4 + tailLength entry.1 ≤ file.length

/-! ## Numbers -/

def writeIntEntry {width : Nat} (file : File) (offset : Nat) (entry : BitVec (8 * width) × List (BitVec 32)) :
    Option File := do
  let file ← file.writeNat offset width entry.1.toNat
  let file ← file.writeNat (offset + 8) 8 entry.2.length
  file.write (offset + 24) (encodeValues entry.2)

theorem toNat_lt_pow (key : BitVec (8 * width)) : key.toNat < 256 ^ width := by
  have hLess := key.isLt
  rwa [Nat.pow_mul] at hLess

theorem writeIntEntry_spec (hWidth : width ≤ 8) {entry : BitVec (8 * width) × List (BitVec 32)}
    (hLength : offset + 24 + entry.2.length * 4 ≤ file.length) (hFile : file.length < 2 ^ 63) :
    ∃ next, writeIntEntry file offset entry = some next ∧
      file.Changes next offset (offset + 24 + entry.2.length * 4) ∧
      next.readNat offset width = some entry.1.toNat ∧ next.readNat (offset + 8) 8 = some entry.2.length ∧
      readValues next (offset + 24) entry.2.length = some entry.2 := by
  obtain ⟨first, hFirst, hFirstChanges, hKey⟩ :=
    File.writeNat_spec (by omega : offset + width ≤ file.length) (toNat_lt_pow entry.1)
  have hFirstLength := hFirstChanges.length
  obtain ⟨second, hSecond, hSecondChanges, hSize⟩ :=
    File.writeNat_spec (by omega : offset + 8 + 8 ≤ first.length) (by omega : entry.2.length < 256 ^ 8)
  have hSecondLength := hSecondChanges.length
  have hValuesLength := length_encodeValues entry.2
  obtain ⟨third, hThird, hThirdChanges, hValues⟩ :=
    File.write_spec (by omega : offset + 24 + (encodeValues entry.2).length ≤ second.length)
  rw [hValuesLength] at hThirdChanges hValues
  refine ⟨third, ?_, ?_, ?_, ?_, readValues_of_read hValues⟩
  · simp only [writeIntEntry, hFirst, hSecond, hThird, Option.bind_eq_bind, Option.bind_some]
  · exact ((hFirstChanges.mono (by omega) (by omega)).trans (hSecondChanges.mono (by omega) (by omega))).trans
      (hThirdChanges.mono (by omega) (by omega))
  · rw [hThirdChanges.readNat (by omega), hSecondChanges.readNat (by omega), hKey]
  · rw [hThirdChanges.readNat (by omega), hSize]

theorem writeIntEntry_length {entry : BitVec (8 * width) × List (BitVec 32)}
    (h : writeIntEntry file offset entry = some next) :
    next.length = file.length ∧ offset + 24 + entry.2.length * 4 ≤ file.length := by
  simp only [writeIntEntry, Option.bind_eq_bind, Option.bind_eq_some_iff] at h
  obtain ⟨first, hFirst, second, hSecond, hThird⟩ := h
  have hFirstLength := File.writeNat_eq_some hFirst
  have hSecondLength := File.writeNat_eq_some hSecond
  have hThirdLength := File.write_eq_some hThird
  rw [length_encodeValues] at hThirdLength
  omega

def intFormat (width : Nat) (hWidth : width ≤ 8) : EntryFormat (BitVec (8 * width)) where
  keySize := 8
  tailLength _ := 0
  writeEntry := writeIntEntry
  readKey file offset := (file.readNat offset width).map (BitVec.ofNat (8 * width))
  KeyAt file offset entry := file.readNat offset width = some entry.1.toNat
  keySize_pos := by decide
  readKey_eq h := by rw [h, Option.map_some, BitVec.ofNat_toNat, BitVec.setWidth_eq]
  keyAt_congr {_ _ offset _} h hHead _ := by
    rw [File.readNat, hHead offset width (Nat.le_refl _) (Nat.add_le_add_left hWidth offset)]
    exact h
  writeEntry_spec hLength hFile := writeIntEntry_spec hWidth hLength hFile
  writeEntry_length := writeIntEntry_length

/-! ## Strings -/

def writeStringEntry (file : File) (offset : Nat) (entry : List Byte × List (BitVec 32)) : Option File := do
  let file ← file.writeNat (offset + 8) 8 entry.1.length
  let file ← file.writeNat (offset + 16) 8 entry.2.length
  let file ← file.write (offset + 32) (encodeValues entry.2)
  let strOffset := offset + 32 + entry.2.length * 4
  let file ← file.writeNat offset 8 strOffset
  file.write strOffset (entry.1 ++ [0])

def readString (file : File) (offset : Nat) : Option (List Byte) := do
  let strOffset ← file.readNat offset 8
  let strLen ← file.readNat (offset + 8) 8
  file.read strOffset strLen

structure StringAt (file : File) (offset : Nat) (entry : List Byte × List (BitVec 32)) : Prop where
  strOffset : file.readNat offset 8 = some (offset + 32 + entry.2.length * 4)
  strLen : file.readNat (offset + 8) 8 = some entry.1.length
  str : file.read (offset + 32 + entry.2.length * 4) entry.1.length = some entry.1

theorem writeStringEntry_spec (hLength : offset + 32 + entry.2.length * 4 + (entry.1.length + 1) ≤ file.length)
    (hFile : file.length < 2 ^ 63) :
    ∃ next, writeStringEntry file offset entry = some next ∧
      file.Changes next offset (offset + 32 + entry.2.length * 4 + (entry.1.length + 1)) ∧
      StringAt next offset entry ∧ next.readNat (offset + 16) 8 = some entry.2.length ∧
      readValues next (offset + 32) entry.2.length = some entry.2 := by
  obtain ⟨first, hFirst, hFirstChanges, hStrLen⟩ :=
    File.writeNat_spec (by omega : offset + 8 + 8 ≤ file.length) (by omega : entry.1.length < 256 ^ 8)
  have hFirstLength := hFirstChanges.length
  obtain ⟨second, hSecond, hSecondChanges, hSize⟩ :=
    File.writeNat_spec (by omega : offset + 16 + 8 ≤ first.length) (by omega : entry.2.length < 256 ^ 8)
  have hSecondLength := hSecondChanges.length
  have hValuesLength := length_encodeValues entry.2
  obtain ⟨third, hThird, hThirdChanges, hValues⟩ :=
    File.write_spec (by omega : offset + 32 + (encodeValues entry.2).length ≤ second.length)
  rw [hValuesLength] at hThirdChanges hValues
  have hThirdLength := hThirdChanges.length
  obtain ⟨fourth, hFourth, hFourthChanges, hStrOffset⟩ := File.writeNat_spec (by omega : offset + 8 ≤ third.length)
    (by omega : offset + 32 + entry.2.length * 4 < 256 ^ 8)
  have hFourthLength := hFourthChanges.length
  have hBytes : (entry.1 ++ [0]).length = entry.1.length + 1 := by rw [length_append, length_singleton]
  obtain ⟨fifth, hFifth, hFifthChanges, hString⟩ := File.write_spec
    (by omega : offset + 32 + entry.2.length * 4 + (entry.1 ++ [0]).length ≤ fourth.length)
  rw [hBytes] at hFifthChanges
  have hKey := File.read_part hString (by omega : 0 + entry.1.length ≤ (entry.1 ++ [0]).length)
  rw [Nat.add_zero, drop_zero, take_left' rfl] at hKey
  refine ⟨fifth, ?_, ?_, ⟨?_, ?_, hKey⟩, ?_, ?_⟩
  · simp only [writeStringEntry, hFirst, hSecond, hThird, hFourth, hFifth, Option.bind_eq_bind, Option.bind_some]
  · exact ((((hFirstChanges.mono (by omega) (by omega)).trans (hSecondChanges.mono (by omega) (by omega))).trans
      (hThirdChanges.mono (by omega) (by omega))).trans (hFourthChanges.mono (by omega) (by omega))).trans
      (hFifthChanges.mono (by omega) (by omega))
  · rw [hFifthChanges.readNat (by omega), hStrOffset]
  · rw [hFifthChanges.readNat (by omega), hFourthChanges.readNat (by omega), hThirdChanges.readNat (by omega),
      hSecondChanges.readNat (by omega), hStrLen]
  · rw [hFifthChanges.readNat (by omega), hFourthChanges.readNat (by omega), hThirdChanges.readNat (by omega), hSize]
  · rw [readValues_changes hFifthChanges (by omega), readValues_changes hFourthChanges (by omega),
      readValues_of_read hValues]

theorem writeStringEntry_length (h : writeStringEntry file offset entry = some next) :
    next.length = file.length ∧ offset + 32 + entry.2.length * 4 + (entry.1.length + 1) ≤ file.length := by
  simp only [writeStringEntry, Option.bind_eq_bind, Option.bind_eq_some_iff] at h
  obtain ⟨first, hFirst, second, hSecond, third, hThird, fourth, hFourth, hFifth⟩ := h
  have hFirstLength := File.writeNat_eq_some hFirst
  have hSecondLength := File.writeNat_eq_some hSecond
  have hThirdLength := File.write_eq_some hThird
  have hFourthLength := File.writeNat_eq_some hFourth
  have hFifthLength := File.write_eq_some hFifth
  rw [length_append, length_singleton] at hFifthLength
  omega

def stringFormat : EntryFormat (List Byte) where
  keySize := 16
  tailLength key := key.length + 1
  writeEntry := writeStringEntry
  readKey := readString
  KeyAt := StringAt
  keySize_pos := by decide
  readKey_eq h := by simp only [readString, h.strOffset, h.strLen, h.str, Option.bind_eq_bind, Option.bind_some]
  keyAt_congr {_ _ offset _} h hHead hTail := by
    refine ⟨?_, ?_, ?_⟩
    · rw [File.readNat, hHead offset 8 (by omega) (by omega)]
      exact h.strOffset
    · rw [File.readNat, hHead (offset + 8) 8 (by omega) (by omega)]
      exact h.strLen
    · rw [hTail _ _ (Nat.le_refl _) (Nat.add_le_add_left (Nat.le_succ _) _)]
      exact h.str
  writeEntry_spec hLength hFile := writeStringEntry_spec hLength hFile
  writeEntry_length := writeStringEntry_length

end KushDB.ColumnIndex
