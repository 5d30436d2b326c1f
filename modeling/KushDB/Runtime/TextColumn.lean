import KushDB.Enum.Entries

/-! # Text columns

A file holds the number of strings, then a slot of 16 bytes for each string with its length and its offset, then the
strings, each with a zero byte behind it. The strings are written one by one behind the ones before. The file may have
held other bytes before.
-/

namespace KushDB.TextColumn

open KushDB.Bytes KushDB.Execution List
open KushDB.Enum (stringsLength stringsLength_append stringsLength_singleton stringsLength_take)

/-- The slots come behind the cardinality, at a multiple of their alignment. -/
def slotAddress (slot : Nat) : Nat := 8 + 16 * slot

def fileLength (contents : List (List Byte)) : Nat :=
  contents.foldl (fun length s => (length + (s.length + 1)) % 2 ^ 64) (slotAddress contents.length % 2 ^ 64)

structure Cursor where
  file : File
  slot : Nat
  offset : Nat

/-- The length is kept in 32 bits, and so is the number of bytes to copy. -/
def writeString (cursor : Cursor) (s : List Byte) : Option Cursor := do
  let file ← cursor.file.writeNat (slotAddress cursor.slot) 4 s.length
  let file ← file.writeNat (slotAddress cursor.slot + 8) 8 cursor.offset
  let count := int32 (int32 s.length + 1)
  if count < 0 then none else
    let file ← file.write cursor.offset ((s ++ [0]).take count.toNat)
    some ⟨file, cursor.slot + 1, (cursor.offset + count.toNat) % 2 ^ 64⟩

def serialize (old : Nat → Byte) (contents : List (List Byte)) : Option File := do
  let file : File := ⟨fileLength contents, old⟩
  let file ← file.writeNat 0 4 contents.length
  let cursor ← contents.foldlM writeString ⟨file, 0, slotAddress contents.length % 2 ^ 64⟩
  some cursor.file

def sizeText (file : File) : Option Int := (file.readNat 0 4).map fun (cardinality : Nat) => int32 cardinality

def slotOffset (file : File) (slot : Nat) : Option Nat := file.readNat (slotAddress slot + 8) 8

def getText (file : File) (slot : Nat) : Option (List Byte) := do
  let length ← file.readNat (slotAddress slot) 4
  let offset ← slotOffset file slot
  if int32 length < 0 then none else file.read offset (int32 length).toNat

/-! ## One string -/

structure TextAt (file : File) (slot offset : Nat) (s : List Byte) : Prop where
  strLen : file.readNat (slotAddress slot) 4 = some s.length
  strOffset : slotOffset file slot = some offset
  str : file.read offset s.length = some s

variable {file : File} {first : Nat}

theorem TextAt.changes {next : File} {slot offset last : Nat} {s : List Byte} (h : TextAt file slot offset s)
    (hChanges : file.Changes next first last) (hSlot : slotAddress (slot + 1) ≤ first ∨ last ≤ slotAddress slot)
    (hString : offset + s.length ≤ first ∨ last ≤ offset) : TextAt next slot offset s where
  strLen := by
    unfold slotAddress at hSlot
    rw [hChanges.readNat (by unfold slotAddress; omega), h.strLen]
  strOffset := by
    unfold slotAddress at hSlot
    rw [slotOffset, hChanges.readNat (by unfold slotAddress; omega)]
    exact h.strOffset
  str := by rw [hChanges.read _ _ hString, h.str]

theorem TextAt.getText {file : File} {slot offset : Nat} {s : List Byte} (h : TextAt file slot offset s)
    (hLength : s.length < 2 ^ 31) : getText file slot = some s := by
  have hInt : int32 s.length = s.length := int32_eq (by omega) (by omega)
  refine Option.bind_eq_some_iff.mpr ⟨_, h.strLen, Option.bind_eq_some_iff.mpr ⟨_, h.strOffset, ?_⟩⟩
  rw [hInt, if_neg (by omega), Int.toNat_natCast]
  exact h.str

theorem writeString_spec {cursor : Cursor} {s : List Byte} (hBefore : slotAddress (cursor.slot + 1) ≤ cursor.offset)
    (hFits : cursor.offset + s.length + 1 ≤ cursor.file.length) (hFile : cursor.file.length < 2 ^ 64)
    (hLength : s.length < 2 ^ 31 - 1) :
    ∃ middle next, writeString cursor s = some ⟨next, cursor.slot + 1, cursor.offset + s.length + 1⟩ ∧
      cursor.file.Changes middle (slotAddress cursor.slot) (slotAddress (cursor.slot + 1)) ∧
      middle.Changes next cursor.offset (cursor.offset + s.length + 1) ∧
      TextAt next cursor.slot cursor.offset s := by
  obtain ⟨file, slot, offset⟩ := cursor
  dsimp only at *
  have hNext : slotAddress (slot + 1) = slotAddress slot + 16 := by
    unfold slotAddress
    omega
  have hCount : int32 (int32 s.length + 1) = (s.length + 1 : Nat) := by
    have hInner : int32 s.length = s.length := int32_eq (by omega) (by omega)
    rw [hInner, int32_eq (by omega) (by omega), Int.natCast_add, Int.natCast_one]
  have hBytes : (s ++ [0]).length = s.length + 1 := by rw [length_append, length_singleton]
  obtain ⟨first, hFirst, hFirstChanges, hReadLength⟩ :=
    File.writeNat_spec (by omega : slotAddress slot + 4 ≤ file.length) (by omega : s.length < 256 ^ 4)
  have hFirstLength := hFirstChanges.length
  obtain ⟨middle, hMiddle, hMiddleChanges, hReadOffset⟩ :=
    File.writeNat_spec (by omega : slotAddress slot + 8 + 8 ≤ first.length) (by omega : offset < 256 ^ 8)
  have hMiddleLength := hMiddleChanges.length
  obtain ⟨next, hWrite, hNextChanges, hString⟩ :=
    File.write_spec (by omega : offset + (s ++ [0]).length ≤ middle.length)
  rw [hBytes, ← Nat.add_assoc] at hNextChanges
  have hRead := File.read_part hString (by omega : 0 + s.length ≤ (s ++ [0]).length)
  rw [Nat.add_zero, drop_zero, take_left' rfl] at hRead
  refine ⟨middle, next, ?_, ?_, hNextChanges, ?_, ?_, hRead⟩
  · refine Option.bind_eq_some_iff.mpr ⟨_, hFirst, Option.bind_eq_some_iff.mpr ⟨_, hMiddle, ?_⟩⟩
    dsimp only
    rw [hCount, if_neg (by omega), Int.toNat_natCast, ← hBytes, take_length]
    refine Option.bind_eq_some_iff.mpr ⟨_, hWrite, ?_⟩
    rw [hBytes, Nat.mod_eq_of_lt (by omega), Nat.add_assoc]
  · exact (hFirstChanges.mono (Nat.le_refl _) (by omega)).trans (hMiddleChanges.mono (by omega) (by omega))
  · rw [hNextChanges.readNat (by omega), hMiddleChanges.readNat (by omega), hReadLength]
  · rw [slotOffset, hNextChanges.readNat (by omega), hReadOffset]

/-! ## All strings -/

variable {contents : List (List Byte)}

theorem fileLength_eq (h : slotAddress contents.length + stringsLength contents < 2 ^ 64) :
    fileLength contents = slotAddress contents.length + stringsLength contents := by
  have hFold : ∀ (rest : List (List Byte)) (length : Nat), length + stringsLength rest < 2 ^ 64 →
      rest.foldl (fun length s => (length + (s.length + 1)) % 2 ^ 64) length = length + stringsLength rest := by
    intro rest
    induction rest with
    | nil => exact fun _ _ => rfl
    | cons s rest ih =>
      intro length hLess
      have hCons : stringsLength (s :: rest) = s.length + 1 + stringsLength rest := rfl
      rw [hCons] at hLess ⊢
      rw [foldl_cons, Nat.mod_eq_of_lt (by omega), ih _ (by omega)]
      omega
  rw [fileLength, Nat.mod_eq_of_lt (by omega)]
  exact hFold contents _ h

/-- After some strings: the cursor is behind them, and each can be read where it was written. -/
theorem writeStrings_spec {start : Nat} (hSlots : slotAddress contents.length ≤ start)
    (hFits : start + stringsLength contents ≤ file.length) (hFile : file.length < 2 ^ 64)
    (hLengths : ∀ s ∈ contents, s.length < 2 ^ 31 - 1) :
    ∃ next, contents.foldlM writeString ⟨file, 0, start⟩ =
        some ⟨next, contents.length, start + stringsLength contents⟩ ∧
      file.Changes next 8 (start + stringsLength contents) ∧
      ∀ slot (h : slot < contents.length),
        TextAt next slot (start + stringsLength (contents.take slot)) contents[slot] := by
  induction contents using List.reverseRecOn with
  | nil => exact ⟨file, rfl, File.Changes.refl _ _ _, fun slot h => absurd h (Nat.not_lt_zero _)⟩
  | append_singleton contents s ih =>
    rw [length_append, length_singleton] at hSlots
    rw [stringsLength_append, stringsLength_singleton] at hFits
    have hSlot : slotAddress (contents.length + 1) = slotAddress contents.length + 16 := by
      unfold slotAddress
      omega
    have hFirst : 8 ≤ slotAddress contents.length := Nat.le_add_right _ _
    obtain ⟨before, hBefore, hChanges, hRead⟩ := ih (by omega) (by omega)
      (fun other hOther => hLengths other (mem_append_left _ hOther))
    have hSame := hChanges.length
    obtain ⟨middle, next, hNext, hMiddle, hString, hText⟩ :=
      @writeString_spec ⟨before, contents.length, start + stringsLength contents⟩ s (by dsimp only; omega)
        (by dsimp only; omega) (by dsimp only; omega) (hLengths s (mem_append_right _ (mem_singleton_self s)))
    dsimp only at hNext hMiddle hString hText
    refine ⟨next, ?_, ?_, ?_⟩
    · rw [foldlM_append, hBefore]
      simp only [Option.bind_eq_bind, Option.bind_some, foldlM_cons, foldlM_nil, bind_pure, hNext]
      rw [stringsLength_append, stringsLength_singleton, length_append, length_singleton, Nat.add_assoc,
        Nat.add_assoc]
    · rw [stringsLength_append, stringsLength_singleton]
      exact ((hChanges.mono (Nat.le_refl _) (by omega)).trans (hMiddle.mono hFirst (by omega))).trans
        (hString.mono (by omega) (by omega))
    · intro slot hLess
      rw [length_append, length_singleton] at hLess
      by_cases hLast : slot = contents.length
      · subst hLast
        rw [take_left' rfl, getElem_append_right (Nat.le_refl _)]
        simpa using hText
      · have hOld : slot < contents.length := by omega
        have hTake := stringsLength_take hOld
        have hAddress : slotAddress (slot + 1) ≤ slotAddress contents.length := by
          unfold slotAddress
          omega
        rw [take_append_of_le_length hOld.le, getElem_append_left hOld]
        exact ((hRead slot hOld).changes hMiddle (.inl hAddress) (by omega)).changes hString (by omega) (by omega)

/-! ## The whole file -/

/-- Where each string is, and that the areas of the strings and the slots do not overlap. -/
structure Holds (file : File) (contents : List (List Byte)) (offset : Nat → Nat) : Prop where
  strOffset : ∀ slot < contents.length, slotOffset file slot = some (offset slot)
  afterSlots : ∀ slot < contents.length, slotAddress contents.length ≤ offset slot
  within : ∀ slot (h : slot < contents.length), offset slot + contents[slot].length + 1 ≤ file.length
  disjoint : ∀ first second (hFirst : first < contents.length), first < second → second < contents.length →
    offset first + contents[first].length + 1 ≤ offset second

theorem stringsLength_eq (contents : List (List Byte)) :
    stringsLength contents = (contents.map List.length).sum + contents.length := by
  rw [stringsLength, sum_map_add, map_const', sum_replicate_nat, Nat.mul_one]

/-- The end of a string is not behind the start of a later one. -/
theorem stringsLength_take_le {second : Nat} (hFirst : first < contents.length) (hLess : first < second) :
    stringsLength (contents.take first) + (contents[first].length + 1) ≤ stringsLength (contents.take second) := by
  have hPart : first < (contents.take second).length := by
    rw [length_take]
    omega
  have hTake := stringsLength_take hPart
  rwa [take_take, Nat.min_eq_left hLess.le, getElem_take] at hTake

theorem serialize_spec (old : Nat → Byte) (hCount : contents.length < 2 ^ 31)
    (hLengths : ∀ s ∈ contents, s.length < 2 ^ 31 - 1)
    (hTotal : slotAddress contents.length + stringsLength contents < 2 ^ 64) :
    ∃ file, serialize old contents = some file ∧ file.length = fileLength contents ∧
      file.readNat 0 4 = some contents.length ∧
      ∀ slot (h : slot < contents.length),
        TextAt file slot (slotAddress contents.length + stringsLength (contents.take slot)) contents[slot] := by
  have hLength := fileLength_eq hTotal
  have hStart : 8 ≤ slotAddress contents.length := Nat.le_add_right _ _
  obtain ⟨first, hFirst, hFirstChanges, hRead⟩ := File.writeNat_spec
    (by dsimp only; omega : 0 + 4 ≤ (⟨fileLength contents, old⟩ : File).length) (by omega : contents.length < 256 ^ 4)
  have hSame : first.length = fileLength contents := hFirstChanges.length
  obtain ⟨next, hNext, hChanges, hTexts⟩ := writeStrings_spec (Nat.le_refl _)
    (by omega : slotAddress contents.length + stringsLength contents ≤ first.length) (by omega) hLengths
  refine ⟨next, ?_, hChanges.length.trans hSame, ?_, hTexts⟩
  · rw [serialize, hFirst, Nat.mod_eq_of_lt (by omega)]
    refine Option.bind_eq_some_iff.mpr ⟨_, rfl, Option.bind_eq_some_iff.mpr ⟨_, hNext, rfl⟩⟩
  · rw [hChanges.readNat (by omega), hRead]

theorem text_roundTrip (old : Nat → Byte) (hCount : contents.length < 2 ^ 31)
    (hLengths : ∀ s ∈ contents, s.length < 2 ^ 31 - 1) (hTotal : (contents.map List.length).sum < 2 ^ 63) :
    ∃ file offset, serialize old contents = some file ∧ file.length = fileLength contents ∧
      Holds file contents offset ∧ sizeText file = some (contents.length : Int) ∧
      ∀ slot (h : slot < contents.length), getText file slot = some contents[slot] := by
  have hStrings := stringsLength_eq contents
  have hFits : slotAddress contents.length + stringsLength contents < 2 ^ 64 := by
    unfold slotAddress
    omega
  obtain ⟨file, hFile, hLength, hSize, hTexts⟩ := serialize_spec old hCount hLengths hFits
  refine ⟨file, fun slot => slotAddress contents.length + stringsLength (contents.take slot), hFile, hLength, ?_, ?_, ?_⟩
  · constructor
    · intro slot hSlot
      exact (hTexts slot hSlot).strOffset
    · intro slot hSlot
      exact Nat.le_add_right _ _
    · intro slot hSlot
      have hTake := stringsLength_take hSlot
      rw [hLength, fileLength_eq hFits]
      omega
    · intro first second hFirst hLess hSecond
      have hTake := stringsLength_take_le hFirst hLess
      omega
  · rw [sizeText, hSize, Option.map_some, int32_eq (by omega) (by omega)]
  · intro slot hSlot
    have hShort := hLengths _ (getElem_mem hSlot)
    exact (hTexts slot hSlot).getText (by omega)

theorem text_roundTrip_two :
    ∃ file offset, serialize (fun _ => 7) [[0, 1], []] = some file ∧ file.length = fileLength [[0, 1], []] ∧
      Holds file [[0, 1], []] offset ∧ sizeText file = some (2 : Int) ∧
      ∀ slot (h : slot < 2), getText file slot = some ([[0, 1], []][slot] : List Byte) :=
  text_roundTrip (fun _ => 7) (by decide) (by decide) (by decide)

end KushDB.TextColumn
