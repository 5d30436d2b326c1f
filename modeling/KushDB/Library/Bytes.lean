import Mathlib.Algebra.GroupWithZero.Nat
import Mathlib.Data.List.Basic

/-! # Files as byte arrays

A mapped file has a length and a byte at every address below it. Reads and writes beyond the length fail. Numbers are
written with their lowest byte first.
-/

namespace KushDB.Bytes

open List

abbrev Byte := BitVec 8

/-! ## Numbers -/

def encode : Nat → Nat → List Byte
  | 0, _ => []
  | width + 1, value => BitVec.ofNat 8 value :: encode width (value / 256)

def decode : List Byte → Nat
  | [] => 0
  | byte :: bytes => byte.toNat + 256 * decode bytes

@[simp]
theorem length_encode (width value : Nat) : (encode width value).length = width := by
  induction width generalizing value with
  | zero => rfl
  | succ width ih => rw [encode, length_cons, ih]

theorem decode_encode {width value : Nat} (h : value < 256 ^ width) : decode (encode width value) = value := by
  induction width generalizing value with
  | zero =>
    rw [Nat.pow_zero, Nat.lt_one_iff] at h
    rw [encode, decode, h]
  | succ width ih =>
    rw [Nat.pow_succ, Nat.mul_comm] at h
    rw [encode, decode, ih (Nat.div_lt_of_lt_mul h), BitVec.toNat_ofNat]
    exact Nat.mod_add_div value 256

theorem decode_lt (bytes : List Byte) : decode bytes < 256 ^ bytes.length := by
  induction bytes with
  | nil => exact Nat.one_pos
  | cons byte bytes ih =>
    have hByte := byte.isLt
    rw [decode, length_cons, Nat.pow_succ]
    omega

/-! ## Files -/

structure File where
  length : Nat
  byte : Nat → Byte

namespace File

def read (file : File) (offset count : Nat) : Option (List Byte) :=
  if offset + count ≤ file.length then some ((List.range count).map fun i => file.byte (offset + i)) else none

def overwrite (byte : Nat → Byte) (offset : Nat) (bytes : List Byte) (address : Nat) : Byte :=
  if address < offset then byte address else (bytes[address - offset]?).getD (byte address)

def write (file : File) (offset : Nat) (bytes : List Byte) : Option File :=
  if offset + bytes.length ≤ file.length then some ⟨file.length, overwrite file.byte offset bytes⟩ else none

def readNat (file : File) (offset width : Nat) : Option Nat := (file.read offset width).map decode

def writeNat (file : File) (offset width value : Nat) : Option File := file.write offset (encode width value)

variable {file next : File} {offset value width first last : Nat} {bytes : List Byte}

theorem readNat_lt (h : file.readNat offset width = some value) : value < 256 ^ width := by
  rw [readNat, Option.map_eq_some_iff] at h
  obtain ⟨bytes, hRead, rfl⟩ := h
  rw [read] at hRead
  split at hRead
  · cases hRead
    have hLess := decode_lt ((List.range width).map fun i => file.byte (offset + i))
    rwa [length_map, length_range] at hLess
  · cases hRead

/-- Nothing but the addresses from `first` on and below `last` has changed. -/
structure Changes (file next : File) (first last : Nat) : Prop where
  length : next.length = file.length
  read : ∀ offset count, offset + count ≤ first ∨ last ≤ offset → next.read offset count = file.read offset count

theorem Changes.refl (file : File) (first last : Nat) : Changes file file first last := ⟨rfl, fun _ _ _ => rfl⟩

theorem Changes.trans {middle : File} (h : Changes file middle first last) (hNext : Changes middle next first last) :
    Changes file next first last :=
  ⟨hNext.length.trans h.length, fun offset count hOut => (hNext.read offset count hOut).trans (h.read offset count hOut)⟩

theorem Changes.mono {lower upper : Nat} (h : Changes file next first last) (hLower : lower ≤ first)
    (hUpper : last ≤ upper) : Changes file next lower upper :=
  ⟨h.length, fun offset count hOut => h.read offset count (by omega)⟩

theorem Changes.readNat (h : Changes file next first last) (hOut : offset + width ≤ first ∨ last ≤ offset) :
    next.readNat offset width = file.readNat offset width := by
  rw [File.readNat, File.readNat, h.read offset width hOut]

theorem read_part {count : Nat} (h : file.read offset count = some bytes) {length : Nat}
    (hPart : first + length ≤ bytes.length) :
    file.read (offset + first) length = some ((bytes.drop first).take length) := by
  rw [read] at h
  split at h
  · rename_i hLength
    cases h
    rw [length_map, length_range] at hPart
    rw [read, if_pos (by omega)]
    refine congrArg some (ext_getElem ?_ fun i _ _ => ?_)
    · rw [length_map, length_range, length_take, length_drop, length_map, length_range]
      omega
    · rw [getElem_map, getElem_range, getElem_take, getElem_drop, getElem_map,
        getElem_range, Nat.add_assoc]
  · cases h

theorem overwrite_outside (byte : Nat → Byte) {address : Nat} (h : address < offset ∨ offset + bytes.length ≤ address) :
    overwrite byte offset bytes address = byte address := by
  rw [overwrite]
  split
  · rfl
  · rw [getElem?_eq_none (by omega), Option.getD_none]

theorem overwrite_inside (byte : Nat → Byte) (offset : Nat) {i : Nat} (h : i < bytes.length) :
    overwrite byte offset bytes (offset + i) = bytes[i] := by
  rw [overwrite, if_neg (by omega), Nat.add_sub_cancel_left, getElem?_eq_getElem h, Option.getD_some]

/-- A write within the file changes what it says. -/
theorem write_spec (h : offset + bytes.length ≤ file.length) :
    ∃ next, file.write offset bytes = some next ∧ Changes file next offset (offset + bytes.length) ∧
      next.read offset bytes.length = some bytes := by
  refine ⟨_, if_pos h, ⟨rfl, ?_⟩, ?_⟩
  · intro other count hOut
    rw [read, read]
    refine congrArg (fun read => if other + count ≤ file.length then some read else none)
      (map_congr_left fun i hi => ?_)
    rw [mem_range] at hi
    exact overwrite_outside file.byte (by omega)
  · rw [read, if_pos h]
    refine congrArg some (ext_getElem (by rw [length_map, length_range]) fun i _ hi => ?_)
    rw [getElem_map, getElem_range]
    exact overwrite_inside file.byte offset hi

theorem write_eq_some (h : file.write offset bytes = some next) :
    next.length = file.length ∧ offset + bytes.length ≤ file.length := by
  rw [write] at h
  split at h
  · rename_i hLength
    cases h
    exact ⟨rfl, hLength⟩
  · cases h

theorem writeNat_eq_some (h : file.writeNat offset width value = some next) :
    next.length = file.length ∧ offset + width ≤ file.length := by
  have hWrite := write_eq_some h
  rwa [length_encode] at hWrite

theorem writeNat_spec (hLength : offset + width ≤ file.length) (hValue : value < 256 ^ width) :
    ∃ next, file.writeNat offset width value = some next ∧ Changes file next offset (offset + width) ∧
      next.readNat offset width = some value := by
  have hBytes : offset + (encode width value).length ≤ file.length := by rwa [length_encode]
  obtain ⟨next, hWrite, hChanges, hRead⟩ := write_spec hBytes
  rw [length_encode] at hChanges hRead
  exact ⟨next, hWrite, hChanges, by rw [readNat, hRead, Option.map_some, decode_encode hValue]⟩

end File

end KushDB.Bytes
