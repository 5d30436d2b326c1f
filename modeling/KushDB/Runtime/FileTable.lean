import KushDB.Library.Bytes
import Mathlib.Logic.Function.Basic

/-! # Hash tables in files

The index of a column and the dictionary of an enum have a table of 64 bit offsets near the start of their file. Its size
is a power of two, at least 1.5 times the number of items.
-/

namespace KushDB.Runtime

open KushDB.Bytes List

def bitsFrom (size bits : Nat) : Nat := if 2 * 2 ^ bits < 3 * size then bitsFrom size (bits + 1) else bits
termination_by 3 * size - 2 * 2 ^ bits
decreasing_by
  have := Nat.two_pow_pos bits
  rw [Nat.pow_succ]
  omega

/-- The logarithm of the size of the table. -/
def bitsOf (size : Nat) : Nat := bitsFrom size 1

theorem bitsFrom_spec (size bits : Nat) :
    3 * size ≤ 2 * 2 ^ bitsFrom size bits ∧ (bitsFrom size bits = bits ∨ 2 ^ bitsFrom size bits < 3 * size) := by
  fun_induction bitsFrom size bits with
  | case1 bits h ih =>
    refine ⟨ih.1, Or.inr ?_⟩
    rcases ih.2 with hEq | hLess
    · rw [hEq, Nat.pow_succ]
      omega
    · exact hLess
  | case2 bits h => exact ⟨by omega, Or.inl rfl⟩

/-- The table has room, and is not much larger than it has to be. -/
theorem bitsOf_spec (size : Nat) : size < 2 ^ bitsOf size ∧ 2 ^ bitsOf size ≤ 3 * size + 2 := by
  obtain ⟨hRoom, hSmall⟩ := bitsFrom_spec size 1
  have := Nat.two_pow_pos (bitsFrom size 1)
  rw [bitsOf]
  refine ⟨by omega, ?_⟩
  rcases hSmall with hEq | hLess
  · rw [hEq]
    omega
  · omega

/-! ## The words of a table -/

/-- The table of `size` words at `base` holds these. -/
def Words (file : File) (base size : Nat) (word : Nat → Nat) : Prop :=
  ∀ pos < size, file.readNat (base + pos * 8) 8 = some (word pos)

theorem decode_replicate (count : Nat) : decode (List.replicate count 0) = 0 := by
  induction count with
  | zero => rfl
  | succ count ih =>
    rw [replicate_succ, decode, ih]
    rfl

variable {base size : Nat} {file : File}

theorem words_zero (h : file.read base (size * 8) = some (List.replicate (size * 8) 0)) :
    Words file base size fun _ => 0 := by
  intro pos hPos
  have hPart := File.read_part h (by rw [length_replicate]; omega : pos * 8 + 8 ≤ _)
  rw [File.readNat, hPart, drop_replicate, take_replicate, Option.map_some, decode_replicate]

theorem Words.write {word : Nat → Nat} (h : Words file base size word) (hLength : base + size * 8 ≤ file.length)
    {pos value : Nat} (hPos : pos < size) (hValue : value < 2 ^ 64) :
    ∃ next, file.writeNat (base + pos * 8) 8 value = some next ∧ file.Changes next base (base + size * 8) ∧
      Words next base size (Function.update word pos value) := by
  obtain ⟨next, hWrite, hChanges, hRead⟩ :=
    File.writeNat_spec (by omega : base + pos * 8 + 8 ≤ file.length) (by omega : value < 256 ^ 8)
  refine ⟨next, hWrite, hChanges.mono (by omega) (by omega), fun other hOther => ?_⟩
  by_cases hEq : other = pos
  · rw [hEq, Function.update_self, hRead]
  · rw [Function.update_of_ne hEq, hChanges.readNat (by omega), h other hOther]

end KushDB.Runtime
