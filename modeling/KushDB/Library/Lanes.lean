import Mathlib.Algebra.GroupWithZero.Nat
import Mathlib.Data.List.FinRange
import Mathlib.Data.Vector.Defs

/-! # Compressing lanes

A mask over the lanes of a vector is turned into the number of its bits; a table holds, for each such number, the
lanes that are set, in order and then filled up; a store that is cut to the number of set bits writes only those.
-/

namespace KushDB.Lanes

open List hiding Vector

def popcount (width bits : Nat) : Nat := (List.range width).countP bits.testBit

/-- The lanes that are set move to the front of the entry, one after the other. -/
def tableStep {n : Nat} (bits : Nat) (entry : List (Fin n) × Nat) (bit : Fin n) : List (Fin n) × Nat :=
  if bits.testBit bit then (entry.1.set entry.2 bit, entry.2 + 1) else entry

def tableEntry (n : Nat) [NeZero n] (bits : Nat) : List (Fin n) :=
  ((List.finRange n).foldl (tableStep bits) (List.replicate n 0, 0)).1

/-- Stores the elements one after the other, and nothing where one of them would be outside. -/
def storeAll {α : Type} {size : Nat} (memory : Vector α size) (pos : Nat) : List α → Option (Vector α size)
  | [] => some memory
  | x :: xs => if h : pos < size then storeAll (memory.set pos x h) (pos + 1) xs else none

def maskStore {α : Type} {size : Nat} (memory : Vector α size) (pos : Nat) (lanes : List α) (count : Nat) :
    Option (Vector α size) :=
  storeAll memory pos (lanes.take count)

variable {n : Nat}

theorem popcount_ofBits {width : Nat} (hWidth : n ≤ width) (mask : Fin n → Bool) :
    popcount width (Nat.ofBits mask) = ((List.finRange n).filter mask).length := by
  obtain ⟨more, rfl⟩ := Nat.exists_eq_add_of_le hWidth
  have hLow : (List.range n).countP (Nat.ofBits mask).testBit = (List.finRange n).countP mask := by
    rw [← map_coe_finRange_eq_range, countP_map]
    congr 1
    funext lane
    exact Nat.testBit_ofBits_lt mask lane lane.isLt
  have hHigh : ((List.range more).map (n + ·)).countP (Nat.ofBits mask).testBit = 0 := by
    rw [countP_eq_zero]
    rintro bit hBit
    obtain ⟨offset, -, rfl⟩ := List.mem_map.mp hBit
    rw [Nat.testBit_ofBits_ge mask _ (Nat.le_add_right n offset)]
    exact Bool.false_ne_true
  rw [popcount, range_add, countP_append, hLow, hHigh, Nat.add_zero, countP_eq_length_filter]

/-- After some bits, the entry begins with those that are set and still has its filling behind them. -/
theorem foldl_tableStep {n bits : Nat} {mask : Fin n → Bool} (hMask : ∀ bit : Fin n, bits.testBit bit = mask bit)
    (todo : List (Fin n)) {done rest : List (Fin n)} (hRest : todo.length ≤ rest.length) :
    ∃ filling, todo.foldl (tableStep bits) (done ++ rest, done.length) =
      (done ++ todo.filter mask ++ filling, (done ++ todo.filter mask).length) := by
  induction todo generalizing done rest with
  | nil => exact ⟨rest, by simp⟩
  | cons bit todo ih =>
    rw [length_cons] at hRest
    rw [foldl_cons, tableStep, hMask]
    by_cases hBit : mask bit = true
    · cases rest with
      | nil => simp at hRest
      | cons old rest =>
        obtain ⟨filling, hFilling⟩ := @ih (done ++ [bit]) rest (by simpa using hRest)
        refine ⟨filling, ?_⟩
        rw [if_pos hBit, filter_cons_of_pos hBit, set_append_right _ _ (Nat.le_refl _), Nat.sub_self,
          set_cons_zero]
        simpa [append_assoc] using hFilling
    · obtain ⟨filling, hFilling⟩ := @ih done rest (Nat.le_of_succ_le hRest)
      exact ⟨filling, by rw [if_neg hBit, filter_cons_of_neg hBit, hFilling]⟩

theorem take_tableEntry [NeZero n] (mask : Fin n → Bool) :
    (tableEntry n (Nat.ofBits mask)).take ((List.finRange n).filter mask).length = (List.finRange n).filter mask := by
  have hMask : ∀ bit : Fin n, (Nat.ofBits mask).testBit bit = mask bit :=
    fun bit => Nat.testBit_ofBits_lt mask bit bit.isLt
  obtain ⟨filling, hFilling⟩ := @foldl_tableStep n _ mask hMask (List.finRange n) [] (List.replicate n 0) (by simp)
  rw [nil_append, nil_append, length_nil] at hFilling
  rw [tableEntry, hFilling, take_left]

theorem storeAll_spec {α : Type} {size : Nat} (memory : Vector α size) (pos : Nat) (xs : List α)
    (hFits : pos + xs.length ≤ size) : ∃ written, storeAll memory pos xs = some written ∧
      written.toList.take (pos + xs.length) = memory.toList.take pos ++ xs := by
  induction xs generalizing memory pos with
  | nil => exact ⟨memory, rfl, by simp⟩
  | cons x xs ih =>
    rw [length_cons] at hFits
    have hPos : pos < size := by omega
    obtain ⟨written, hWritten, hTake⟩ := ih (memory.set pos x hPos) (pos + 1) (by omega)
    refine ⟨written, by rw [storeAll, dif_pos hPos, hWritten], ?_⟩
    have hFirst : (memory.set pos x hPos).toList.take (pos + 1) = memory.toList.take pos ++ [x] := by
      rw [Vector.toList_set, take_add_one, take_set_of_le (Nat.le_refl _),
        List.getElem?_set_self (by simpa using hPos)]
      rfl
    rw [length_cons, show pos + (xs.length + 1) = pos + 1 + xs.length by omega, hTake, hFirst, append_assoc]
    rfl

/-- Permuting by the table and storing as many lanes as the mask has bits stores the lanes of the mask, in order. -/
theorem maskStore_compress {α : Type} {n size width : Nat} [NeZero n] (hWidth : n ≤ width) (mask : Fin n → Bool)
    (lanes : Fin n → α) (memory : Vector α size) {pos : Nat} (hFits : pos + ((List.finRange n).filter mask).length ≤ size) :
    ∃ written, maskStore memory pos ((tableEntry n (Nat.ofBits mask)).map lanes) (popcount width (Nat.ofBits mask)) =
        some written ∧
      written.toList.take (pos + ((List.finRange n).filter mask).length) =
        memory.toList.take pos ++ ((List.finRange n).filter mask).map lanes := by
  rw [maskStore, popcount_ofBits hWidth, ← map_take, take_tableEntry]
  obtain ⟨written, hWritten, hTake⟩ :=
    storeAll_spec memory pos (((List.finRange n).filter mask).map lanes) (by rwa [length_map])
  exact ⟨written, hWritten, by rwa [length_map] at hTake⟩

end KushDB.Lanes
