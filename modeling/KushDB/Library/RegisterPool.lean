import Mathlib.Data.Finset.Card
import Mathlib.Data.List.Nodup

/-! # A pool of registers under a scan of intervals

Intervals are numbered in the order in which a scan meets them. A pool keeps the free registers and the numbers of the
active intervals; every register is free or held by exactly one active interval, and an interval that holds a register
without being active has ended. Under these rules two intervals that overlap never hold the same register, whatever
the scan does: it may give a free register to the next interval, take a register away, or let intervals expire.
-/

namespace KushDB.RegisterPool

open List

variable {registers : Finset Nat} {first last : Nat → Nat} {reg : Nat → Option Nat} {count now : Nat}
  {free : Finset Nat} {active : List Nat}

def Overlap (first last : Nat → Nat) (j k : Nat) : Prop :=
  first j ≤ last k ∧ first k ≤ last j

structure Fits (registers : Finset Nat) (first last : Nat → Nat) (reg : Nat → Option Nat) (count now : Nat)
    (free : Finset Nat) (active : List Nat) : Prop where
  free_sub : free ⊆ registers
  held : ∀ k ∈ active, k < count ∧ ∃ r ∈ registers, reg k = some r ∧ r ∉ free
  inj : ∀ j ∈ active, ∀ k ∈ active, reg j = reg k → j = k
  cover : ∀ r ∈ registers, r ∉ free → ∃ k ∈ active, reg k = some r
  gone : ∀ k < count, ∀ r ∈ registers, reg k = some r → k ∈ active ∨ last k < now
  apart : ∀ j < count, ∀ k < count, j ≠ k → Overlap first last j k → ∀ r ∈ registers, reg j = some r → reg k ≠ some r
  nodup : active.Nodup
  sorted : active.Pairwise fun j k => last j ≤ last k

theorem fits_start (registers : Finset Nat) (first last : Nat → Nat) (reg : Nat → Option Nat) :
    Fits registers first last reg 0 0 registers [] where
  free_sub := subset_refl _
  held _ hMem := absurd hMem not_mem_nil
  inj _ hMem := absurd hMem not_mem_nil
  cover _ hMem hNot := absurd hMem hNot
  gone k hLt := absurd hLt (Nat.not_lt_zero k)
  apart j hLt := absurd hLt (Nat.not_lt_zero j)
  nodup := nodup_nil
  sorted := List.Pairwise.nil

variable {reg' : Nat → Option Nat}

/-- Only the registers of the pool and the intervals met so far matter. -/
theorem Fits.congr (h : Fits registers first last reg count now free active)
    (hReg : ∀ k < count, ∀ r ∈ registers, reg' k = some r ↔ reg k = some r) :
    Fits registers first last reg' count now free active where
  free_sub := h.free_sub
  held k hMem := by
    obtain ⟨hLt, r, hRegister, hHeld, hNot⟩ := h.held k hMem
    exact ⟨hLt, r, hRegister, (hReg k hLt r hRegister).mpr hHeld, hNot⟩
  inj j hJ k hK hEq := by
    obtain ⟨hLtJ, r, hMemJ, hHeldJ, -⟩ := h.held j hJ
    have hHeldK : reg' k = some r := hEq ▸ (hReg j hLtJ r hMemJ).mpr hHeldJ
    exact h.inj j hJ k hK (hHeldJ.trans ((hReg k (h.held k hK).1 r hMemJ).mp hHeldK).symm)
  cover r hMem hNot := by
    obtain ⟨k, hK, hHeld⟩ := h.cover r hMem hNot
    exact ⟨k, hK, (hReg k (h.held k hK).1 r hMem).mpr hHeld⟩
  gone k hLt r hMem hHeld := h.gone k hLt r hMem ((hReg k hLt r hMem).mp hHeld)
  apart j hJ k hK hNe hOverlap r hMem hHeld hOther :=
    h.apart j hJ k hK hNe hOverlap r hMem ((hReg j hJ r hMem).mp hHeld) ((hReg k hK r hMem).mp hOther)
  nodup := h.nodup
  sorted := h.sorted

/-- The next interval gets no register of the pool. -/
theorem Fits.skip (h : Fits registers first last reg count now free active)
    (hNone : ∀ r ∈ registers, reg count ≠ some r) : Fits registers first last reg (count + 1) now free active where
  free_sub := h.free_sub
  held k hMem := ⟨Nat.lt_succ_of_lt (h.held k hMem).1, (h.held k hMem).2⟩
  inj := h.inj
  cover := h.cover
  gone k hLt r hMem hHeld := by
    rcases Nat.lt_succ_iff_lt_or_eq.mp hLt with hOld | rfl
    · exact h.gone k hOld r hMem hHeld
    · exact absurd hHeld (hNone r hMem)
  apart j hJ k hK hNe hOverlap r hMem hHeld := by
    rcases Nat.lt_succ_iff_lt_or_eq.mp hJ with hOldJ | rfl
    · rcases Nat.lt_succ_iff_lt_or_eq.mp hK with hOldK | rfl
      · exact h.apart j hOldJ k hOldK hNe hOverlap r hMem hHeld
      · exact hNone r hMem
    · exact absurd hHeld (hNone r hMem)
  nodup := h.nodup
  sorted := h.sorted

variable {j r : Nat}

section

variable (h : Fits registers first last reg count now free active)
include h

/-- An interval that holds a register and overlaps the next one is active. -/
theorem Fits.mem_active {k : Nat} (hLt : j < count) (hNow : now ≤ first k) (hMem : r ∈ registers)
    (hHeld : reg j = some r) (hOverlap : Overlap first last j k) : j ∈ active := by
  rcases h.gone j hLt r hMem hHeld with hActive | hGone
  · exact hActive
  · exact absurd hOverlap.2 (by omega)

/-- The next interval takes a free register. -/
theorem Fits.take {added : List Nat} (hFree : r ∈ free) (hNow : now ≤ first count) (hReg : reg count = some r)
    (hAdded : added.Perm (count :: active)) (hSorted : added.Pairwise fun j k => last j ≤ last k) :
    Fits registers first last reg (count + 1) now (free.erase r) added where
  free_sub := (Finset.erase_subset _ _).trans h.free_sub
  held k hMem := by
    rcases mem_cons.mp (hAdded.mem_iff.mp hMem) with rfl | hOld
    · exact ⟨Nat.lt_succ_self _, r, h.free_sub hFree, hReg, Finset.notMem_erase _ _⟩
    · obtain ⟨hLt, other, hOther, hHeld, hNot⟩ := h.held k hOld
      exact ⟨Nat.lt_succ_of_lt hLt, other, hOther, hHeld, fun hErase => hNot (Finset.mem_of_mem_erase hErase)⟩
  inj j hJ k hK hEq := by
    have hDiffer : ∀ old ∈ active, reg old ≠ reg count := by
      intro old hOld hSame
      obtain ⟨-, other, -, hHeld, hNot⟩ := h.held old hOld
      rw [hHeld, hReg] at hSame
      exact hNot (Option.some.inj hSame ▸ hFree)
    rcases mem_cons.mp (hAdded.mem_iff.mp hJ) with rfl | hOldJ
    · rcases mem_cons.mp (hAdded.mem_iff.mp hK) with rfl | hOldK
      · rfl
      · exact absurd hEq.symm (hDiffer k hOldK)
    · rcases mem_cons.mp (hAdded.mem_iff.mp hK) with rfl | hOldK
      · exact absurd hEq (hDiffer j hOldJ)
      · exact h.inj j hOldJ k hOldK hEq
  cover other hMem hNot := by
    by_cases hEq : other = r
    · exact ⟨count, hAdded.mem_iff.mpr mem_cons_self, hEq ▸ hReg⟩
    · obtain ⟨k, hK, hHeld⟩ := h.cover other hMem fun hIn => hNot (Finset.mem_erase.mpr ⟨hEq, hIn⟩)
      exact ⟨k, hAdded.mem_iff.mpr (mem_cons_of_mem _ hK), hHeld⟩
  gone k hLt other hMem hHeld := by
    rcases Nat.lt_succ_iff_lt_or_eq.mp hLt with hOld | rfl
    · exact (h.gone k hOld other hMem hHeld).imp_left fun hK => hAdded.mem_iff.mpr (mem_cons_of_mem _ hK)
    · exact Or.inl (hAdded.mem_iff.mpr mem_cons_self)
  apart j hJ k hK hNe hOverlap other hMem hHeld := by
    -- an older interval with the register taken now would be active and hold a free register
    have hFresh : ∀ old < count, Overlap first last old count → reg old ≠ some r := by
      intro old hOld hMeet hSame
      have hActive := h.mem_active hOld hNow (h.free_sub hFree) hSame hMeet
      obtain ⟨-, held, -, hHeldOld, hNot⟩ := h.held old hActive
      rw [hHeldOld] at hSame
      exact hNot (Option.some.inj hSame ▸ hFree)
    rcases Nat.lt_succ_iff_lt_or_eq.mp hJ with hOldJ | rfl
    · rcases Nat.lt_succ_iff_lt_or_eq.mp hK with hOldK | rfl
      · exact h.apart j hOldJ k hOldK hNe hOverlap other hMem hHeld
      · intro hSame
        rw [hReg] at hSame
        exact hFresh j hOldJ hOverlap (hHeld.trans hSame.symm)
    · have hOldK : k < j := by omega
      rw [hReg] at hHeld
      exact hHeld ▸ hFresh k hOldK ⟨hOverlap.2, hOverlap.1⟩
  nodup := hAdded.nodup_iff.mpr (nodup_cons.mpr ⟨fun hMem => absurd (h.held count hMem).1 (Nat.lt_irrefl _),
    h.nodup⟩)
  sorted := hSorted

/-- An active interval gives its register back: it loses it, or it has ended. -/
theorem Fits.release (hActive : j ∈ active) (hHeld : reg j = some r)
    (hGone : reg' j = none ∨ reg' j = reg j ∧ last j < now) (hSame : ∀ k < count, k ≠ j → reg' k = reg k) :
    Fits registers first last reg' count now (insert r free) (active.erase j) := by
  have hOld : ∀ k < count, ∀ other, reg' k = some other → reg k = some other ∧ (k = j → last j < now) := by
    intro k hLt other hHeldK
    rcases eq_or_ne k j with rfl | hNe
    · rcases hGone with hNone | ⟨hKept, hEnd⟩
      · exact absurd (hNone.symm.trans hHeldK) (by simp)
      · exact ⟨hKept ▸ hHeldK, fun _ => hEnd⟩
    · exact ⟨hSame k hLt hNe ▸ hHeldK, fun hEq => absurd hEq hNe⟩
  refine ⟨?_, fun k hMem => ?_, fun a hA b hB hEq => ?_, fun other hMem hNot => ?_, fun k hLt other hMem hHeldK => ?_,
    fun a hA b hB hNe hOverlap other hMem hHeldA hHeldB => ?_, h.nodup.erase j, h.sorted.sublist erase_sublist⟩
  · obtain ⟨-, other, hMem, hOther, -⟩ := h.held j hActive
    rw [hHeld] at hOther
    exact Finset.insert_subset (Option.some.inj hOther ▸ hMem) h.free_sub
  · obtain ⟨hNe, hIn⟩ := h.nodup.mem_erase_iff.mp hMem
    obtain ⟨hLt, other, hOther, hHeldK, hNot⟩ := h.held k hIn
    refine ⟨hLt, other, hOther, (hSame k hLt hNe).trans hHeldK, fun hFreed => ?_⟩
    rcases Finset.mem_insert.mp hFreed with rfl | hFree
    · exact hNe (h.inj k hIn j hActive (hHeldK.trans hHeld.symm))
    · exact hNot hFree
  · obtain ⟨hNeA, hOldA⟩ := h.nodup.mem_erase_iff.mp hA
    obtain ⟨hNeB, hOldB⟩ := h.nodup.mem_erase_iff.mp hB
    rw [hSame a (h.held a hOldA).1 hNeA, hSame b (h.held b hOldB).1 hNeB] at hEq
    exact h.inj a hOldA b hOldB hEq
  · obtain ⟨k, hK, hHeldK⟩ := h.cover other hMem fun hFree => hNot (Finset.mem_insert_of_mem hFree)
    have hNe : k ≠ j := by
      rintro rfl
      rw [hHeld] at hHeldK
      exact hNot (Option.some.inj hHeldK ▸ Finset.mem_insert_self _ _)
    exact ⟨k, h.nodup.mem_erase_iff.mpr ⟨hNe, hK⟩, (hSame k (h.held k hK).1 hNe).trans hHeldK⟩
  · obtain ⟨hBefore, hEnd⟩ := hOld k hLt other hHeldK
    rcases eq_or_ne k j with rfl | hNe
    · exact Or.inr (hEnd rfl)
    · exact (h.gone k hLt other hMem hBefore).imp_left fun hK => h.nodup.mem_erase_iff.mpr ⟨hNe, hK⟩
  · exact h.apart a hA b hB hNe hOverlap other hMem (hOld a hA other hHeldA).1 (hOld b hB other hHeldB).1

theorem Fits.later {later : Nat} (hNow : now ≤ later) : Fits registers first last reg count later free active :=
  ⟨h.free_sub, h.held, h.inj, h.cover,
    fun k hLt r hMem hHeld => (h.gone k hLt r hMem hHeld).imp_right fun hGone => hGone.trans_le hNow, h.apart, h.nodup,
    h.sorted⟩

end

end KushDB.RegisterPool
