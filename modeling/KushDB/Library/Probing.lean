import Mathlib.Data.Fintype.Card
import Mathlib.Logic.Function.Basic

/-! # Linear probing

A table of `m` slots, each empty or holding a number. A number is looked for from its own start on, slot after slot and
around the end. What makes the search exact is that no number lies behind an empty slot of its path. What makes it end
is one empty slot.
-/

namespace KushDB.Probing

def place (m start distance : Nat) : Nat := (start + distance) % m

/-- The first index on the path at which to stop. -/
def search (m : Nat) (stop : Nat → Bool) : Nat → Nat → Option Nat
  | 0, _ => none
  | fuel + 1, idx => if stop idx then some idx else search m stop fuel ((idx + 1) % m)

variable {m : Nat} {stop : Nat → Bool}

theorem place_lt (hPos : 0 < m) (start distance : Nat) : place m start distance < m := Nat.mod_lt _ hPos

variable {start : Nat}

theorem place_zero (hStart : start < m) : place m start 0 = start := Nat.mod_eq_of_lt hStart

theorem place_succ (start distance : Nat) : place m ((start + 1) % m) distance = place m start (distance + 1) := by
  rw [place, place, Nat.mod_add_mod, Nat.add_assoc, Nat.add_comm 1]

theorem exists_distance {idx : Nat} (hStart : start < m) (hIdx : idx < m) :
    ∃ distance < m, place m start distance = idx := by
  by_cases hLe : start ≤ idx
  · refine ⟨idx - start, by omega, ?_⟩
    rw [place, Nat.add_sub_cancel' hLe, Nat.mod_eq_of_lt hIdx]
  · refine ⟨idx + m - start, by omega, ?_⟩
    rw [place, Nat.add_sub_cancel' (by omega), Nat.add_mod_right, Nat.mod_eq_of_lt hIdx]

variable {distance : Nat}

theorem search_of_first {fuel : Nat} (hStart : start < m) (hFuel : distance < fuel)
    (hStop : stop (place m start distance) = true)
    (hBefore : ∀ earlier < distance, stop (place m start earlier) = false) :
    search m stop fuel start = some (place m start distance) := by
  induction distance generalizing fuel start with
  | zero =>
    obtain ⟨fuel, rfl⟩ := Nat.exists_eq_succ_of_ne_zero (by omega : fuel ≠ 0)
    rw [place_zero hStart] at hStop ⊢
    rw [search, if_pos hStop]
  | succ distance ih =>
    obtain ⟨fuel, rfl⟩ := Nat.exists_eq_succ_of_ne_zero (by omega : fuel ≠ 0)
    have hFirst := hBefore 0 (Nat.zero_lt_succ distance)
    rw [place_zero hStart] at hFirst
    rw [search, if_neg (by rw [hFirst]; exact Bool.false_ne_true), ← place_succ]
    refine ih (Nat.mod_lt _ (by omega)) (by omega) (by rwa [place_succ]) fun earlier hEarlier => ?_
    rw [place_succ]
    exact hBefore (earlier + 1) (by omega)

theorem exists_first {start : Nat} (hStart : start < m) (hSome : ∃ idx < m, stop idx = true) :
    ∃ distance < m, stop (place m start distance) = true ∧
      ∀ earlier < distance, stop (place m start earlier) = false := by
  obtain ⟨idx, hIdx, hStop⟩ := hSome
  obtain ⟨distance, hDistance, rfl⟩ := exists_distance hStart hIdx
  have hExists : ∃ candidate, stop (place m start candidate) = true := ⟨distance, hStop⟩
  refine ⟨Nat.find hExists, lt_of_le_of_lt (Nat.find_min' hExists hStop) hDistance, Nat.find_spec hExists, ?_⟩
  intro earlier hEarlier
  exact eq_false_of_ne_true (Nat.find_min hExists hEarlier)

/-! ## Tables of numbers -/

/-- The slots hold the numbers below `n`, each once and on its path. -/
structure Indexes (m : Nat) (slot : Nat → Option Nat) (start : Nat → Nat) (n : Nat) : Prop where
  lt : ∀ idx < m, ∀ number, slot idx = some number → number < n
  covered : ∀ number < n, ∃ idx < m, slot idx = some number
  injective : ∀ left < m, ∀ right < m, ∀ number, slot left = some number → slot right = some number → left = right
  chained : ∀ idx < m, ∀ number, slot idx = some number → ∃ distance, idx = place m (start number) distance ∧
    ∀ earlier < distance, slot (place m (start number) earlier) ≠ none

variable {slot : Nat → Option Nat} {start : Nat → Nat} {n : Nat}

theorem indexes_empty (m : Nat) (start : Nat → Nat) : Indexes m (fun _ => none) start 0 where
  lt _ _ _ h := nomatch h
  covered _ h := absurd h (Nat.not_lt_zero _)
  injective _ _ _ _ _ h := nomatch h
  chained _ _ _ h := nomatch h

/-- Only the starts of the numbers in the table matter. -/
theorem Indexes.congr (h : Indexes m slot start n) {other : Nat → Nat}
    (hSame : ∀ number < n, start number = other number) : Indexes m slot other n where
  lt := h.lt
  covered := h.covered
  injective := h.injective
  chained idx hIdx number hSlot := by
    rw [← hSame number (h.lt idx hIdx number hSlot)]
    exact h.chained idx hIdx number hSlot

theorem Indexes.exists_free (h : Indexes m slot start n) (hRoom : n < m) : ∃ idx < m, slot idx = none := by
  by_contra hNone
  have hFull : ∀ idx : Fin m, ∃ number : Fin n, slot idx = some number.val := by
    intro idx
    cases hSlot : slot idx with
    | none => exact absurd ⟨idx, idx.isLt, hSlot⟩ hNone
    | some number => exact ⟨⟨number, h.lt idx idx.isLt number hSlot⟩, rfl⟩
  choose number hNumber using hFull
  have hInjective : Function.Injective number := by
    intro left right hEq
    refine Fin.ext (h.injective left left.isLt right right.isLt (number left) (hNumber left) ?_)
    rw [hEq]
    exact hNumber right
  have hCard := Fintype.card_le_of_injective number hInjective
  rw [Fintype.card_fin, Fintype.card_fin] at hCard
  omega

theorem Indexes.insert (h : Indexes m slot start n) (hPos : 0 < m) (hFree : slot (place m (start n) distance) = none)
    (hBefore : ∀ earlier < distance, slot (place m (start n) earlier) ≠ none) :
    Indexes m (Function.update slot (place m (start n) distance) (some n)) start (n + 1) := by
  have hNew : ∀ idx number, Function.update slot (place m (start n) distance) (some n) idx = some number →
      idx = place m (start n) distance ∧ number = n ∨ slot idx = some number := by
    intro idx number hSlot
    by_cases hIdx : idx = place m (start n) distance
    · rw [hIdx, Function.update_self] at hSlot
      exact Or.inl ⟨hIdx, (Option.some.inj hSlot).symm⟩
    · rw [Function.update_of_ne hIdx] at hSlot
      exact Or.inr hSlot
  have hOld : ∀ idx, slot idx ≠ none → Function.update slot (place m (start n) distance) (some n) idx = slot idx := by
    intro idx hSlot
    refine Function.update_of_ne ?_ _ _
    rintro rfl
    exact hSlot hFree
  refine ⟨?_, ?_, ?_, ?_⟩
  · intro idx hIdx number hSlot
    rcases hNew idx number hSlot with ⟨_, rfl⟩ | hSlot
    · omega
    · have := h.lt idx hIdx number hSlot
      omega
  · intro number hNumber
    by_cases hLast : number = n
    · exact ⟨_, place_lt hPos _ _, by rw [Function.update_self, hLast]⟩
    · obtain ⟨idx, hIdx, hSlot⟩ := h.covered number (by omega)
      exact ⟨idx, hIdx, by rw [hOld idx (by rw [hSlot]; exact Option.some_ne_none _), hSlot]⟩
  · intro left hLeft right hRight number hSlotLeft hSlotRight
    rcases hNew left number hSlotLeft with ⟨hLeftEq, hLast⟩ | hLeftOld
    · rcases hNew right number hSlotRight with ⟨hRightEq, _⟩ | hRightOld
      · rw [hLeftEq, hRightEq]
      · have := h.lt right hRight number hRightOld
        omega
    · rcases hNew right number hSlotRight with ⟨_, hLast⟩ | hRightOld
      · have := h.lt left hLeft number hLeftOld
        omega
      · exact h.injective left hLeft right hRight number hLeftOld hRightOld
  · intro idx hIdx number hSlot
    rcases hNew idx number hSlot with ⟨hIdxEq, rfl⟩ | hSlot
    · refine ⟨distance, hIdxEq, fun earlier hEarlier => ?_⟩
      rw [hOld _ (hBefore earlier hEarlier)]
      exact hBefore earlier hEarlier
    · obtain ⟨length, hPlace, hPath⟩ := h.chained idx hIdx number hSlot
      refine ⟨length, hPlace, fun earlier hEarlier => ?_⟩
      rw [hOld _ (hPath earlier hEarlier)]
      exact hPath earlier hEarlier

/-- A search that stops at empty slots and at wanted numbers ends at a wanted number if there is one, and at an empty
slot otherwise. -/
theorem Indexes.search (h : Indexes m slot start n) (hRoom : n < m) {wanted : Nat → Bool} {first : Nat}
    (hFirst : first < m) (hSame : ∀ number < n, wanted number = true → start number = first)
    (hStop : ∀ idx < m, stop idx = true ↔ slot idx = none ∨ ∃ number, slot idx = some number ∧ wanted number = true) :
    ∃ distance, search m stop m first = some (place m first distance) ∧
      (∀ earlier < distance, slot (place m first earlier) ≠ none) ∧
      (slot (place m first distance) = none ∧ (∀ number < n, wanted number = false) ∨
        ∃ number < n, slot (place m first distance) = some number ∧ wanted number = true) := by
  have hPos : 0 < m := by omega
  obtain ⟨free, hFree, hEmpty⟩ := h.exists_free hRoom
  obtain ⟨distance, hDistance, hHit, hBefore⟩ :=
    exists_first hFirst ⟨free, hFree, (hStop free hFree).mpr (Or.inl hEmpty)⟩
  have hGoesOn : ∀ earlier < distance, ¬(slot (place m first earlier) = none ∨
      ∃ number, slot (place m first earlier) = some number ∧ wanted number = true) := by
    intro earlier hEarlier hHere
    have hTrue := (hStop _ (place_lt hPos _ _)).mpr hHere
    rw [hBefore earlier hEarlier] at hTrue
    exact Bool.false_ne_true hTrue
  refine ⟨distance, search_of_first hFirst hDistance hHit hBefore, fun earlier hEarlier hNone =>
    hGoesOn earlier hEarlier (Or.inl hNone), ?_⟩
  rcases (hStop _ (place_lt hPos _ _)).mp hHit with hNone | ⟨number, hSlot, hWanted⟩
  · refine Or.inl ⟨hNone, fun number hNumber => eq_false_of_ne_true fun hWanted => ?_⟩
    -- The path to a wanted number would have no empty slot, but this one.
    obtain ⟨idx, hIdx, hSlot⟩ := h.covered number hNumber
    obtain ⟨length, hPlace, hPath⟩ := h.chained idx hIdx number hSlot
    rw [hSame number hNumber hWanted] at hPlace hPath
    rcases Nat.lt_trichotomy distance length with hLt | hEq | hGt
    · exact hPath distance hLt hNone
    · rw [hPlace, ← hEq, hNone] at hSlot
      cases hSlot
    · exact hGoesOn length hGt (Or.inr ⟨number, hPlace ▸ hSlot, hWanted⟩)
  · exact Or.inr ⟨number, h.lt _ (place_lt hPos _ _) number hSlot, hSlot, hWanted⟩

end KushDB.Probing
