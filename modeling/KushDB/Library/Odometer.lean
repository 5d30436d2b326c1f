import Mathlib.Data.List.Lex
import Mathlib.Data.List.Forall2
import Mathlib.Algebra.BigOperators.Group.List.Basic
import Mathlib.Algebra.Order.BigOperators.GroupWithZero.List
import Mathlib.Tactic.Linarith
import Mathlib.Tactic.Ring

/-! # Mixed-radix counters in the lexicographic order

A counter is a list of digits, most significant first, each below its own base.
The lexicographic order on counters is the order of the numbers they denote, so every
statement about the step back by one becomes arithmetic on `value`.
-/

namespace KushDB.Odometer

open List

/-- Every digit lies below its base. The two lists have the same length. -/
def InRange (bases digits : List Int) : Prop :=
  List.Forall₂ (fun base digit => 0 ≤ digit ∧ digit < base) bases digits

def value : List Int → List Int → Int
  | _ :: bases, digit :: digits => digit * bases.prod + value bases digits
  | _, _ => 0

/-- One step back. The flag says that every digit was zero and the counter wrapped. -/
def back : List Int → List Int → List Int × Bool
  | base :: bases, digit :: digits =>
    let (rest, borrow) := back bases digits
    if borrow then
      if digit = 0 then ((base - 1) :: rest, true) else ((digit - 1) :: rest, false)
    else (digit :: rest, false)
  | _, _ => ([], true)

/-- Complete a prefix to a counter, reading each missing digit off its base. -/
def fill (missing : Int → Int) : List Int → List Int → List Int
  | [], _ => []
  | base :: bases, [] => missing base :: fill missing bases []
  | _ :: bases, digit :: digits => digit :: fill missing bases digits

/-- The least counter with the given prefix. -/
def low : List Int → List Int → List Int := fill fun _ => 0

/-- The greatest counter with the given prefix. -/
def high : List Int → List Int → List Int := fill fun base => base - 1

variable {l m bases digits pre : List Int}

theorem cons_le_cons_iff {a b : Int} : a :: l ≤ b :: m ↔ a < b ∨ a = b ∧ l ≤ m := by
  rw [← not_lt, cons_lt_cons_iff, ← not_lt]
  by_cases h : a < b
  · simp [h, h.not_gt, h.ne']
  · by_cases hEq : a = b
    · simp [hEq]
    · simp [h, hEq, show b < a by omega]

theorem prefix_le (h : l <+: m) : l ≤ m := not_lt.mp (List.IsPrefix.le h)

theorem take_le_take (h : l ≤ m) (k : Nat) : l.take k ≤ m.take k := by
  induction k generalizing l m with
  | zero => simp
  | succ k ih =>
    cases l with
    | nil => exact prefix_le (by simp)
    | cons a l =>
      cases m with
      | nil => exact absurd (nil_lt_cons a l) (not_lt.mpr h)
      | cons b m =>
        rw [take_succ_cons, take_succ_cons, cons_le_cons_iff]
        exact (cons_le_cons_iff.mp h).imp id fun ⟨hFirst, hRest⟩ => ⟨hFirst, ih hRest⟩

theorem take_le_self (k : Nat) (l : List Int) : l.take k ≤ l :=
  prefix_le <| take_prefix k l

theorem lt_of_take_lt {k : Nat} (h : l.take k < m.take k) : l < m := by
  by_contra hNot
  exact absurd h (not_lt.mpr (take_le_take (not_lt.mp hNot) k))

theorem InRange.length_eq (h : InRange bases digits) :
    bases.length = digits.length := List.Forall₂.length_eq h

theorem inRange_cons {base digit : Int} :
    InRange (base :: bases) (digit :: digits) ↔
      (0 ≤ digit ∧ digit < base) ∧ InRange bases digits := List.forall₂_cons

theorem InRange.take (h : InRange bases digits) (k : Nat) :
    InRange (bases.take (digits.take k).length) (digits.take k) := by
  rw [length_take, ← h.length_eq, ← take_eq_take_min]
  exact List.forall₂_take k h

theorem InRange.bases_pos (h : InRange bases digits) : ∀ base ∈ bases, 0 < base := by
  induction h with
  | nil => simp
  | cons hDigit _ ih => exact forall_mem_cons.mpr ⟨by omega, ih⟩

theorem InRange.prod_pos (h : InRange bases digits) : 0 < bases.prod := by
  induction h with
  | nil => simp
  | cons hDigit _ ih =>
    rw [prod_cons]
    exact mul_pos (by omega) ih

theorem value_bounds (h : InRange bases digits) : 0 ≤ value bases digits ∧ value bases digits < bases.prod := by
  induction h with
  | nil => simp [value]
  | @cons base digit bases digits hDigit hDigits ih =>
    have hPos : 0 < bases.prod := InRange.prod_pos hDigits
    simp only [value, prod_cons]
    constructor
    · nlinarith [mul_nonneg hDigit.1 hPos.le]
    · nlinarith [mul_le_mul_of_nonneg_right (show digit + 1 ≤ base by omega) hPos.le]

variable {left right : List Int}

/-- The lexicographic order on counters is the order of their values. -/
theorem lt_iff_value_lt (hLeft : InRange bases left) (hRight : InRange bases right) :
    left < right ↔ value bases left < value bases right := by
  induction hLeft generalizing right with
  | nil => cases hRight; simp [value]
  | @cons base digit bases digits hDigit hDigits ih =>
    cases hRight with
    | @cons _ other _ others hOther hOthers =>
      have hPos : 0 < bases.prod := InRange.prod_pos hDigits
      have hLow := value_bounds hDigits
      have hHigh := value_bounds hOthers
      rw [cons_lt_cons_iff, ih hOthers]
      simp only [value]
      constructor
      · rintro (h | ⟨rfl, h⟩)
        · nlinarith [mul_le_mul_of_nonneg_right (show digit + 1 ≤ other by omega) hPos.le]
        · omega
      · intro h
        rcases lt_trichotomy digit other with hLt | rfl | hGt
        · exact Or.inl hLt
        · exact Or.inr ⟨rfl, by omega⟩
        · nlinarith [mul_le_mul_of_nonneg_right (show other + 1 ≤ digit by omega) hPos.le]

theorem le_iff_value_le (hLeft : InRange bases left) (hRight : InRange bases right) :
    left ≤ right ↔ value bases left ≤ value bases right := by
  rw [← not_lt, ← not_lt, lt_iff_value_lt hRight hLeft]

theorem back_spec (h : InRange bases digits) :
    InRange bases (back bases digits).1 ∧
      ((back bases digits).2 = true → value bases digits = 0 ∧
        value bases (back bases digits).1 = bases.prod - 1) ∧
      ((back bases digits).2 = false → value bases (back bases digits).1 = value bases digits - 1) := by
  induction h with
  | nil => simp [back, value, InRange]
  | @cons base digit bases digits hDigit hDigits ih =>
    obtain ⟨hRange, hWrap, hStep⟩ := ih
    simp only [back]
    cases hBorrow : (back bases digits).2 with
    | false =>
      refine ⟨inRange_cons.mpr ⟨hDigit, hRange⟩, by simp, fun _ => ?_⟩
      simp only [value, Bool.false_eq_true, if_false]
      rw [hStep hBorrow]
      ring
    | true =>
      obtain ⟨hZero, hTop⟩ := hWrap hBorrow
      by_cases hDigitZero : digit = 0
      · simp only [if_true, if_pos hDigitZero]
        refine ⟨inRange_cons.mpr ⟨by omega, hRange⟩, fun _ => ⟨?_, ?_⟩, by simp⟩
        · simp [value, hDigitZero, hZero]
        · simp only [value, hTop, prod_cons]
          ring
      · simp only [if_true, if_neg hDigitZero]
        refine ⟨inRange_cons.mpr ⟨by omega, hRange⟩, by simp, fun _ => ?_⟩
        simp only [value, hTop, hZero]
        ring

theorem back_inRange (h : InRange bases digits) :
    InRange bases (back bases digits).1 := (back_spec h).1

/-- Nothing lies strictly between a counter that did not wrap and its step back. -/
theorem le_back_iff_lt {other : List Int} (hOther : InRange bases other) (h : InRange bases digits)
    (hStep : (back bases digits).2 = false) : other ≤ (back bases digits).1 ↔ other < digits := by
  rw [le_iff_value_le hOther (back_inRange h), lt_iff_value_lt hOther h, (back_spec h).2.2 hStep]
  omega

theorem back_lt (h : InRange bases digits) (hStep : (back bases digits).2 = false) : (back bases digits).1 < digits :=
  (le_back_iff_lt (back_inRange h) h hStep).mp le_rfl

/-- The counter wraps exactly at zero. -/
theorem back_wraps_iff (h : InRange bases digits) : (back bases digits).2 = true ↔ ∀ digit ∈ digits, digit = 0 := by
  induction h with
  | nil => simp [back]
  | @cons base digit bases digits hDigit hDigits ih =>
    simp only [back]
    cases hBorrow : (back bases digits).2 with
    | false =>
      have hRest : ¬ ∀ digit ∈ digits, digit = 0 := fun hAll => by
        rw [← ih, hBorrow] at hAll
        cases hAll
      simp only [Bool.false_eq_true, if_false, forall_mem_cons, false_iff, not_and]
      exact fun _ => hRest
    | true =>
      by_cases hDigitZero : digit = 0 <;> simp [hDigitZero, ← ih, hBorrow]

theorem fill_length (missing : Int → Int) (bases pre : List Int) :
    (fill missing bases pre).length = bases.length := by
  fun_induction fill missing bases pre <;> simp_all

theorem prefix_fill (missing : Int → Int) (h : pre.length ≤ bases.length) : pre <+: fill missing bases pre := by
  fun_induction fill missing bases pre with
  | case1 => simp [length_eq_zero_iff.mp (Nat.le_zero.mp h)]
  | case2 => exact nil_prefix
  | case3 _ _ _ _ ih => exact (prefix_cons_inj _).mpr (ih (by simpa using h))

theorem fill_inRange {missing : Int → Int} (hMissing : ∀ base, 0 < base → 0 ≤ missing base ∧ missing base < base)
    (hBases : ∀ base ∈ bases, 0 < base) (hPre : InRange (bases.take pre.length) pre) :
    InRange bases (fill missing bases pre) := by
  fun_induction fill missing bases pre with
  | case1 => exact .nil
  | case2 base bases ih =>
    exact inRange_cons.mpr ⟨hMissing _ (hBases _ mem_cons_self),
      ih (fun other hOther => hBases _ (mem_cons_of_mem _ hOther)) (by simpa using hPre)⟩
  | case3 base bases digit digits ih =>
    have hPre := inRange_cons.mp (by simpa using hPre)
    exact inRange_cons.mpr ⟨hPre.1, ih (fun other hOther => hBases _ (mem_cons_of_mem _ hOther)) hPre.2⟩

theorem low_inRange (hBases : ∀ base ∈ bases, 0 < base) (hPre : InRange (bases.take pre.length) pre) :
    InRange bases (low bases pre) :=
  fill_inRange (fun _ h => ⟨le_rfl, h⟩) hBases hPre

theorem high_inRange (hBases : ∀ base ∈ bases, 0 < base) (hPre : InRange (bases.take pre.length) pre) :
    InRange bases (high bases pre) :=
  fill_inRange (fun _ h => by omega) hBases hPre

/-- A counter at or above a prefix is at or above the least counter with that prefix. -/
theorem low_le_of_le (h : InRange bases digits) (hLe : pre ≤ digits) : low bases pre ≤ digits := by
  induction h generalizing pre with
  | nil => simp [low, fill]
  | @cons base digit bases digits hDigit hDigits ih =>
    cases pre with
    | nil =>
      have hRest : low bases [] ≤ digits := ih (prefix_le nil_prefix)
      change (0 :: low bases []) ≤ _
      rcases hDigit.1.lt_or_eq with hLt | rfl
      · exact (cons_lt_cons_iff.mpr (Or.inl hLt)).le
      · exact cons_le_cons_iff.mpr (Or.inr ⟨rfl, hRest⟩)
    | cons first pre =>
      change (first :: low bases pre) ≤ _
      rcases cons_le_cons_iff.mp hLe with hLt | ⟨rfl, hRest⟩
      · exact cons_le_cons_iff.mpr (Or.inl hLt)
      · exact cons_le_cons_iff.mpr (Or.inr ⟨rfl, ih hRest⟩)

theorem le_low (bases pre : List Int) (h : pre.length ≤ bases.length) : pre ≤ low bases pre :=
  prefix_le (prefix_fill _ h)

/-- Below the least counter with a prefix lie the counters below the prefix itself. -/
theorem lt_low_iff (h : InRange bases digits) (hLength : pre.length < bases.length) :
    digits < low bases pre ↔ digits ≤ pre := by
  constructor
  · intro hLt
    by_contra hNot
    exact absurd hLt (not_lt.mpr (low_le_of_le h (not_le.mp hNot).le))
  · intro hLe
    have hNe : digits ≠ pre := by
      rintro rfl
      have hDigits := h.length_eq
      omega
    exact (lt_of_le_of_ne hLe hNe).trans_le (le_low bases pre hLength.le)

/-- A counter above a prefix that does not extend it is above every counter that does. -/
theorem high_lt_of_lt (hLength : bases.length = digits.length) (hLt : pre < digits) (hPre : ¬ pre <+: digits) :
    high bases pre < digits := by
  induction digits generalizing bases pre with
  | nil => cases pre <;> simp at hLt
  | cons digit digits ih =>
    cases bases with
    | nil => simp at hLength
    | cons base bases =>
      cases pre with
      | nil => simp at hPre
      | cons first pre =>
        change (first :: high bases pre) < _
        rcases cons_lt_cons_iff.mp hLt with hFirst | ⟨rfl, hRest⟩
        · exact cons_lt_cons_iff.mpr (Or.inl hFirst)
        · refine cons_lt_cons_iff.mpr (Or.inr ⟨rfl, ih (by simpa using hLength) hRest ?_⟩)
          intro hExtends
          exact hPre ((prefix_cons_inj _).mpr hExtends)

theorem prefix_le_high (h : InRange bases digits) (hPre : pre <+: digits) : digits ≤ high bases pre := by
  induction h generalizing pre with
  | nil => simp [high, fill]
  | @cons base digit bases digits hDigit hDigits ih =>
    cases pre with
    | nil =>
      change _ ≤ (base - 1) :: high bases []
      rcases (show digit ≤ base - 1 by omega).lt_or_eq with hLt | rfl
      · exact cons_le_cons_iff.mpr (Or.inl hLt)
      · exact cons_le_cons_iff.mpr (Or.inr ⟨rfl, ih nil_prefix⟩)
    | cons first pre =>
      obtain ⟨rfl, hRest⟩ := cons_prefix_cons.mp hPre
      exact cons_le_cons_iff.mpr (Or.inr ⟨rfl, ih hRest⟩)

/-- A counter that wraps comes to the greatest one. -/
theorem back_eq_high (h : InRange bases digits) (hWraps : (back bases digits).2 = true) :
    (back bases digits).1 = high bases [] := by
  have hHigh : InRange bases (high bases []) := high_inRange h.bases_pos (by simp [InRange])
  refine le_antisymm (prefix_le_high (back_inRange h) nil_prefix) ?_
  rw [le_iff_value_le hHigh (back_inRange h), ((back_spec h).2.1 hWraps).2]
  have hBelow := (value_bounds hHigh).2
  omega

end KushDB.Odometer
