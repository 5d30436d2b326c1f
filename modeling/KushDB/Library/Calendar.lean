import Mathlib.Data.Nat.Basic

/-! # The proleptic Gregorian calendar

A date carries the proof that it is one. The day after a date is the next one in the order of the calendar, so a
numbering of the days that counts them one by one also keeps the order.
-/

namespace KushDB.Calendar

def IsLeap (year : Nat) : Prop := year % 4 = 0 ∧ (year % 100 ≠ 0 ∨ year % 400 = 0)

instance (year : Nat) : Decidable (IsLeap year) := by
  unfold IsLeap
  infer_instance

def daysInMonth (year month : Nat) : Nat :=
  match month with
  | 2 => if IsLeap year then 29 else 28
  | 4 | 6 | 9 | 11 => 30
  | _ => 31

theorem daysInMonth_bounds (year month : Nat) : 28 ≤ daysInMonth year month ∧ daysInMonth year month ≤ 31 := by
  unfold daysInMonth
  split
  · split <;> omega
  all_goals omega

theorem daysInMonth_december (year : Nat) : daysInMonth year 12 = 31 := rfl

@[ext]
structure Date where
  year : Nat
  month : Nat
  day : Nat
  month_valid : 1 ≤ month ∧ month ≤ 12
  day_valid : 1 ≤ day ∧ day ≤ daysInMonth year month
deriving DecidableEq

namespace Date

def Before (first second : Date) : Prop :=
  first.year < second.year ∨ first.year = second.year ∧
    (first.month < second.month ∨ first.month = second.month ∧ first.day < second.day)

def next (date : Date) : Date :=
  if hDay : date.day < daysInMonth date.year date.month then
    ⟨date.year, date.month, date.day + 1, date.month_valid, by omega⟩
  else if hMonth : date.month < 12 then
    ⟨date.year, date.month + 1, 1, by omega, by have := daysInMonth_bounds date.year (date.month + 1); omega⟩
  else
    ⟨date.year + 1, 1, 1, by omega, by have := daysInMonth_bounds (date.year + 1) 1; omega⟩

theorem next_cases (date : Date) :
    (date.next.year = date.year ∧ date.next.month = date.month ∧ date.next.day = date.day + 1) ∨
    (date.day = daysInMonth date.year date.month ∧ date.month < 12 ∧
      date.next.year = date.year ∧ date.next.month = date.month + 1 ∧ date.next.day = 1) ∨
    (date.day = 31 ∧ date.month = 12 ∧ date.next.year = date.year + 1 ∧ date.next.month = 1 ∧ date.next.day = 1) := by
  have hLast := date.day_valid.2
  unfold next
  split
  · exact .inl ⟨rfl, rfl, rfl⟩
  split
  · exact .inr (.inl ⟨by omega, by omega, rfl, rfl, rfl⟩)
  · have hMonth : date.month = 12 := by
      have := date.month_valid
      omega
    have hDecember : daysInMonth date.year date.month = 31 := by rw [hMonth, daysInMonth_december]
    exact .inr (.inr ⟨by omega, hMonth, rfl, rfl, rfl⟩)

/-- The day before a date, unless it is the first day of the calendar. -/
theorem exists_next_eq (date : Date) (hFirst : 0 < date.year ∨ 1 < date.month ∨ 1 < date.day) :
    ∃ previous : Date, previous.next = date := by
  obtain ⟨year, month, day, hMonth, hDay⟩ := date
  dsimp only at hFirst
  by_cases hOne : 1 < day
  · refine ⟨⟨year, month, day - 1, hMonth, by omega⟩, ?_⟩
    rw [next, dif_pos (by dsimp only; omega)]
    ext <;> dsimp only
    omega
  obtain rfl : day = 1 := by omega
  by_cases hJanuary : 1 < month
  · have hBounds := daysInMonth_bounds year (month - 1)
    refine ⟨⟨year, month - 1, daysInMonth year (month - 1), by omega, by omega⟩, ?_⟩
    rw [next, dif_neg (Nat.lt_irrefl _), dif_pos (by dsimp only; omega)]
    ext <;> dsimp only
    omega
  · obtain rfl : month = 1 := by omega
    have hBounds := daysInMonth_bounds (year - 1) 12
    refine ⟨⟨year - 1, 12, daysInMonth (year - 1) 12, by omega, by omega⟩, ?_⟩
    rw [next, dif_neg (Nat.lt_irrefl _), dif_neg (by dsimp only; omega)]
    ext <;> dsimp only
    omega

/-- A number for each date that keeps the order. It leaves gaps after the short months. -/
def rank (date : Date) : Nat := 372 * date.year + 31 * date.month + date.day

theorem rank_lt_rank_next (date : Date) : date.rank < date.next.rank := by
  have hBounds := daysInMonth_bounds date.year date.month
  have hMonth := date.month_valid
  unfold rank
  rcases next_cases date with h | h | h <;> omega

variable {first second : Date}

/-- No date lies between a date and the next one. -/
theorem before_next (h : first.Before second.next) : first = second ∨ first.Before second := by
  have hFirst := daysInMonth_bounds first.year first.month
  have hFirstDay := first.day_valid
  have hFirstMonth := first.month_valid
  have hSecondMonth := second.month_valid
  have hSecondDay := second.day_valid
  have hSame : first.year = second.year → first.month = second.month →
      first.day ≤ daysInMonth second.year second.month := by
    intro hYear hMonth
    rw [← hYear, ← hMonth]
    exact hFirstDay.2
  rw [Date.ext_iff]
  unfold Before at h ⊢
  rcases next_cases second with hNext | hNext | hNext
  · omega
  · omega
  · obtain ⟨hDay, hMonth, hNext⟩ := hNext
    have hDecember := daysInMonth_december second.year
    rw [hMonth] at hSame
    omega

/-- Counting the days one by one keeps their order. -/
theorem lt_of_before {number : Date → Int} (hNext : ∀ date, number date.next = number date + 1)
    (h : first.Before second) : number first < number second := by
  induction hRank : second.rank using Nat.strong_induction_on generalizing second with
  | h rank ih =>
    obtain ⟨previous, rfl⟩ := exists_next_eq second (by
      have hMonth := first.month_valid
      have hDay := first.day_valid
      unfold Before at h
      omega)
    rw [hNext]
    rcases before_next h with rfl | hBefore
    · exact Int.lt_succ _
    · have hLt := ih _ (hRank ▸ rank_lt_rank_next previous) hBefore rfl
      omega

end Date

end KushDB.Calendar
