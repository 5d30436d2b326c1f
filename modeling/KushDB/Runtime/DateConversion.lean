import KushDB.Library.Calendar
import KushDB.Runtime.DateArithmetic
import Mathlib.Tactic.IntervalCases

/-! # Conversion of dates

The runtime numbers the days by a formula on years that begin in March, and finds the date of a number by a chain of
divisions. For every date of the calendar up to a year of five million all checks of both computations pass, the
second one gives back the date, and the numbers count the days.
-/

namespace KushDB.Date

open Calendar (Date IsLeap daysInMonth)

/-! ## Years that begin in March -/

def marchYear (year month : Nat) : Int := if month > 2 then year + 4800 else year + 4799

def marchMonth (month : Nat) : Int := if month > 2 then month + 1 else month + 13

def yearStart (year : Int) : Int := year * 365 + (year / 4 - year / 100 + year / 100 / 4)

/-- The days of the year before a month, with 123 days before March. -/
def monthStart (month : Nat) : Int := 7834 * marchMonth month / 256

/-- The days since the first of March. -/
def dayOfYear (date : Date) : Int := monthStart date.month + date.day - 123

def dayNumber (date : Date) : Int := yearStart (marchYear date.year date.month) + dayOfYear date - 32044

/-- Whether the year that begins in March ends in a leap day. -/
def EndsInLeapDay (year : Int) : Prop := (year + 1) % 4 = 0 ∧ ((year + 1) % 100 ≠ 0 ∨ (year + 1) % 400 = 0)

variable {month : Nat} {year : Int}

theorem endsInLeapDay_marchYear (year : Nat) (h : month ≤ 2) : EndsInLeapDay (marchYear year month) ↔ IsLeap year := by
  rw [marchYear, if_neg (by omega), EndsInLeapDay, IsLeap]
  omega

theorem yearStart_succ_of_leap (h : EndsInLeapDay year) : yearStart (year + 1) = yearStart year + 366 := by
  unfold EndsInLeapDay at h
  unfold yearStart
  omega

theorem yearStart_succ_of_not_leap (h : ¬ EndsInLeapDay year) : yearStart (year + 1) = yearStart year + 365 := by
  unfold EndsInLeapDay at h
  unfold yearStart
  omega

theorem monthStart_succ (year : Nat) (hLow : 1 ≤ month) (hHigh : month < 12) (hFebruary : month ≠ 2) :
    monthStart (month + 1) = monthStart month + daysInMonth year month := by
  interval_cases month
  case «2» => exact absurd rfl hFebruary
  all_goals rfl

/-- February is the last month of its year. -/
theorem yearStart_march (year : Nat) :
    yearStart (marchYear year 3) + monthStart 3 =
      yearStart (marchYear year 2) + monthStart 2 + daysInMonth year 2 := by
  have hYear : marchYear year 3 = marchYear year 2 + 1 := by
    simp only [marchYear]
    omega
  have hMarch : monthStart 3 = 122 := rfl
  have hFebruary : monthStart 2 = 459 := rfl
  rw [hYear, hMarch, hFebruary, daysInMonth]
  split
  case isTrue hLeap =>
    have hStart := yearStart_succ_of_leap ((endsInLeapDay_marchYear year (Nat.le_refl 2)).mpr hLeap)
    omega
  case isFalse hLeap =>
    have hStart := yearStart_succ_of_not_leap (mt (endsInLeapDay_marchYear year (Nat.le_refl 2)).mp hLeap)
    omega

/-- Consecutive days have consecutive numbers. -/
theorem dayNumber_next (date : Date) : dayNumber date.next = dayNumber date + 1 := by
  have hMonth := date.month_valid
  unfold dayNumber dayOfYear
  rcases date.next_cases with ⟨hY, hM, hD⟩ | ⟨hLast, hLt, hY, hM, hD⟩ | ⟨hLast, hDecember, hY, hM, hD⟩
  · rw [hY, hM, hD]
    omega
  · rw [hY, hM, hD, hLast]
    by_cases hFebruary : date.month = 2
    · have hStart := yearStart_march date.year
      have hMarch : date.month + 1 = 3 := by omega
      rw [hMarch, hFebruary]
      omega
    · have hStart := monthStart_succ date.year hMonth.1 hLt hFebruary
      have hYear : marchYear date.year (date.month + 1) = marchYear date.year date.month := by
        unfold marchYear
        split <;> split <;> omega
      rw [hYear]
      omega
  · have hStart : monthStart 1 = monthStart 12 + 31 := rfl
    have hYear : marchYear (date.year + 1) 1 = marchYear date.year 12 := by
      simp only [marchYear]
      omega
    rw [hY, hM, hD, hLast, hDecember, hYear]
    omega

/-! ## Every check passes -/

theorem yearStart_bounds (hLow : 4799 ≤ year) (hHigh : year ≤ 5004800) :
    1751635 ≤ yearStart year ∧ yearStart year ≤ 1827965664 := by
  unfold yearStart
  omega

theorem marchMonth_bounds (hLow : 1 ≤ month) (hHigh : month ≤ 12) : 4 ≤ marchMonth month ∧ marchMonth month ≤ 15 := by
  unfold marchMonth
  split <;> omega

theorem checkedDayNumber_eq {month day : Int} (hLow : 4799 ≤ year) (hHigh : year ≤ 5004800) (hMonthLow : 4 ≤ month)
    (hMonthHigh : month ≤ 15) (hDayLow : 1 ≤ day) (hDayHigh : day ≤ 31) :
    checkedDayNumber year month day = some (yearStart year - 32167 + (7834 * month / 256 + day)) := by
  have hStart := yearStart_bounds hLow hHigh
  have hCentury : 0 ≤ year / 100 ∧ year / 100 ≤ 50048 := by omega
  have hLeap : 0 ≤ year / 4 - year / 100 ∧ year / 4 - year / 100 ≤ 1251200 := by omega
  have hMonth : 0 ≤ 7834 * month / 256 ∧ 7834 * month / 256 ≤ 459 := by omega
  unfold yearStart at hStart ⊢
  rw [checkedDayNumber, signed_bind (by omega) (by omega), unsigned_bind (by omega) (by omega),
    unsigned_signed_bind (by omega) (by omega), unsigned_bind (by omega) (by omega),
    unsigned_bind (by omega) (by omega), unsigned_signed_bind (by omega) (by omega),
    unsigned_bind (by omega) (by omega), unsigned_bind (by omega) (by omega), unsigned_signed (by omega) (by omega)]
  congr 1
  omega

theorem checkedBuildDate_eq (date : Date) (hYear : date.year ≤ 5000000) :
    checkedBuildDate date.year date.month date.day = some (dayNumber date) := by
  have hMonth := date.month_valid
  have hDay := date.day_valid
  have hBounds := Calendar.daysInMonth_bounds date.year date.month
  have hMarch := marchMonth_bounds hMonth.1 hMonth.2
  have hLow : 4799 ≤ marchYear date.year date.month := by
    unfold marchYear
    split <;> omega
  have hHigh : marchYear date.year date.month ≤ 5004800 := by
    unfold marchYear
    split <;> omega
  have hYears : (if (date.month : Int) > 2 then (date.year : Int) + 4800 else date.year + 4799) =
      marchYear date.year date.month := by
    unfold marchYear
    split <;> split <;> omega
  have hMonths : (if (date.month : Int) > 2 then (date.month : Int) + 1 else date.month + 13) =
      marchMonth date.month := by
    unfold marchMonth
    split <;> split <;> omega
  rw [checkedBuildDate, hYears, hMonths, unsigned_bind (by omega) (by omega), unsigned_bind (by omega) (by omega),
    checkedDayNumber_eq hLow hHigh hMarch.1 hMarch.2 (by omega) (by omega), dayNumber, dayOfYear, monthStart]
  congr 1
  omega

/-- A day of a year: the last one of a leap year is the only one past 365 days. -/
structure IsDayOf (year day : Int) : Prop where
  nonneg : 0 ≤ day
  le : day ≤ 365
  leap : day = 365 → EndsInLeapDay year

/-- The quadricentennial, the century, the cycle of four years and the year in it. -/
structure YearParts (year quad century cycle rest : Int) : Prop where
  sum : year = 400 * quad + 100 * century + 4 * cycle + rest
  century_bounds : 0 ≤ century ∧ century ≤ 3
  cycle_bounds : 0 ≤ cycle ∧ cycle ≤ 24
  rest_bounds : 0 ≤ rest ∧ rest ≤ 3

theorem exists_yearParts (year : Int) : ∃ quad century cycle rest, YearParts year quad century cycle rest :=
  ⟨year / 400, year % 400 / 100, year % 100 / 4, year % 4, by omega, by omega, by omega, by omega⟩

section

variable {year quad century cycle rest day : Int}

theorem YearParts.yearStart_eq (h : YearParts year quad century cycle rest) :
    yearStart year = 146097 * quad + 36524 * century + 1461 * cycle + 365 * rest := by
  obtain ⟨hSum, hCentury, hCycle, hRest⟩ := h
  have hFour : year / 4 = 100 * quad + 25 * century + cycle := by omega
  have hHundred : year / 100 = 4 * quad + century := by omega
  have hQuad : (4 * quad + century) / 4 = quad := by omega
  rw [yearStart, hFour, hHundred, hQuad, hSum]
  omega

/-- A day past 365 is the last one of a cycle, but not at the end of a century unless it is the fourth. -/
theorem YearParts.day_bounds (h : YearParts year quad century cycle rest) (hDay : IsDayOf year day) :
    0 ≤ day ∧ day ≤ 365 ∧ (day = 365 → rest = 3 ∧ (cycle = 24 → century = 3)) := by
  obtain ⟨hSum, hCentury, hCycle, hRest⟩ := h
  refine ⟨hDay.nonneg, hDay.le, fun hLast => ?_⟩
  obtain ⟨hFour, hHundred⟩ := hDay.leap hLast
  omega

theorem checkedJulian_eq (hLow : 0 ≤ year) (hHigh : year ≤ 5004800) (h : IsDayOf year day) :
    checkedJulian (yearStart year + day - 32044) = some (year * 365 + year / 4 + day + 60) := by
  obtain ⟨quad, century, cycle, rest, hParts⟩ := exists_yearParts year
  obtain ⟨hNonneg, hLe, hLeap⟩ := hParts.day_bounds h
  rw [hParts.yearStart_eq]
  obtain ⟨hSum, hCentury, hCycle, hRest⟩ := hParts
  -- the days since the quadricentennial and since the century began
  obtain ⟨inQuad, hInQuad⟩ : ∃ inQuad, inQuad = 36524 * century + 1461 * cycle + 365 * rest + day := ⟨_, rfl⟩
  obtain ⟨number, hNumber⟩ : ∃ number, number = 146097 * quad + inQuad := ⟨_, rfl⟩
  have hInQuadBounds : 0 ≤ inQuad ∧ inQuad < 146097 := by omega
  have hQuad : number / 146097 = quad := by omega
  have hSkipped : (inQuad * 4 + 3) / 146097 = century := by omega
  have hStart : 146097 * quad + 36524 * century + 1461 * cycle + 365 * rest + day = number := by omega
  have hRest : number - quad * 146097 = inQuad := by omega
  rw [hStart, checkedJulian, Int.sub_add_cancel, unsigned_bind (by omega) (by omega)]
  dsimp only
  rw [hQuad, unsigned_bind (by omega) (by omega), hRest, unsigned_bind (by omega) (by omega),
    unsigned_bind (by omega) (by omega), unsigned_bind (by omega) (by omega), hSkipped,
    unsigned_bind (by omega) (by omega), unsigned_bind (by omega) (by omega), unsigned_bind (by omega) (by omega),
    unsigned_of_bounds (by omega) (by omega)]
  congr 1
  omega

/-- A day by its cycle of four years that begin in January, the year in the cycle and the day in the cycle. -/
theorem checkedYear_of_cycle {inCycle : Int} (hCycle : 1199 ≤ cycle ∧ cycle ≤ 1251201) (hRest : 0 ≤ rest ∧ rest ≤ 3)
    (hInCycle : 0 ≤ inCycle ∧ inCycle ≤ 1460) (hYear : inCycle * 4 / 1461 = rest)
    (hFirst : rest = 0 → (inCycle + 306) % 366 = day) (hLater : rest ≠ 0 → (inCycle + 305) % 365 = day) :
    checkedYear (1461 * cycle + inCycle) = some (4 * cycle + rest - 4800, day + 123) := by
  have hDay : checkedDayOfYear rest inCycle = some (day + 123) := by
    by_cases hZero : rest = 0
    · rw [checkedDayOfYear, if_neg (not_not.mpr hZero), unsigned_bind (by omega) (by omega),
        if_neg (not_not.mpr hZero), hFirst hZero, unsigned_of_bounds (by omega) (by omega)]
    · rw [checkedDayOfYear, if_pos hZero, unsigned_bind (by omega) (by omega), if_pos hZero, hLater hZero,
        unsigned_of_bounds (by omega) (by omega)]
  have hQuad : (1461 * cycle + inCycle) / 1461 = cycle := by omega
  have hDays : 1461 * cycle + inCycle - cycle * 1461 = inCycle := by omega
  have hSum : rest + cycle * 4 - 4800 = 4 * cycle + rest - 4800 := by omega
  rw [checkedYear, hQuad, unsigned_bind (by omega) (by omega), hDays, unsigned_bind (by omega) (by omega),
    unsigned_bind (by omega) (by omega), hYear, signed_bind (by omega) (by omega), hDay]
  change (unsigned (cycle * 4) >>= _) = _
  rw [unsigned_bind (by omega) (by omega), unsigned_signed_bind (by omega) (by omega), hSum]
  have hSigned : signed (4 * cycle + rest - 4800) = some (4 * cycle + rest - 4800) := if_pos (by omega)
  rw [hSigned]
  rfl

/-- The days of January and February belong to the next year. -/
theorem checkedYear_eq (hLow : 4799 ≤ year) (hHigh : year ≤ 5004800) (h : IsDayOf year day) :
    checkedYear (year * 365 + year / 4 + day + 60) =
      some ((if day < 306 then year else year + 1) - 4800, day + 123) := by
  obtain ⟨quad, century, cycle, rest, hParts⟩ := exists_yearParts year
  obtain ⟨hNonneg, hLe, hLeap⟩ := hParts.day_bounds h
  obtain ⟨hSum, hCentury, hCycle, hRest⟩ := hParts
  obtain ⟨fours, hFours⟩ : ∃ fours, fours = 100 * quad + 25 * century + cycle := ⟨_, rfl⟩
  have hYear : year = 4 * fours + rest := by omega
  clear hSum hCentury hCycle hFours
  split
  case isTrue hMarch =>
    have hDay : year * 365 + year / 4 + day + 60 = 1461 * fours + (365 * rest + day + 60) := by omega
    rw [hDay, hYear]
    exact checkedYear_of_cycle (by omega) hRest (by omega) (by omega) (by omega) (by omega)
  case isFalse hMarch =>
    by_cases hLast : rest = 3
    · have hDay : year * 365 + year / 4 + day + 60 = 1461 * (fours + 1) + (day - 306) := by omega
      have hNext : year + 1 = 4 * (fours + 1) + 0 := by omega
      rw [hDay, hNext]
      exact checkedYear_of_cycle (by omega) (by omega) (by omega) (by omega) (by omega) (by omega)
    · have hDay : year * 365 + year / 4 + day + 60 = 1461 * fours + (365 * rest + day + 60) := by omega
      have hNext : year + 1 = 4 * fours + (rest + 1) := by omega
      rw [hDay, hNext]
      exact checkedYear_of_cycle (by omega) (by omega) (by omega) (by omega) (by omega) (by omega)

end

/-- What the length of a month leaves of the next one's start. Only a leap day is past it. -/
theorem monthStart_cases (year : Nat) (hLow : 1 ≤ month) (hHigh : month ≤ 12) :
    (month > 2 ∧ 122 ≤ monthStart month ∧ monthStart month + daysInMonth year month ≤ 428) ∨
    (month ≤ 2 ∧ 428 ≤ monthStart month ∧ monthStart month + daysInMonth year month ≤ 487) ∨
    (month = 2 ∧ IsLeap year ∧ 428 ≤ monthStart month ∧ monthStart month + daysInMonth year month = 488) := by
  have hFebruary : monthStart 2 = 459 := rfl
  by_cases hTwo : month = 2
  · subst hTwo
    rw [hFebruary, daysInMonth]
    split
    case isTrue hLeap => exact .inr (.inr ⟨rfl, hLeap, by omega, rfl⟩)
    case isFalse hLeap => exact .inr (.inl ⟨by omega, by omega, by omega⟩)
  · interval_cases month
    case «1» => exact .inr (.inl ⟨by decide, by decide, by simp [monthStart, marchMonth, daysInMonth]⟩)
    case «2» => exact absurd rfl hTwo
    all_goals exact .inl ⟨by decide, by decide, by simp [monthStart, marchMonth, daysInMonth]⟩

theorem isDayOf_dayOfYear (date : Date) : IsDayOf (marchYear date.year date.month) (dayOfYear date) := by
  have hDay := date.day_valid
  rcases monthStart_cases date.year date.month_valid.1 date.month_valid.2 with
    ⟨hMonth, hStart, hEnd⟩ | ⟨hMonth, hStart, hEnd⟩ | ⟨hMonth, hLeap, hStart, hEnd⟩
  · exact ⟨by unfold dayOfYear; omega, by unfold dayOfYear; omega, fun h => by unfold dayOfYear at h; omega⟩
  · exact ⟨by unfold dayOfYear; omega, by unfold dayOfYear; omega, fun h => by unfold dayOfYear at h; omega⟩
  · refine ⟨by unfold dayOfYear; omega, by unfold dayOfYear; omega, fun _ => ?_⟩
    exact (endsInLeapDay_marchYear date.year (by omega)).mpr hLeap

theorem marchYear_of_dayOfYear (date : Date) :
    (if dayOfYear date < 306 then marchYear date.year date.month else marchYear date.year date.month + 1) - 4800 =
      date.year := by
  have hDay := date.day_valid
  unfold dayOfYear marchYear
  rcases monthStart_cases date.year date.month_valid.1 date.month_valid.2 with h | h | h <;> split <;> split <;> omega

variable {year : Nat}

theorem marchMonth_of_day {day : Nat} (hLow : 1 ≤ month) (hHigh : month ≤ 12) (hDayLow : 1 ≤ day)
    (hDayHigh : day ≤ daysInMonth year month) : (monthStart month + day) * 2141 / 65536 = marchMonth month := by
  have hFebruary : daysInMonth year 2 ≤ 29 := by
    rw [daysInMonth]
    split <;> omega
  interval_cases month
  case «2» =>
    simp only [monthStart, marchMonth]
    omega
  all_goals
    simp only [monthStart, marchMonth, daysInMonth] at hDayHigh ⊢
    omega

theorem checkedMonth_eq (date : Date) :
    checkedMonth (dayOfYear date + 123) = some ((date.month : Int), (date.day : Int)) := by
  have hMonth := date.month_valid
  have hDay := date.day_valid
  have hBounds := Calendar.daysInMonth_bounds date.year date.month
  have hMarch := marchMonth_bounds hMonth.1 hMonth.2
  have hStart : 0 ≤ monthStart date.month ∧ monthStart date.month ≤ 487 := by
    rcases monthStart_cases date.year hMonth.1 hMonth.2 with h | h | h <;> omega
  have hQuad := marchMonth_of_day hMonth.1 hMonth.2 hDay.1 hDay.2
  have hDays : 7834 * marchMonth date.month / 256 = monthStart date.month := rfl
  have hSum : dayOfYear date + 123 = monthStart date.month + date.day := by
    unfold dayOfYear
    omega
  have hRest : monthStart date.month + date.day - monthStart date.month = date.day := by omega
  have hResult : (marchMonth date.month + 10) % 12 + 1 = date.month := by
    unfold marchMonth
    split <;> omega
  rw [checkedMonth, hSum, unsigned_bind (by omega) (by omega), hQuad, unsigned_bind (by omega) (by omega), hDays, hRest,
    unsigned_signed_bind (by omega) (by omega), unsigned_bind (by omega) (by omega), hResult,
    unsigned_signed_bind (by omega) (by omega)]
  rfl

/-! ## Dates convert faithfully -/

theorem marchYear_bounds (month : Nat) (hYear : year ≤ 5000000) :
    4799 ≤ marchYear year month ∧ marchYear year month ≤ 5004800 := by
  unfold marchYear
  split <;> omega

theorem dayNumber_bounds (date : Date) (hYear : date.year ≤ 5000000) : 0 ≤ dayNumber date ∧ dayNumber date < 2 ^ 31 := by
  have hMarch := marchYear_bounds date.month hYear
  have hStart := yearStart_bounds hMarch.1 hMarch.2
  have hDay := isDayOf_dayOfYear date
  have hLow := hDay.nonneg
  have hHigh := hDay.le
  unfold dayNumber
  omega

theorem checkedSplitDate_eq (date : Date) (hYear : date.year ≤ 5000000) :
    checkedSplitDate (dayNumber date) = some ((date.year : Int), (date.month : Int), (date.day : Int)) := by
  have hMarch := marchYear_bounds date.month hYear
  have hNumber := dayNumber_bounds date hYear
  have hDay := isDayOf_dayOfYear date
  rw [checkedSplitDate, unsigned_bind hNumber.1 (by omega), dayNumber, checkedJulian_eq (by omega) hMarch.2 hDay]
  change (checkedYear _ >>= _) = _
  rw [checkedYear_eq hMarch.1 hMarch.2 hDay, marchYear_of_dayOfYear]
  change (checkedMonth _ >>= _) = _
  rw [checkedMonth_eq]
  rfl

/-- The number of a date, as the machine computes it. -/
def build (date : Date) : UInt32 :=
  buildDate (UInt32.ofNat date.year) (UInt32.ofNat date.month) (UInt32.ofNat date.day)

theorem build_represents (date : Date) (hYear : date.year ≤ 5000000) : Represents (build date) (dayNumber date) := by
  have hMonth := date.month_valid
  have hDay := date.day_valid
  have hBounds := Calendar.daysInMonth_bounds date.year date.month
  have hWord : ∀ {n : Nat}, n < 2 ^ 32 → (UInt32.ofNat n).toNat = n := fun h => UInt32.toNat_ofNat_of_lt' h
  apply buildDate_of_checked
  rw [hWord (by omega), hWord (by omega), hWord (by omega)]
  exact checkedBuildDate_eq date hYear

theorem dates_convert (date : Date) (hYear : date.year ≤ 5000000) :
    (∃ jd, checkedBuildDate date.year date.month date.day = some jd ∧ (build date).toNat = jd ∧
      checkedSplitDate jd = some ((date.year : Int), (date.month : Int), (date.day : Int))) ∧
    splitDate (build date) = ⟨date.year, UInt32.ofNat date.month, UInt32.ofNat date.day⟩ ∧
    (∀ later : Date, later.year ≤ 5000000 → date.Before later → build date < build later) ∧
    (date.next.year ≤ 5000000 → (build date.next).toNat = (build date).toNat + 1) := by
  have hBuild := build_represents date hYear
  have hSplit := checkedSplitDate_eq date hYear
  refine ⟨⟨dayNumber date, checkedBuildDate_eq date hYear, hBuild, hSplit⟩, ?_, ?_, ?_⟩
  · rw [← hBuild] at hSplit
    obtain ⟨hSplitYear, hSplitMonth, hSplitDay⟩ := splitDate_of_checked hSplit
    exact SplitDate.ext hSplitYear (eq_ofNat hSplitMonth) (eq_ofNat hSplitDay)
  · intro later hLater hBefore
    have hLt := Date.lt_of_before dayNumber_next hBefore
    rw [← hBuild, ← build_represents later hLater] at hLt
    exact UInt32.lt_iff_toNat_lt.mpr (Int.ofNat_lt.mp hLt)
  · intro hNext
    have hSucc := dayNumber_next date
    rw [← hBuild, ← build_represents date.next hNext] at hSucc
    exact Int.ofNat_inj.mp hSucc

def leapDay : Date := ⟨2000, 2, 29, by decide, by decide⟩

theorem leapDay_converts :
    splitDate (build leapDay) = ⟨2000, 2, 29⟩ ∧ (build leapDay.next).toNat = (build leapDay).toNat + 1 :=
  have h := dates_convert leapDay (by decide)
  ⟨h.2.1, h.2.2.2 (by decide)⟩

end KushDB.Date
