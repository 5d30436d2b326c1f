import Mathlib.Algebra.GroupWithZero.Nat
import Mathlib.Algebra.Ring.Int.Defs
import KushDB.Runtime.Date

/-! # Checked date arithmetic

The two conversions of the runtime with a check on each intermediate value. A computation that passes all checks is
the one that the machine does.
-/

namespace KushDB.Date

/-! ## Checked arithmetic -/

def unsigned (x : Int) : Option Int := if 0 ≤ x ∧ x < 2 ^ 32 then some x else none

def signed (x : Int) : Option Int := if -(2 ^ 31) ≤ x ∧ x < 2 ^ 31 then some x else none

variable {x y : Int} {α : Type} {f : Int → Option α}

theorem unsigned_of_bounds (hLow : 0 ≤ x) (hHigh : x < 2 ^ 32) : unsigned x = some x :=
  if_pos ⟨hLow, hHigh⟩

theorem signed_of_bounds (hLow : 0 ≤ x) (hHigh : x < 2 ^ 31) : signed x = some x :=
  if_pos ⟨by omega, hHigh⟩

theorem unsigned_bind (hLow : 0 ≤ x) (hHigh : x < 2 ^ 32) : (unsigned x >>= f) = f x := by
  rw [unsigned_of_bounds hLow hHigh]
  rfl

theorem signed_bind (hLow : 0 ≤ x) (hHigh : x < 2 ^ 31) : (signed x >>= f) = f x := by
  rw [signed_of_bounds hLow hHigh]
  rfl

theorem unsigned_signed (hLow : 0 ≤ x) (hHigh : x < 2 ^ 31) : (unsigned x >>= signed) = some x := by
  rw [unsigned_bind hLow (by omega), signed_of_bounds hLow hHigh]

theorem unsigned_signed_bind (hLow : 0 ≤ x) (hHigh : x < 2 ^ 31) : ((unsigned x >>= signed) >>= f) = f x := by
  rw [unsigned_signed hLow hHigh]
  rfl

/-- The number of a day, given the year and the month that count from March. -/
def checkedDayNumber (year month day : Int) : Option Int := do
  let century ← signed (year / 100)
  let days ← unsigned (year * 365)
  let julian ← unsigned (days - 32167) >>= signed
  let leapDays ← unsigned (year / 4 - century)
  let leapDays ← unsigned (leapDays + century / 4)
  let julian ← unsigned (julian + leapDays) >>= signed
  let monthDays ← unsigned (7834 * month)
  let monthDays ← unsigned (monthDays / 256 + day)
  unsigned (julian + monthDays) >>= signed

def checkedBuildDate (year month day : Int) : Option Int := do
  let month' ← unsigned (if month > 2 then month + 1 else month + 13)
  let year' ← unsigned (if month > 2 then year + 4800 else year + 4799)
  checkedDayNumber year' month' day

/-- The day in a calendar without the exceptions of the centuries, which begins with January of a leap year. -/
def checkedJulian (jd : Int) : Option Int := do
  let julian ← unsigned (jd + 32044)
  let quad := julian / 146097
  let quadDays ← unsigned (quad * 146097)
  let extra ← unsigned (julian - quadDays)
  let extra ← unsigned (extra * 4)
  let extra ← unsigned (extra + 3)
  let skipped ← unsigned (quad * 3)
  let skipped ← unsigned (60 + skipped)
  let skipped ← unsigned (skipped + extra / 146097)
  unsigned (julian + skipped)

/-- The day of a year that begins in March, with 123 days before it. -/
def checkedDayOfYear (y julian : Int) : Option Int := do
  let shifted ← unsigned (if y ≠ 0 then julian + 305 else julian + 306)
  unsigned ((if y ≠ 0 then shifted % 365 else shifted % 366) + 123)

/-- The year, and the day of the year that begins in March. -/
def checkedYear (julian : Int) : Option (Int × Int) := do
  let quad := julian / 1461
  let quadDays ← unsigned (quad * 1461)
  let julian ← unsigned (julian - quadDays)
  let y ← unsigned (julian * 4)
  let y ← signed (y / 1461)
  let julian ← checkedDayOfYear y julian
  let quadYears ← unsigned (quad * 4)
  let y ← unsigned (y + quadYears) >>= signed
  let year ← signed (y - 4800)
  return (year, julian)

/-- The month and the day. -/
def checkedMonth (julian : Int) : Option (Int × Int) := do
  let quad ← unsigned (julian * 2141)
  let quad := quad / 65536
  let monthDays ← unsigned (7834 * quad)
  let day ← unsigned (julian - monthDays / 256) >>= signed
  let month ← unsigned (quad + 10)
  let month ← unsigned (month % 12 + 1) >>= signed
  return (month, day)

/-- The year, the month and the day. -/
def checkedSplitDate (jd : Int) : Option (Int × Int × Int) := do
  let julian ← unsigned jd
  let julian ← checkedJulian julian
  let (year, julian) ← checkedYear julian
  let (month, day) ← checkedMonth julian
  return (year, month, day)

/-! ## The machine computes what passes the checks -/

def Represents (word : UInt32) (x : Int) : Prop := (word.toNat : Int) = x

theorem eq_of_unsigned (h : unsigned x = some y) : x = y ∧ 0 ≤ x ∧ x < 2 ^ 32 := by
  unfold unsigned at h
  split at h
  case isTrue hBounds => exact ⟨Option.some.inj h, hBounds⟩
  case isFalse => cases h

theorem eq_of_signed (h : signed x = some y) : x = y ∧ -(2 ^ 31) ≤ x ∧ x < 2 ^ 31 := by
  unfold signed at h
  split at h
  case isTrue hBounds => exact ⟨Option.some.inj h, hBounds⟩
  case isFalse => cases h

/-- A signed variable that holds the result of an unsigned computation. -/
theorem unsigned_of_signed (h : (unsigned x >>= signed) = some y) : unsigned x = some y := by
  obtain ⟨z, hUnsigned, hSigned⟩ := Option.bind_eq_some_iff.mp h
  rw [← (eq_of_signed hSigned).1]
  exact hUnsigned

namespace Represents

variable {a b : UInt32} {x y z : Int}

theorem literal (n : Nat) (h : n < 2 ^ 32) : Represents (OfNat.ofNat n) (OfNat.ofNat n) :=
  congrArg Int.ofNat (Nat.mod_eq_of_lt h)

section

variable (hA : Represents a x) (hB : Represents b y)
include hA hB

theorem add (h : unsigned (x + y) = some z) : Represents (a + b) z := by
  unfold Represents at *
  have hBounds := eq_of_unsigned h
  rw [UInt32.toNat_add]
  omega

theorem sub (h : unsigned (x - y) = some z) : Represents (a - b) z := by
  unfold Represents at *
  have hBounds := eq_of_unsigned h
  have hLt := b.toNat_lt
  rw [UInt32.toNat_sub]
  omega

theorem mul (h : unsigned (x * y) = some z) : Represents (a * b) z := by
  unfold Represents at *
  obtain ⟨rfl, hLow, hHigh⟩ := eq_of_unsigned h
  rw [UInt32.toNat_mul, ← hA, ← hB, ← Int.natCast_mul, Nat.mod_eq_of_lt]
  rw [← hA, ← hB, ← Int.natCast_mul] at hHigh
  omega

theorem div : Represents (a / b) (x / y) := by
  unfold Represents at *
  rw [UInt32.toNat_div, ← hA, ← hB, Int.natCast_ediv]

theorem mod : Represents (a % b) (x % y) := by
  unfold Represents at *
  rw [UInt32.toNat_mod, ← hA, ← hB, Int.natCast_emod]

theorem toInt_sub (h : signed (x - y) = some z) : (a - b).toInt32.toInt = z := by
  unfold Represents at *
  obtain ⟨hEq, hLow, hHigh⟩ := eq_of_signed h
  have hLt := b.toNat_lt
  have hWord : (a - b).toInt32.toInt = ((a - b).toNat : Int).bmod (2 ^ 32) := BitVec.toInt_eq_toNat_bmod _
  rw [hWord, UInt32.toNat_sub, Int.bmod_def]
  split <;> omega

end

end Represents

theorem eq_ofNat {word : UInt32} {n : Nat} (h : Represents word n) : word = UInt32.ofNat n := by
  rw [← Int.ofNat_inj.mp h, UInt32.ofNat_toNat]

theorem buildDate_of_checked {year month day : UInt32} {jd : Int}
    (h : checkedBuildDate year.toNat month.toNat day.toNat = some jd) : Represents (buildDate year month day) jd := by
  have hYear : Represents year year.toNat := rfl
  have hMonth : Represents month month.toNat := rfl
  have hDay : Represents day day.toNat := rfl
  obtain ⟨month', hMonthFits, h⟩ := Option.bind_eq_some_iff.mp h
  obtain ⟨year', hYearFits, h⟩ := Option.bind_eq_some_iff.mp h
  obtain ⟨century, hCentury, h⟩ := Option.bind_eq_some_iff.mp h
  obtain ⟨days, hDays, h⟩ := Option.bind_eq_some_iff.mp h
  obtain ⟨start, hStart, h⟩ := Option.bind_eq_some_iff.mp h
  obtain ⟨leap, hLeap, h⟩ := Option.bind_eq_some_iff.mp h
  obtain ⟨leapDays, hLeapDays, h⟩ := Option.bind_eq_some_iff.mp h
  obtain ⟨julian, hJulian, h⟩ := Option.bind_eq_some_iff.mp h
  obtain ⟨product, hProduct, h⟩ := Option.bind_eq_some_iff.mp h
  obtain ⟨monthDays, hMonthDays, hResult⟩ := Option.bind_eq_some_iff.mp h
  obtain rfl := (eq_of_signed hCentury).1
  -- the two branches differ in the shifted month and year only
  have hRest : ∀ {m y : UInt32}, Represents m month' → Represents y year' →
      Represents (y * 365 - 32167 + (y / 4 - y / 100 + y / 100 / 4) + (7834 * m / 256 + day)) jd := by
    intro m y hM hY
    have hHundred := hY.div (.literal 100 (by decide))
    have hYearDays := hY.mul (.literal 365 (by decide)) hDays
    have hBase := hYearDays.sub (.literal 32167 (by decide)) (unsigned_of_signed hStart)
    have hFours := (hY.div (.literal 4 (by decide))).sub hHundred hLeap
    have hLeaps := hFours.add (hHundred.div (.literal 4 (by decide))) hLeapDays
    have hMonths := (Represents.literal 7834 (by decide)).mul hM hProduct
    have hRest := (hMonths.div (.literal 256 (by decide))).add hDay hMonthDays
    exact (hBase.add hLeaps (unsigned_of_signed hJulian)).add hRest (unsigned_of_signed hResult)
  have hLater : (month > 2) ↔ (month.toNat : Int) > 2 := by
    rw [gt_iff_lt, UInt32.lt_iff_toNat_lt]
    exact Int.ofNat_lt.symm
  by_cases hGt : month > 2
  · rw [if_pos (hLater.mp hGt)] at hMonthFits hYearFits
    rw [buildDate, if_pos hGt]
    exact hRest (hMonth.add (.literal 1 (by decide)) hMonthFits) (hYear.add (.literal 4800 (by decide)) hYearFits)
  · rw [if_neg (mt hLater.mpr hGt)] at hMonthFits hYearFits
    rw [buildDate, if_neg hGt]
    exact hRest (hMonth.add (.literal 13 (by decide)) hMonthFits) (hYear.add (.literal 4799 (by decide)) hYearFits)

variable {jd : UInt32} {z : Int}

theorem julian_of_checked (hJd : Represents jd x) (h : checkedJulian x = some z) :
    Represents (jd + 32044 + (60 + (jd + 32044) / 146097 * 3 +
      ((jd + 32044 - (jd + 32044) / 146097 * 146097) * 4 + 3) / 146097)) z := by
  obtain ⟨julian, hJulian, h⟩ := Option.bind_eq_some_iff.mp h
  obtain ⟨quadDays, hQuadDays, h⟩ := Option.bind_eq_some_iff.mp h
  obtain ⟨extra, hExtra, h⟩ := Option.bind_eq_some_iff.mp h
  obtain ⟨extraFour, hExtraFour, h⟩ := Option.bind_eq_some_iff.mp h
  obtain ⟨extraThree, hExtraThree, h⟩ := Option.bind_eq_some_iff.mp h
  obtain ⟨skipped, hSkipped, h⟩ := Option.bind_eq_some_iff.mp h
  obtain ⟨skippedSixty, hSkippedSixty, h⟩ := Option.bind_eq_some_iff.mp h
  obtain ⟨skippedAll, hSkippedAll, hTotal⟩ := Option.bind_eq_some_iff.mp h
  have rJulian := hJd.add (.literal 32044 (by decide)) hJulian
  have rQuad := rJulian.div (.literal 146097 (by decide))
  have rExtra := rJulian.sub (rQuad.mul (.literal 146097 (by decide)) hQuadDays) hExtra
  have rExtraThree := (rExtra.mul (.literal 4 (by decide)) hExtraFour).add (.literal 3 (by decide)) hExtraThree
  have rSkipped := (Represents.literal 60 (by decide)).add (rQuad.mul (.literal 3 (by decide)) hSkipped) hSkippedSixty
  exact rJulian.add (rSkipped.add (rExtraThree.div (.literal 146097 (by decide))) hSkippedAll) hTotal

theorem dayOfYear_of_checked {a b : UInt32} (hY : Represents a x) (hDay : Represents b y)
    (h : checkedDayOfYear x y = some z) :
    Represents ((if a ≠ 0 then (b + 305) % 365 else (b + 306) % 366) + 123) z := by
  have hZero : a ≠ 0 ↔ x ≠ 0 := by
    rw [← hY, ne_eq, ne_eq, ← UInt32.toNat_inj]
    exact not_congr Int.ofNat_inj.symm
  obtain ⟨w, hShifted, h⟩ := Option.bind_eq_some_iff.mp h
  apply Represents.add _ (.literal 123 (by decide)) h
  split
  case isTrue hNe =>
    rw [if_pos (hZero.mp hNe)] at hShifted ⊢
    exact (hDay.add (.literal 305 (by decide)) hShifted).mod (.literal 365 (by decide))
  case isFalse hEq =>
    rw [if_neg (mt hZero.mpr hEq)] at hShifted ⊢
    exact (hDay.add (.literal 306 (by decide)) hShifted).mod (.literal 366 (by decide))

theorem splitDate_of_checked {year month day : Int} (h : checkedSplitDate jd.toNat = some (year, month, day)) :
    (splitDate jd).year = year ∧ Represents (splitDate jd).month month ∧ Represents (splitDate jd).day day := by
  unfold checkedSplitDate at h
  obtain ⟨number, hNumber, h⟩ := Option.bind_eq_some_iff.mp h
  obtain ⟨julian, hJulian, h⟩ := Option.bind_eq_some_iff.mp h
  obtain ⟨⟨year', inYear⟩, hYears, h⟩ := Option.bind_eq_some_iff.mp h
  obtain ⟨⟨month', day'⟩, hMonths, h⟩ := Option.bind_eq_some_iff.mp h
  obtain ⟨rfl, hPair⟩ := Prod.mk.inj (Option.some.inj h)
  obtain ⟨rfl, rfl⟩ := Prod.mk.inj hPair
  have rJulian := julian_of_checked (eq_of_unsigned hNumber).1 hJulian
  obtain ⟨cycleDays, hCycleDays, hYears⟩ := Option.bind_eq_some_iff.mp hYears
  obtain ⟨inCycle, hInCycle, hYears⟩ := Option.bind_eq_some_iff.mp hYears
  obtain ⟨quarters, hQuarters, hYears⟩ := Option.bind_eq_some_iff.mp hYears
  obtain ⟨y, hY, hYears⟩ := Option.bind_eq_some_iff.mp hYears
  obtain ⟨inYear', hInYear, hYears⟩ := Option.bind_eq_some_iff.mp hYears
  obtain ⟨quadYears, hQuadYears, hYears⟩ := Option.bind_eq_some_iff.mp hYears
  obtain ⟨yearSum, hYearSum, hYears⟩ := Option.bind_eq_some_iff.mp hYears
  obtain ⟨year'', hYear, hYears⟩ := Option.bind_eq_some_iff.mp hYears
  obtain ⟨rfl, rfl⟩ := Prod.mk.inj (Option.some.inj hYears)
  obtain rfl := (eq_of_signed hY).1
  have rCycle := rJulian.div (.literal 1461 (by decide))
  have rInCycle := rJulian.sub (rCycle.mul (.literal 1461 (by decide)) hCycleDays) hInCycle
  have rY := (rInCycle.mul (.literal 4 (by decide)) hQuarters).div (.literal 1461 (by decide))
  have rInYear := dayOfYear_of_checked rY rInCycle hInYear
  have rYearSum := rY.add (rCycle.mul (.literal 4 (by decide)) hQuadYears) (unsigned_of_signed hYearSum)
  obtain ⟨months, hProduct, hMonths⟩ := Option.bind_eq_some_iff.mp hMonths
  obtain ⟨monthDays, hMonthDays, hMonths⟩ := Option.bind_eq_some_iff.mp hMonths
  obtain ⟨day'', hDay, hMonths⟩ := Option.bind_eq_some_iff.mp hMonths
  obtain ⟨monthTen, hMonthTen, hMonths⟩ := Option.bind_eq_some_iff.mp hMonths
  obtain ⟨month'', hMonth, hMonths⟩ := Option.bind_eq_some_iff.mp hMonths
  obtain ⟨rfl, rfl⟩ := Prod.mk.inj (Option.some.inj hMonths)
  have rMonths := (rInYear.mul (.literal 2141 (by decide)) hProduct).div (.literal 65536 (by decide))
  have rMonthDays := ((Represents.literal 7834 (by decide)).mul rMonths hMonthDays).div (.literal 256 (by decide))
  have rMonthTen := (rMonths.add (.literal 10 (by decide)) hMonthTen).mod (.literal 12 (by decide))
  exact ⟨rYearSum.toInt_sub (.literal 4800 (by decide)) hYear,
    rMonthTen.add (.literal 1 (by decide)) (unsigned_of_signed hMonth), rInYear.sub rMonthDays (unsigned_of_signed hDay)⟩

end KushDB.Date
