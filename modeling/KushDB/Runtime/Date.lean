import Mathlib.Data.Nat.Basic

/-! # Dates

A date is a day number in 32 bits. The computation is the one of the runtime, in unsigned arithmetic that wraps around.
-/

namespace KushDB.Date

/-- The century is below `2 ^ 26`, so the signed division of the runtime is the unsigned one. -/
def buildDate (year month day : UInt32) : UInt32 :=
  let (month, year) := if month > 2 then (month + 1, year + 4800) else (month + 13, year + 4799)
  let century := year / 100
  let julian := year * 365 - 32167
  let julian := julian + (year / 4 - century + century / 4)
  julian + (7834 * month / 256 + day)

@[ext]
structure SplitDate where
  year : Int
  month : UInt32
  day : UInt32
deriving DecidableEq, Repr

def splitDate (jd : UInt32) : SplitDate :=
  let julian := jd + 32044
  let quad := julian / 146097
  let extra := (julian - quad * 146097) * 4 + 3
  let julian := julian + (60 + quad * 3 + extra / 146097)
  let quad := julian / 1461
  let julian := julian - quad * 1461
  let y := julian * 4 / 1461
  let julian := (if y ≠ 0 then (julian + 305) % 365 else (julian + 306) % 366) + 123
  let y := y + quad * 4
  let quad := julian * 2141 / 65536
  ⟨(y - 4800).toInt32.toInt, (quad + 10) % 12 + 1, julian - 7834 * quad / 256⟩

def extractYear (value : Int) : Int := (splitDate (UInt32.ofInt value)).year

end KushDB.Date
