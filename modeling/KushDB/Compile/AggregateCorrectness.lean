import KushDB.Compile.Aggregator
import Mathlib.Algebra.BigOperators.Group.List.Basic
import Mathlib.Data.List.ReduceOption
import Mathlib.Tactic.FieldSimp
import Mathlib.Tactic.Linarith
import Mathlib.Tactic.Ring

/-! # What the aggregators compute

What an entry holds after some rows depends on the values that are not NULL among them, in their order. One step of an
aggregator adds one value to them, and a NULL adds none.
-/

namespace KushDB.Plan

open Compile List

/-! ## Runs of one aggregator -/

section Runs

variable {F : Type} {f64 : Float64 F} {enums : EnumManager} {placeholder : Value F}
variable {entry : AggregateEntry F}

/-- What holds of the values seen so far after the first row, and is kept by every later one, holds at the end. -/
theorem fold_good (aggType : AggregateType) (Good : List (Value F) → AggregateEntry F → Prop) {Valid : Value F → Prop}
    {first : Option (Value F)} {rest : List (Option (Value F))} (hValid : ∀ v ∈ first :: rest, ∀ value ∈ v, Valid value)
    (hFirst : (∀ value ∈ first, Valid value) → Good first.toList (aggType.initialise f64 placeholder entry first))
    (hStep : ∀ seen current next, (∀ value ∈ next, Valid value) → Good seen current →
      Good (seen ++ next.toList) (aggType.update f64 enums placeholder current next)) :
    Good (first :: rest).reduceOption
      (rest.foldl (aggType.update f64 enums placeholder) (aggType.initialise f64 placeholder entry first)) := by
  have hStart := hFirst (hValid first mem_cons_self)
  have hRest : ∀ v ∈ rest, ∀ value ∈ v, Valid value := fun v hMem => hValid v (mem_cons_of_mem _ hMem)
  have hSplit : (first :: rest).reduceOption = first.toList ++ rest.reduceOption := by
    cases first <;> rfl
  rw [hSplit]
  clear hValid hFirst hSplit
  generalize first.toList = seen at hStart
  generalize aggType.initialise f64 placeholder entry first = current at hStart
  induction rest generalizing seen current with
  | nil => rwa [reduceOption_nil, append_nil]
  | cons next rest ih =>
    have hNext := hStep seen current next (hRest next mem_cons_self) hStart
    have hSplit : (next :: rest).reduceOption = next.toList ++ rest.reduceOption := by
      cases next <;> rfl
    rw [hSplit, ← append_assoc, foldl_cons]
    exact ih (fun v hMem => hRest v (mem_cons_of_mem _ hMem)) _ _ hNext

/-- The field is NULL as long as no value was seen, and is described by the values from then on. -/
structure Holds (Spec : List (Value F) → Value F → Prop) (seen : List (Value F)) (entry : AggregateEntry F) :
    Prop where
  flag : entry.value.nullable = true
  null : seen = [] → entry.value.get = none
  value : seen ≠ [] → ∃ v, entry.value.get = some v ∧ Spec seen v

theorem Holds.store {Spec : List (Value F) → Value F → Prop} (hFlag : entry.value.nullable = true)
    {seen : List (Value F)} {v : Value F} (hSeen : seen ≠ []) (hSpec : Spec seen v) :
    Holds Spec seen (storeNext placeholder entry (some v)) where
  flag := (StructField.update_nullable _ _ _).trans hFlag
  null h := absurd h hSeen
  value _ := ⟨v, StructField.get_update_some _ _ _, hSpec⟩

/-- The first row of SUM, MIN and MAX. -/
theorem Holds.initialise {Spec : List (Value F) → Value F → Prop} (hFlag : entry.value.nullable = true)
    {first : Option (Value F)} (hOne : ∀ value ∈ first, Spec [value] value) :
    Holds Spec first.toList (storeNext placeholder entry first) := by
  cases first with
  | none =>
    exact ⟨(StructField.update_nullable _ _ _).trans hFlag, fun _ => StructField.get_update_none _ hFlag,
      fun h => absurd rfl h⟩
  | some value => exact Holds.store hFlag (cons_ne_nil _ _) (hOne value rfl)

/-- A later row of SUM, MIN and MAX: only the way two values are combined differs. -/
theorem Holds.updateWith {Spec : List (Value F) → Value F → Prop} {seen : List (Value F)}
    {entry : AggregateEntry F} (h : Holds Spec seen entry) {next : Option (Value F)}
    {combine : Value F → Value F → AggregateEntry F} (hOne : ∀ value ∈ next, Spec [value] value)
    (hCombine : ∀ value ∈ next, ∀ current, entry.value.get = some current → Spec seen current →
      Holds Spec (seen ++ [value]) (combine current value)) :
    Holds Spec (seen ++ next.toList) (updateWith placeholder combine entry next) := by
  cases next with
  | none =>
    rw [Option.toList_none, append_nil]
    exact h
  | some value =>
    rw [Option.toList_some]
    by_cases hSeen : seen = []
    · rw [updateWith_first _ _ _ (h.null hSeen), hSeen]
      exact Holds.store h.flag (cons_ne_nil _ _) (hOne value rfl)
    · obtain ⟨current, hCurrent, hSpec⟩ := h.value hSeen
      rw [updateWith_later _ _ _ hCurrent]
      exact hCombine value rfl current hCurrent hSpec

end Runs

/-! ## SUM -/

/-- The value has the type, and an integer has its width. -/
def Value.Fits (type : SqlType) (v : Value Rat) : Prop :=
  v.type = type ∧
    match v with
    | .smallInt value => -(2 ^ 15) ≤ value ∧ value < 2 ^ 15
    | .int value => -(2 ^ 31) ≤ value ∧ value < 2 ^ 31
    | .bigInt value => -(2 ^ 63) ≤ value ∧ value < 2 ^ 63
    | _ => True

/-- The sum of values of a numeric type, without overflow. -/
def exactSum (type : SqlType) (values : List (Value Rat)) : Value Rat :=
  match type with
  | .smallInt => .smallInt (values.map Value.number).sum
  | .int => .int (values.map Value.number).sum
  | .bigInt => .bigInt (values.map Value.number).sum
  | _ => .real (values.map (toFloat exactFloat64)).sum

/-- The sum as the machine adds it up. -/
def machineSum (type : SqlType) (values : List (Value Rat)) : Value Rat :=
  match type with
  | .smallInt => .smallInt ((values.map Value.number).sum.bmod (2 ^ 16))
  | .int => .int ((values.map Value.number).sum.bmod (2 ^ 32))
  | .bigInt => .bigInt ((values.map Value.number).sum.bmod (2 ^ 64))
  | _ => .real (values.map (toFloat exactFloat64)).sum

variable {type : SqlType} {enums : EnumManager} {seen : List (Value Rat)} {values : List (Option (Value Rat))}

theorem machineSum_eq {values : List (Value Rat)} (hFits : (exactSum type values).Fits type) :
    machineSum type values = exactSum type values := by
  have hBmod : ∀ {n : Int} {width : Nat}, -(2 ^ width) ≤ n → n < 2 ^ width → n.bmod (2 ^ (width + 1)) = n := by
    intro n width hLow hHigh
    have hDouble : ((2 ^ (width + 1) : Nat) : Int) = 2 * 2 ^ width := by push_cast; ring
    apply Int.bmod_eq_of_le
    · rw [hDouble]
      omega
    · rw [hDouble]
      omega
  cases type with
  | smallInt => exact congrArg Value.smallInt (hBmod hFits.2.1 hFits.2.2)
  | int => exact congrArg Value.int (hBmod hFits.2.1 hFits.2.2)
  | bigInt => exact congrArg Value.bigInt (hBmod hFits.2.1 hFits.2.2)
  | _ => rfl

theorem exactSum_singleton (hNumeric : type ∈ [.int, .smallInt, .bigInt, .real]) {v : Value Rat} (hType : v.type = type) :
    exactSum type [v] = v := by
  subst hType
  cases v <;> simp_all [Value.type, exactSum, Value.number, toFloat]

theorem machineSum_append (hNumeric : type ∈ [.int, .smallInt, .bigInt, .real]) (values : List (Value Rat))
    {v : Value Rat} (hType : v.type = type) :
    machineSum type (values ++ [v]) = sumValues exactFloat64 (machineSum type values) v := by
  subst hType
  cases v <;> simp_all [Value.type, machineSum, Value.number, toFloat, sumValues, exactFloat64]

theorem exactSum_perm (type : SqlType) {values other : List (Value Rat)} (h : values.Perm other) :
    exactSum type values = exactSum type other := by
  have hNumbers := (h.map Value.number).sum_eq
  have hFloats := (h.map (toFloat exactFloat64)).sum_eq
  cases type <;> simp only [exactSum, hNumbers, hFloats]

/-! ## MIN, MAX and AVG -/

/-- MIN looks for the least value, MAX for the greatest. -/
def goesBefore (enums : EnumManager) (min : Bool) (a b : Value Rat) : Bool :=
  if min then lessThanValue exactFloat64 enums a b else lessThanValue exactFloat64 enums b a

def IsExtreme (enums : EnumManager) (min : Bool) (values : List (Value Rat)) (v : Value Rat) : Prop :=
  v ∈ values ∧ ∀ x ∈ values, goesBefore enums min x v = false

theorem weakOrderOn_goesBefore (enums : EnumManager) (min : Bool) (type : SqlType) :
    WeakOrderOn (fun v : Value Rat => v.type = type) (goesBefore enums min) := by
  have hOrder := @weakOrderOn_lessThanValue Rat exactFloat64 enums exactFloat64_ordered type
  have hAll : WeakOrderOn (fun v : Value Rat => v.type = type) (lessThanValue exactFloat64 enums) :=
    hOrder.congr (fun v hType => ⟨hType, isOrdered_exactFloat64 v⟩) fun _ _ _ _ => rfl
  cases min with
  | true => exact hAll
  | false => exact hAll.flip

theorem IsExtreme.replace {min : Bool} {current value : Value Rat} (hTypes : ∀ v ∈ seen, v.type = type)
    (hType : value.type = type) (h : IsExtreme enums min seen current)
    (hLess : goesBefore enums min value current = true) : IsExtreme enums min (seen ++ [value]) value := by
  have hOrder := weakOrderOn_goesBefore enums min type
  have hCurrent := hTypes current h.1
  refine ⟨mem_append_right _ mem_cons_self, fun x hMem => ?_⟩
  rcases mem_append.mp hMem with hOld | hNew
  · exact hOrder.not_greater_trans hType hCurrent (hTypes x hOld) (hOrder.asymm hType hCurrent hLess) (h.2 x hOld)
  · obtain rfl := mem_singleton.mp hNew
    exact hOrder.irrefl x hType

theorem IsExtreme.keep {min : Bool} {current value : Value Rat} (h : IsExtreme enums min seen current)
    (hLess : goesBefore enums min value current = false) : IsExtreme enums min (seen ++ [value]) current := by
  refine ⟨mem_append_left _ h.1, fun x hMem => ?_⟩
  rcases mem_append.mp hMem with hOld | hNew
  · exact h.2 x hOld
  · obtain rfl := mem_singleton.mp hNew
    exact hLess

def mean (values : List (Value Rat)) : Rat :=
  (values.map (toFloat exactFloat64)).sum / values.length

/-- The running mean and the counter, which stays at 1 while there was no value. -/
structure HoldsMean (seen : List (Value Rat)) (entry : AggregateEntry Rat) : Prop where
  holds : Holds (fun values v => v = .real (mean values)) seen entry
  flag : entry.count.nullable = false
  count : entry.count.value = .real (max 1 seen.length : Nat)

theorem mean_append (hSeen : seen ≠ []) (value : Value Rat) :
    mean seen + (toFloat exactFloat64 value - mean seen) / (((max 1 seen.length : Nat) : Rat) + 1) =
      mean (seen ++ [value]) := by
  have hPos : 0 < seen.length := length_pos_of_ne_nil hSeen
  have hMax : max 1 seen.length = seen.length := max_eq_right hPos
  have hLength : (seen.length : Rat) ≠ 0 := Nat.cast_ne_zero.mpr hPos.ne'
  have hNext : (seen.length : Rat) + 1 ≠ 0 := by
    have : (0 : Rat) ≤ seen.length := Nat.cast_nonneg _
    intro hZero
    rw [← hZero] at this
    linarith
  rw [hMax]
  simp only [mean, map_append, map_cons, map_nil, sum_append, sum_cons, sum_nil,
    length_append, length_cons, length_nil]
  push_cast
  field_simp
  ring

/-! ## What one aggregator computes -/

section Results

variable {enums : EnumManager} {placeholder : Value Rat} {type : SqlType} {entry : AggregateEntry Rat}
  {first : Option (Value Rat)} {rest : List (Option (Value Rat))}

theorem holds_sum (hNumeric : type ∈ [.int, .smallInt, .bigInt, .real]) (hFlag : entry.value.nullable = true)
    (hFits : ∀ v ∈ first :: rest, ∀ value ∈ v, Value.Fits type value) :
    Holds (fun values v => v = machineSum type values) (first :: rest).reduceOption
      (rest.foldl (AggregateType.sum.update exactFloat64 enums placeholder)
        (AggregateType.sum.initialise exactFloat64 placeholder entry first)) := by
  have hOne : ∀ value : Value Rat, value.Fits type → value = machineSum type [value] := by
    intro value hValue
    have hSingle := exactSum_singleton hNumeric hValue.1
    rw [machineSum_eq (hSingle.symm ▸ hValue), hSingle]
  refine fold_good .sum _ hFits ?_ ?_
  · intro hFirst
    exact Holds.initialise hFlag fun value hMem => hOne value (hFirst value hMem)
  · intro seen current next hNext h
    refine h.updateWith (fun value hMem => hOne value (hNext value hMem)) ?_
    rintro value hMem old - rfl
    exact Holds.store h.flag (append_ne_nil_of_right_ne_nil _ (cons_ne_nil _ _))
      (machineSum_append hNumeric seen (hNext value hMem).1).symm

theorem MinMaxAggregator.update_good (placeholder : Value Rat) {min : Bool} {seen : List (Value Rat)}
    {current : AggregateEntry Rat} {next : Option (Value Rat)} (hNext : ∀ value ∈ next, Value.type value = type)
    (hSeen : ∀ v ∈ seen, Value.type v = type) (h : Holds (IsExtreme enums min) seen current) :
    Holds (IsExtreme enums min) (seen ++ next.toList)
      (MinMaxAggregator.update exactFloat64 enums placeholder min current next) := by
  have hIrrefl := (weakOrderOn_goesBefore enums min type).irrefl
  refine h.updateWith (fun value hMem => ?_) fun value hMem old hOld hExtreme => ?_
  · refine ⟨mem_cons_self, fun x hX => ?_⟩
    obtain rfl := mem_singleton.mp hX
    exact hIrrefl x (hNext x hMem)
  · have hNotEmpty : seen ++ [value] ≠ [] := append_ne_nil_of_right_ne_nil _ (cons_ne_nil _ _)
    change Holds _ _ (if goesBefore enums min value old = true then storeNext placeholder current (some value)
      else current)
    split
    case isTrue hLess => exact Holds.store h.flag hNotEmpty (hExtreme.replace hSeen (hNext value hMem) hLess)
    case isFalse hLess =>
      exact ⟨h.flag, fun hEmpty => absurd hEmpty hNotEmpty,
        fun _ => ⟨old, hOld, hExtreme.keep (Bool.eq_false_iff.mpr hLess)⟩⟩

theorem holds_minMax {aggType : AggregateType} {min : Bool}
    (hKind : aggType = .min ∧ min = true ∨ aggType = .max ∧ min = false) (hFlag : entry.value.nullable = true)
    (hTypes : ∀ v ∈ first :: rest, ∀ value ∈ v, Value.type value = type) :
    Holds (IsExtreme enums min) (first :: rest).reduceOption
      (rest.foldl (aggType.update exactFloat64 enums placeholder)
        (aggType.initialise exactFloat64 placeholder entry first)) := by
  have hIrrefl := (weakOrderOn_goesBefore enums min type).irrefl
  refine (fold_good aggType (fun seen current =>
    (∀ v ∈ seen, Value.type v = type) ∧ Holds (IsExtreme enums min) seen current) hTypes ?_ ?_).2
  · intro hFirst
    refine ⟨fun v hMem => hFirst v (Option.mem_toList.mp hMem), ?_⟩
    have hStore : Holds (IsExtreme enums min) first.toList (storeNext placeholder entry first) := by
      refine Holds.initialise hFlag fun value hMem => ⟨mem_cons_self, fun x hX => ?_⟩
      obtain rfl := mem_singleton.mp hX
      exact hIrrefl x (hFirst x hMem)
    rcases hKind with ⟨rfl, rfl⟩ | ⟨rfl, rfl⟩ <;> exact hStore
  · rintro seen current next hNext ⟨hSeen, h⟩
    have hStep := MinMaxAggregator.update_good placeholder hNext hSeen h
    refine ⟨fun v hMem => ?_, ?_⟩
    · rcases mem_append.mp hMem with hOld | hNew
      · exact hSeen v hOld
      · exact hNext v (Option.mem_toList.mp hNew)
    · rcases hKind with ⟨rfl, rfl⟩ | ⟨rfl, rfl⟩ <;> exact hStep

theorem mean_singleton (value : Value Rat) : mean [value] = toFloat exactFloat64 value := by
  simp [mean]

theorem HoldsMean.initialise (hFlag : entry.value.nullable = true) (hCount : entry.count.nullable = false) :
    HoldsMean first.toList (AverageAggregator.initialise exactFloat64 placeholder entry first) where
  holds := by
    cases first with
    | none =>
      exact ⟨(StructField.update_nullable _ _ _).trans hFlag, fun _ => StructField.get_update_none _ hFlag,
        fun h => absurd rfl h⟩
    | some value =>
      refine ⟨(StructField.update_nullable _ _ _).trans hFlag, fun h => absurd h (cons_ne_nil _ _), fun _ => ?_⟩
      exact ⟨_, StructField.get_update_some _ _ _, congrArg Value.real (mean_singleton value).symm⟩
  flag := (StructField.update_nullable _ _ _).trans hCount
  count := by
    cases first <;> simp [AverageAggregator.initialise, StructField.update, hCount, exactFloat64]

theorem HoldsMean.update {seen : List (Value Rat)} {current : AggregateEntry Rat} (h : HoldsMean seen current)
    (next : Option (Value Rat)) :
    HoldsMean (seen ++ next.toList) (AverageAggregator.update exactFloat64 placeholder current next) := by
  cases next with
  | none =>
    rw [Option.toList_none, append_nil]
    exact h
  | some value =>
    have hNotEmpty : seen ++ [value] ≠ [] := append_ne_nil_of_right_ne_nil _ (cons_ne_nil _ _)
    rw [AverageAggregator.update, Option.map_some, Option.toList_some]
    by_cases hSeen : seen = []
    · subst hSeen
      rw [updateWith_first _ _ _ (h.holds.null rfl)]
      exact ⟨Holds.store h.holds.flag hNotEmpty (congrArg Value.real (mean_singleton value).symm), h.flag, h.count⟩
    · obtain ⟨_, hCurrent, rfl⟩ := h.holds.value hSeen
      rw [updateWith_later _ _ _ hCurrent]
      have hNextMean := mean_append hSeen value
      have hLength : max 1 (seen ++ [value]).length = max 1 seen.length + 1 := by
        have := length_pos_of_ne_nil hSeen
        rw [length_append, length_singleton]
        omega
      refine ⟨⟨(StructField.update_nullable _ _ _).trans h.holds.flag, fun hEmpty => absurd hEmpty hNotEmpty, fun _ => ?_⟩,
        (StructField.update_nullable _ _ _).trans h.flag, ?_⟩
      · refine ⟨_, StructField.get_update_some _ _ _, congrArg Value.real ?_⟩
        rw [h.count]
        exact hNextMean
      · rw [hLength]
        simp [StructField.update, h.flag, h.count, toFloat, exactFloat64]

theorem holdsMean_fold (hEntry : entry.For .avg) :
    HoldsMean (first :: rest).reduceOption
      (rest.foldl (AggregateType.avg.update exactFloat64 enums placeholder)
        (AggregateType.avg.initialise exactFloat64 placeholder entry first)) :=
  fold_good .avg HoldsMean (fun _ _ _ _ => trivial) (fun _ => HoldsMean.initialise hEntry.value hEntry.count)
    fun _ _ next _ h => h.update next

end Results

/-! ## The SQL aggregates -/

/-- The aggregate of the values that are not NULL. -/
def IsAggregate (enums : EnumManager) (type : SqlType) (values : List (Value Rat)) (v : Value Rat) :
    AggregateType → Prop
  | .sum => v = exactSum type values
  | .avg => v = .real (mean values)
  | .min => v ∈ values ∧ ∀ x ∈ values, lessThanValue exactFloat64 enums x v = false
  | .max => v ∈ values ∧ ∀ x ∈ values, lessThanValue exactFloat64 enums v x = false
  | .count => v = .bigInt values.length

/-- NULL exactly if all values are NULL, and the aggregate of the others otherwise. -/
structure ComputesAggregate (enums : EnumManager) (aggType : AggregateType) (type : SqlType)
    (values : List (Option (Value Rat))) (result : Option (Value Rat)) : Prop where
  null : result = none ↔ ∀ v ∈ values, v = none
  value : ∀ v, result = some v → IsAggregate enums type values.reduceOption v aggType

theorem reduceOption_eq_nil : values.reduceOption = [] ↔ ∀ v ∈ values, v = none := by
  rw [List.reduceOption, filterMap_eq_nil_iff]
  rfl

theorem Holds.computes {aggType : AggregateType} {Spec : List (Value Rat) → Value Rat → Prop}
    {entry : AggregateEntry Rat} (h : Holds Spec values.reduceOption entry)
    (hSpec : ∀ v, Spec values.reduceOption v → IsAggregate enums type values.reduceOption v aggType) :
    ComputesAggregate enums aggType type values entry.value.get where
  null := by
    rw [← reduceOption_eq_nil]
    constructor
    · intro hNone
      by_contra hSome
      obtain ⟨v, hGet, -⟩ := h.value hSome
      rw [hNone] at hGet
      exact absurd hGet (by simp)
    · exact h.null
  value v hGet := by
    by_cases hSome : values.reduceOption = []
    · rw [h.null hSome] at hGet
      exact absurd hGet (by simp)
    · obtain ⟨w, hW, hHolds⟩ := h.value hSome
      obtain rfl := Option.some.inj (hW.symm.trans hGet)
      exact hSpec w hHolds

theorem ComputesAggregate.perm {aggType : AggregateType} {other : List (Option (Value Rat))}
    {result : Option (Value Rat)} (hPerm : values.Perm other) (h : ComputesAggregate enums aggType type values result) :
    ComputesAggregate enums aggType type other result where
  null := by
    rw [h.null]
    exact forall_congr' fun v => by rw [hPerm.mem_iff]
  value v hResult := by
    have hReduced : values.reduceOption.Perm other.reduceOption := hPerm.filterMap id
    have hSpec := h.value v hResult
    cases aggType with
    | sum => exact hSpec.trans (exactSum_perm type hReduced)
    | avg =>
      refine hSpec.trans (congrArg Value.real ?_)
      rw [mean, mean, (hReduced.map _).sum_eq, hReduced.length_eq]
    | min => exact ⟨hReduced.mem_iff.mp hSpec.1, fun x hMem => hSpec.2 x (hReduced.mem_iff.mpr hMem)⟩
    | max => exact ⟨hReduced.mem_iff.mp hSpec.1, fun x hMem => hSpec.2 x (hReduced.mem_iff.mpr hMem)⟩
    | count => exact hSpec.trans (by rw [hReduced.length_eq])

/-- SUM, MIN, MAX and AVG over a non-empty input in any order are the SQL aggregates. -/
theorem aggregators_compute (enums : EnumManager) (placeholder : Value Rat) (aggType : AggregateType)
    (type : SqlType) (values : List (Option (Value Rat))) (entry : AggregateEntry Rat) (hCount : aggType ≠ .count)
    (hAccepted : (calculateAggTypeId aggType type).isOk = true) (hEntry : entry.For aggType)
    (hFits : ∀ v ∈ values, ∀ value ∈ v, Value.Fits type value)
    (hSum : aggType = .sum → (exactSum type values.reduceOption).Fits type) :
    ∀ first rest, (first :: rest).Perm values →
      ComputesAggregate enums aggType type values (aggType.fold exactFloat64 enums placeholder entry first rest) := by
  intro first rest hPerm
  have hFirst : ∀ v ∈ first :: rest, ∀ value ∈ v, Value.Fits type value :=
    fun v hMem => hFits v (hPerm.mem_iff.mp hMem)
  have hTypes : ∀ v ∈ first :: rest, ∀ value ∈ v, Value.type value = type :=
    fun v hMem value hValue => (hFirst v hMem value hValue).1
  refine ComputesAggregate.perm hPerm ?_
  have hFlag : entry.value.nullable = true := by
    rw [hEntry.value, AggregateType.nullable]
    simpa using hCount
  cases aggType with
  | count => exact absurd rfl hCount
  | sum =>
    have hNumeric : type ∈ [.int, .smallInt, .bigInt, .real] := by
      by_contra hNot
      rw [calculateAggTypeId, if_neg hNot] at hAccepted
      exact absurd hAccepted (by simp [Except.isOk, Except.toBool])
    have hTotal : (exactSum type (first :: rest).reduceOption).Fits type := by
      have hReduced : (first :: rest).reduceOption.Perm values.reduceOption := hPerm.filterMap id
      rw [exactSum_perm type hReduced]
      exact hSum rfl
    exact (holds_sum hNumeric hFlag hFirst).computes fun v hV => hV.trans (machineSum_eq hTotal)
  | min => exact (holds_minMax (Or.inl ⟨rfl, rfl⟩) hFlag hTypes).computes fun v hV => hV
  | max => exact (holds_minMax (Or.inr ⟨rfl, rfl⟩) hFlag hTypes).computes fun v hV => hV
  | avg => exact (holdsMean_fold hEntry).holds.computes fun v hV => hV

/-- The mean of 4 and 7 with NULLs before and between them. -/
theorem aggregators_compute_mean : ∃ values : List (Option (Value Rat)),
    values = [none, some (.int 4), none, some (.int 7)] ∧
      ComputesAggregate ⟨fun _ => []⟩ .avg .int values
        (AggregateType.avg.fold exactFloat64 ⟨fun _ => []⟩ (.int 0) ⟨⟨true, .int 0, false⟩, ⟨false, .int 0, false⟩⟩ none
          [some (.int 4), none, some (.int 7)]) := by
  refine ⟨_, rfl, aggregators_compute ⟨fun _ => []⟩ (.int 0) .avg .int _ _ (by decide) rfl ⟨rfl, rfl⟩ ?_ (by simp) _ _
    (List.Perm.refl _)⟩
  simp [Value.Fits, Value.type]

end KushDB.Plan
