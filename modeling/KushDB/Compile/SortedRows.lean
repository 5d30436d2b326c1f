import KushDB.Compile.OrderBy

/-! # Which rows ORDER BY sorts

Up to 2^30 rows the buffer is sorted as long as no value of a key is a NaN. With more rows the buffer cannot be grown.
The comparison is a strict weak order on all rows of the child unless a key is a double, since two doubles in order are
both neither less nor greater than a NaN.
-/

namespace KushDB.Compile

open Plan KushDB.Runtime List

variable {F : Type} {f64 : Float64 F} {enums : EnumManager} {orderBy : OrderBy}

def keyType (orderBy : OrderBy) (key : SortKey) : Option SqlType := (orderBy.columns[key.column]?).map Prod.fst

theorem keysOrdered_of_ne_real (hTypes : ∀ key ∈ orderBy.keys, keyType orderBy key ≠ some .real) {row : Row F}
    (hRow : HasTypes orderBy.columns row) : KeysOrdered f64 orderBy.keys row := by
  intro key hKey value hValue
  have hColumn := getElem?_eq_getElem (orderBy.column_lt key hKey)
  have hType := hRow.field hColumn value hValue
  have hNe := hTypes key hKey
  rw [keyType, hColumn, Option.map_some, ← hType] at hNe
  cases value with
  | real x => exact absurd rfl hNe
  | _ => trivial

/-! ## A key that is a double -/

/-- A value of each type; of the doubles, the given one. -/
def sampleValue (x : F) : SqlType → Value F
  | .smallInt => .smallInt 0
  | .int => .int 0
  | .bigInt => .bigInt 0
  | .real => .real x
  | .date => .date 0
  | .text => .text []
  | .boolean => .boolean false
  | .enum enumId => .enum enumId 0

def sampleRow (columns : List (SqlType × Bool)) (x : F) : Row F := columns.map fun column => some (sampleValue x column.1)

theorem hasTypes_sampleRow (columns : List (SqlType × Bool)) (x : F) : HasTypes columns (sampleRow columns x) := by
  rw [HasTypes, sampleRow, List.forall₂_map_right_iff, List.forall₂_same]
  rintro ⟨type, nullable⟩ -
  refine ⟨fun value hValue => ?_, fun _ => Option.some_ne_none _⟩
  obtain rfl := Option.some.inj hValue
  cases type <;> rfl

variable {columns : List (SqlType × Bool)}

/-- Two such rows differ in the columns of doubles only. -/
theorem lessThan_sampleRow {index : Nat} (hIndex : index < columns.length) (x y : F) :
    lessThan f64 enums (field (sampleRow columns x) index) (field (sampleRow columns y) index) =
      decide (columns[index].1 = .real ∧ f64.compare x y = some .lt) := by
  have hField : ∀ z : F, field (sampleRow columns z) index = some (sampleValue z columns[index].1) := by
    intro z
    rw [field, sampleRow, getD_eq_getElem?_getD, getElem?_map, getElem?_eq_getElem hIndex]
    rfl
  rw [hField, hField]
  cases columns[index].1 <;> simp [sampleValue, lessThan, lessOrMissing, lessThanValue]

theorem compareKeys_sampleRow_eq_false {keys : List SortKey} (hKeys : ∀ key ∈ keys, key.column < columns.length)
    {x y : F} (hLess : f64.compare x y ≠ some .lt) (hGreater : f64.compare y x ≠ some .lt) :
    compareKeys f64 enums keys (sampleRow columns x) (sampleRow columns y) = false := by
  induction keys with
  | nil => rfl
  | cons key keys ih =>
    rw [forall_mem_cons] at hKeys
    rw [compareKeys, lessThan_sampleRow hKeys.1, lessThan_sampleRow hKeys.1, ih hKeys.2]
    simp [hLess, hGreater]

/-- With a key that is a double, the comparison decides between two doubles in order, one way or the other. -/
theorem compareKeys_sampleRow_of_lt (hOrdered : f64.Ordered) {columns : List (SqlType × Bool)} {keys : List SortKey}
    (hKeys : ∀ key ∈ keys, key.column < columns.length)
    (hReal : ∃ key ∈ keys, (columns[key.column]?).map Prod.fst = some .real) {x y : F}
    (hLess : f64.compare x y = some .lt) :
    compareKeys f64 enums keys (sampleRow columns x) (sampleRow columns y) = true ∨
      compareKeys f64 enums keys (sampleRow columns y) (sampleRow columns x) = true := by
  have hNot : f64.compare y x ≠ some .lt := fun hBack => hOrdered.irrefl x (hOrdered.trans x y x hLess hBack)
  induction keys with
  | nil =>
    obtain ⟨key, hKey, -⟩ := hReal
    exact absurd hKey not_mem_nil
  | cons key keys ih =>
    rw [forall_mem_cons] at hKeys
    rw [compareKeys, compareKeys, lessThan_sampleRow hKeys.1, lessThan_sampleRow hKeys.1]
    by_cases hType : columns[key.column].1 = .real
    · cases hAscending : key.ascending <;> simp [hType, hLess, hNot]
    · obtain ⟨other, hOther, hOtherType⟩ := hReal
      rcases mem_cons.mp hOther with rfl | hLater
      · rw [getElem?_eq_getElem hKeys.1, Option.map_some, Option.some.injEq] at hOtherType
        exact absurd hOtherType hType
      · simpa [hType] using ih hKeys.2 ⟨other, hLater, hOtherType⟩

theorem ne_real_of_weakOrderOn (hIeee : f64.Ieee)
    (h : WeakOrderOn (HasTypes orderBy.columns) (compareKeys f64 enums orderBy.keys)) {key : SortKey}
    (hKey : key ∈ orderBy.keys) : keyType orderBy key ≠ some .real := by
  intro hType
  obtain ⟨nan, hNan⟩ := hIeee.nan
  obtain ⟨x, y, hLess⟩ := hIeee.lt
  -- one of the two rows is less than the other, but neither is less or greater than the row of the NaN
  have hNone : ∀ z, compareKeys f64 enums orderBy.keys (sampleRow orderBy.columns z) (sampleRow orderBy.columns nan) =
      false := fun z => compareKeys_sampleRow_eq_false orderBy.column_lt (hNan z).2 (hNan z).1
  have hNone' : ∀ z, compareKeys f64 enums orderBy.keys (sampleRow orderBy.columns nan) (sampleRow orderBy.columns z) =
      false := fun z => compareKeys_sampleRow_eq_false orderBy.column_lt (hNan z).1 (hNan z).2
  have hTypes : ∀ z : F, HasTypes orderBy.columns (sampleRow orderBy.columns z) := hasTypes_sampleRow orderBy.columns
  have hBetween : ∀ {first second : F}, compareKeys f64 enums orderBy.keys (sampleRow orderBy.columns first)
      (sampleRow orderBy.columns second) = true → False := by
    intro first second hCompare
    rcases h.between _ _ _ (hTypes first) (hTypes nan) (hTypes second) hCompare with hLeft | hRight
    · exact absurd hLeft (by rw [hNone]; exact Bool.false_ne_true)
    · exact absurd hRight (by rw [hNone']; exact Bool.false_ne_true)
  rcases @compareKeys_sampleRow_of_lt F f64 enums hIeee.toOrdered orderBy.columns orderBy.keys orderBy.column_lt
    ⟨key, hKey, hType⟩ x y hLess with hForth | hBack
  · exact hBetween hForth
  · exact hBetween hBack

/-! ## Which rows are sorted -/

/-- Doubles that are not NaN are sorted as well: the buffer is sorted whenever the rows fit into it and no value of a key
is a NaN. -/
theorem sorted_of_keysOrdered (hOrdered : f64.Ordered) (old : Value F) {rows : List (Row F)}
    (hRows : ∀ row ∈ rows, HasTypes orderBy.columns row) (hKeys : ∀ row ∈ rows, KeysOrdered f64 orderBy.keys row)
    (hLength : rows.length ≤ 2 ^ 30) :
    ∃ result, produce f64 enums orderBy old rows = some result ∧ result.Perm rows ∧
      result.Pairwise (InOrder f64 enums orderBy.keys) := by
  obtain ⟨result, hResult, hSorts⟩ := @produce_of_le F f64 enums orderBy old rows hRows hLength
  refine ⟨result, hResult, hSorts.perm, ?_⟩
  have hPairwise := hSorts.pairwise _ (weakOrderOn_compareKeys hOrdered orderBy.column_lt)
    fun row hRow => ⟨hRows row hRow, hKeys row hRow⟩
  exact hPairwise.imp fun hPair => (inOrder_iff hOrdered _ _ _).mpr hPair

theorem sorts_iff (hIeee : f64.Ieee) (old : Value F) {rows : List (Row F)}
    (hRows : ∀ row ∈ rows, HasTypes orderBy.columns row) :
    Sorts f64 enums orderBy old rows ↔
      rows.length ≤ 2 ^ 30 ∧ ∀ key ∈ orderBy.keys, keyType orderBy key ≠ some .real := by
  constructor
  · intro h
    refine ⟨?_, fun key hKey => ne_real_of_weakOrderOn hIeee h.weakOrder hKey⟩
    obtain ⟨result, hResult, -⟩ := h.sorted
    by_contra hLength
    rw [produce_of_gt old hRows (by omega)] at hResult
    cases hResult
  · rintro ⟨hLength, hTypes⟩
    refine ⟨sorted_of_keysOrdered hIeee.toOrdered old hRows
      (fun row hRow => keysOrdered_of_ne_real hTypes (hRows row hRow)) hLength, ?_⟩
    exact (weakOrderOn_compareKeys hIeee.toOrdered orderBy.column_lt).congr
      (fun row hRow => ⟨hRow, keysOrdered_of_ne_real hTypes hRow⟩) fun _ _ _ _ => rfl

/-- The rational numbers and a NaN. -/
def nanFloat64 : Float64 (Option Rat) where
  zero := some 0
  add x y := x.bind fun x => y.map (x + ·)
  sub x y := x.bind fun x => y.map (x - ·)
  mul x y := x.bind fun x => y.map (x * ·)
  div x y := x.bind fun x => y.map (x / ·)
  compare x y := x.bind fun x => y.map (compare x ·)
  ofInt value := some value

theorem compare_nanFloat64 {x y : Option Rat} :
    nanFloat64.compare x y = some .lt ↔ ∃ a b : Rat, x = some a ∧ y = some b ∧ a < b := by
  cases x <;> cases y <;> simp [nanFloat64, compare_lt_iff_lt]

theorem nanFloat64_ieee : nanFloat64.Ieee where
  irrefl x hLess := by
    obtain ⟨a, b, rfl, hEq, hLt⟩ := compare_nanFloat64.mp hLess
    exact absurd hLt (Option.some.inj hEq ▸ lt_irrefl a)
  trans x y z hXY hYZ := by
    obtain ⟨a, b, rfl, rfl, hLt⟩ := compare_nanFloat64.mp hXY
    obtain ⟨b', c, hEq, rfl, hLt'⟩ := compare_nanFloat64.mp hYZ
    exact compare_nanFloat64.mpr ⟨a, c, rfl, rfl, hLt.trans (Option.some.inj hEq ▸ hLt')⟩
  between x y z hY hXZ := by
    obtain ⟨a, c, rfl, rfl, hLt⟩ := compare_nanFloat64.mp hXZ
    cases y with
    | none => exact absurd rfl hY
    | some b =>
      rcases lt_or_ge a b with hLeft | hGe
      · exact .inl (compare_nanFloat64.mpr ⟨a, b, rfl, rfl, hLeft⟩)
      · exact .inr (compare_nanFloat64.mpr ⟨b, c, rfl, rfl, hGe.trans_lt hLt⟩)
  nan := ⟨none, fun y => ⟨by simp [nanFloat64], by cases y <;> simp [nanFloat64]⟩⟩
  lt := ⟨some 0, some 1, compare_nanFloat64.mpr ⟨0, 1, rfl, rfl, by decide⟩⟩

/-- One nullable integer, sorted in descending order. -/
def byInt : OrderBy where
  columns := [(.int, true)]
  keys := [⟨0, false⟩]
  elementSize := 8
  elementSize_pos _ := by decide
  keys_ne_nil := by decide
  column_lt := by decide
  orderable_key := by decide

/-- One double. -/
def byReal : OrderBy where
  columns := [(.real, false)]
  keys := [⟨0, true⟩]
  elementSize := 8
  elementSize_pos _ := by decide
  keys_ne_nil := by decide
  column_lt := by decide
  orderable_key := by decide

theorem hasTypes_byInt (value : Option Int) :
    HasTypes byInt.columns ([value.map Value.int] : Row (Option Rat)) := by
  refine .cons ⟨fun v hValue => ?_, fun h => absurd h (by decide)⟩ .nil
  obtain ⟨x, -, rfl⟩ := Option.map_eq_some_iff.mp hValue
  rfl

theorem sorts_byInt :
    Sorts nanFloat64 ⟨fun _ => []⟩ byInt (.int 0) [[some (.int 1)], [none], [some (.int 2)]] := by
  refine (sorts_iff nanFloat64_ieee (.int 0) ?_).mpr ⟨by decide, by decide⟩
  intro row hRow
  simp only [mem_cons, not_mem_nil, or_false] at hRow
  rcases hRow with rfl | rfl | rfl
  · exact hasTypes_byInt (some 1)
  · exact hasTypes_byInt none
  · exact hasTypes_byInt (some 2)

theorem not_sorts :
    ¬ Sorts nanFloat64 ⟨fun _ => []⟩ byInt (.int 0) (List.replicate (2 ^ 30 + 1) [some (.int 1)]) ∧
      ¬ Sorts nanFloat64 ⟨fun _ => []⟩ byReal (.int 0) [] := by
  constructor
  · intro h
    obtain ⟨result, hResult, -⟩ := h.sorted
    rw [produce_of_gt] at hResult
    · cases hResult
    · intro row hRow
      rw [eq_of_mem_replicate hRow]
      exact hasTypes_byInt (some 1)
    · rw [length_replicate]
      omega
  · intro h
    exact ne_real_of_weakOrderOn nanFloat64_ieee h.weakOrder mem_cons_self rfl

end KushDB.Compile
