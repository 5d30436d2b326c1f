import KushDB.Compile.LessThan
import KushDB.Compile.Struct
import KushDB.Runtime.MergeSort

/-! # ORDER BY

The rows are packed into a vector of structs, which is sorted with a comparison of the keys in turn. For each key the
generated code compares the fields both ways and returns as soon as one of them is less.
-/

namespace KushDB.Compile

open Plan KushDB.Runtime List

structure SortKey where
  column : Nat
  ascending : Bool
deriving DecidableEq, Repr

/-- The columns with their types and whether they are nullable, and the keys among them. A struct of at least one
field takes space. -/
structure OrderBy where
  columns : List (SqlType × Bool)
  keys : List SortKey
  elementSize : Nat
  elementSize_pos : columns ≠ [] → 0 < elementSize
  keys_ne_nil : keys ≠ []
  column_lt : ∀ key ∈ keys, key.column < columns.length
  orderable_key : ∀ key ∈ keys, ∀ column ∈ columns[key.column]?, orderable column.1 = .ok ()

variable {F : Type}

/-- The values have the types of the columns, and those of columns that are not nullable are not NULL. -/
def HasTypes (columns : List (SqlType × Bool)) (row : Row F) : Prop :=
  List.Forall₂ (fun column v => (∀ value ∈ v, value.type = column.1) ∧ (column.2 = false → v ≠ none)) columns row

def field (row : Row F) (column : Nat) : Option (Value F) := row.getD column none

section

variable (f64 : Float64 F) (enums : EnumManager)

def compareKeys : List SortKey → Row F → Row F → Bool
  | [], _, _ => false
  | key :: keys, row1, row2 =>
    if lessThan f64 enums (field row1 key.column) (field row2 key.column) then key.ascending
    else if lessThan f64 enums (field row2 key.column) (field row1 key.column) then !key.ascending
    else compareKeys keys row1 row2

/-- The comparison function that is generated for the structs of the buffer. -/
def comparison (orderBy : OrderBy) (s1 s2 : List (StructField (Value F))) : Bool :=
  compareKeys f64 enums orderBy.keys (Struct.unpack s1) (Struct.unpack s2)

/-- The fields of a struct in new memory, which holds whatever was there before. -/
def newFields (orderBy : OrderBy) (old : Value F) : List (StructField (Value F)) :=
  orderBy.columns.map fun column => { nullable := column.2, value := old }

def consume (orderBy : OrderBy) (old : Value F) (buffer : Vector (List (StructField (Value F)))) (row : Row F) :
    Option (Vector (List (StructField (Value F)))) :=
  (Struct.pack old (newFields orderBy old) row).toOption.bind buffer.pushBack

/-- The rows of the buffer after the sort. -/
def produce (orderBy : OrderBy) (old : Value F) (rows : List (Row F)) : Option (List (Row F)) := do
  let buffer ← rows.foldlM (consume orderBy old) (Vector.create orderBy.elementSize 2)
  let buffer := buffer.sort (comparison f64 enums orderBy)
  some (buffer.elements.map Struct.unpack)

/-- The order of a key, in its direction. -/
def before (ascending : Bool) (x y : Option (Value F)) : Bool :=
  if ascending then lessThan f64 enums x y else lessThan f64 enums y x

/-- Two rows in the lexicographic order of the keys. -/
def InOrder : List SortKey → Row F → Row F → Prop
  | [], _, _ => True
  | key :: keys, row1, row2 =>
    before f64 enums key.ascending (field row1 key.column) (field row2 key.column) = true ∨
      before f64 enums key.ascending (field row2 key.column) (field row1 key.column) = false ∧
        InOrder keys row1 row2

/-- The buffer is sorted, and the comparison is a strict weak order on the rows of the child. -/
structure Sorts (orderBy : OrderBy) (old : Value F) (rows : List (Row F)) : Prop where
  sorted : ∃ result, produce f64 enums orderBy old rows = some result ∧ result.Perm rows ∧
    result.Pairwise (InOrder f64 enums orderBy.keys)
  weakOrder : WeakOrderOn (HasTypes orderBy.columns) (compareKeys f64 enums orderBy.keys)

end

variable {f64 : Float64 F} {enums : EnumManager}

/-! ## The comparison -/

theorem lessThanValue_asymm (hOrdered : f64.Ordered) {x y : Value F} (h : lessThanValue f64 enums x y = true) :
    lessThanValue f64 enums y x = false := by
  rw [← Bool.not_eq_true]
  intro hBack
  cases x <;> cases y <;> simp only [lessThanValue, decide_eq_true_eq, Bool.false_eq_true] at h hBack
  case real.real x y => exact hOrdered.irrefl x (hOrdered.trans x y x h hBack)
  case text.text => exact lt_asymm h hBack
  case enum.enum => exact lt_asymm h hBack
  all_goals omega

theorem lessThan_asymm (hOrdered : f64.Ordered) {x y : Option (Value F)} (h : lessThan f64 enums x y = true) :
    lessThan f64 enums y x = false := by
  cases x with
  | none => exact absurd h (by simp [lessThan, lessOrMissing])
  | some x =>
    cases y with
    | none => rfl
    | some y => exact lessThanValue_asymm hOrdered h

/-- A key of the comparison decides in its direction, and the other keys where it does not. -/
theorem compareKeys_cons (hOrdered : f64.Ordered) (key : SortKey) (keys : List SortKey) :
    compareKeys f64 enums (key :: keys) =
      lessThen (fun row1 row2 => before f64 enums key.ascending (field row1 key.column) (field row2 key.column))
        (compareKeys f64 enums keys) := by
  funext row1 row2
  have hAsymm := @lessThan_asymm F f64 enums hOrdered (field row1 key.column) (field row2 key.column)
  rw [compareKeys, lessThen]
  cases key.ascending <;> simp only [before, Bool.false_eq_true, if_false, if_true, Bool.not_false, Bool.not_true]
  split
  case isTrue h => rw [if_neg (Bool.eq_false_iff.mp (hAsymm h))]
  case isFalse h => rfl

/-- The comparison of two rows in the other order says whether they are in order. -/
theorem inOrder_iff (hOrdered : f64.Ordered) (keys : List SortKey) (row1 row2 : Row F) :
    InOrder f64 enums keys row1 row2 ↔ compareKeys f64 enums keys row2 row1 = false := by
  induction keys with
  | nil => simp [InOrder, compareKeys]
  | cons key keys ih =>
    have hAsymm : before f64 enums key.ascending (field row1 key.column) (field row2 key.column) = true →
        before f64 enums key.ascending (field row2 key.column) (field row1 key.column) = false := by
      unfold before
      cases key.ascending <;> exact lessThan_asymm hOrdered
    rw [InOrder, compareKeys_cons hOrdered, lessThen, ih]
    grind

/-! ## The comparison as an order -/

/-- No value of a key is a NaN. -/
def KeysOrdered (f64 : Float64 F) (keys : List SortKey) (row : Row F) : Prop :=
  ∀ key ∈ keys, ∀ value ∈ field row key.column, value.IsOrdered f64

theorem HasTypes.field {columns : List (SqlType × Bool)} {row : Row F} (h : HasTypes columns row) {index : Nat}
    {column : SqlType × Bool} (hColumn : columns[index]? = some column) :
    ∀ value ∈ field row index, value.type = column.1 := by
  obtain ⟨hIndex, rfl⟩ := List.getElem?_eq_some_iff.mp hColumn
  have hLength := h.length_eq
  have hValue := (List.forall₂_iff_get.mp h).2 index hIndex (by omega)
  intro value hMem
  rw [Compile.field, getD_eq_getElem?_getD, getElem?_eq_getElem (by omega)] at hMem
  exact hValue.1 value hMem

theorem weakOrderOn_before (hOrdered : f64.Ordered) (ascending : Bool) (type : SqlType) :
    WeakOrderOn (fun v : Option (Value F) => ∀ value ∈ v, value.type = type ∧ value.IsOrdered f64)
      (before f64 enums ascending) := by
  unfold before
  cases ascending with
  | true => exact weakOrderOn_lessThan hOrdered type
  | false => exact (weakOrderOn_lessThan hOrdered type).flip

theorem weakOrderOn_compareKeys (hOrdered : f64.Ordered) {columns : List (SqlType × Bool)} {keys : List SortKey}
    (hKeys : ∀ key ∈ keys, key.column < columns.length) :
    WeakOrderOn (fun row : Row F => HasTypes columns row ∧ KeysOrdered f64 keys row) (compareKeys f64 enums keys) := by
  induction keys with
  | nil => exact WeakOrderOn.of_false
  | cons key keys ih =>
    rw [forall_mem_cons] at hKeys
    rw [compareKeys_cons hOrdered]
    have hColumn := getElem?_eq_getElem hKeys.1
    have hFirst := (@weakOrderOn_before F f64 enums hOrdered key.ascending columns[key.column].1).comap
      fun row : Row F => field row key.column
    apply WeakOrderOn.lessThen
    · refine hFirst.congr (fun row hRow value hValue => ⟨hRow.1.field hColumn value hValue, ?_⟩) fun _ _ _ _ => rfl
      exact hRow.2 key mem_cons_self value hValue
    · refine (ih hKeys.2).congr (fun row hRow => ⟨hRow.1, ?_⟩) fun _ _ _ _ => rfl
      exact fun other hOther => hRow.2 other (mem_cons_of_mem _ hOther)

/-! ## The buffer -/

variable {orderBy : OrderBy}

/-- A row in the buffer. -/
def packRow (orderBy : OrderBy) (old : Value F) (row : Row F) : List (StructField (Value F)) :=
  List.zipWith (StructField.update old) (newFields orderBy old) row

variable {row : Row F} {rows : List (Row F)}

theorem unpack_packRow (old : Value F) (h : HasTypes orderBy.columns row) :
    Struct.unpack (packRow orderBy old row) = row := by
  apply Struct.map_get_zipWith_update
  rw [newFields, List.forall₂_map_left_iff]
  exact h.imp fun _ _ hColumn => hColumn.2

theorem consume_eq (old : Value F) (h : HasTypes orderBy.columns row) (buffer : Vector (List (StructField (Value F)))) :
    consume orderBy old buffer row = buffer.pushBack (packRow orderBy old row) := by
  have hLength : row.length = (newFields orderBy old).length := by
    rw [newFields, length_map]
    exact h.length_eq.symm
  rw [consume, Struct.pack, if_neg (not_not.mpr hLength)]
  rfl

theorem foldlM_consume (old : Value F) (h : ∀ row ∈ rows, HasTypes orderBy.columns row)
    (buffer : Vector (List (StructField (Value F)))) :
    rows.foldlM (consume orderBy old) buffer = buffer.pushAll (rows.map (packRow orderBy old)) := by
  induction rows generalizing buffer with
  | nil => rfl
  | cons row rows ih =>
    rw [forall_mem_cons] at h
    rw [foldlM_cons, map_cons, Vector.pushAll_cons, consume_eq old h.1]
    exact congrArg _ (funext fun next => ih h.2 next)

theorem holds_empty (orderBy : OrderBy) :
    (Vector.create orderBy.elementSize 2 : Vector (List (StructField (Value F)))).Holds [] :=
  Vector.holds_create _ ⟨1, by decide, rfl⟩

theorem produce_of_le (old : Value F) {rows : List (Row F)} (h : ∀ row ∈ rows, HasTypes orderBy.columns row)
    (hLength : rows.length ≤ 2 ^ 30) :
    ∃ result, produce f64 enums orderBy old rows = some result ∧
      Vector.SortsTo (compareKeys f64 enums orderBy.keys) rows result := by
  obtain ⟨buffer, hBuffer, hHolds⟩ :=
    (holds_empty orderBy).pushAll (rows.map (packRow orderBy old)) (by simpa using hLength)
  obtain ⟨sorted, hSorted, hSorts⟩ := hHolds.sort (comparison f64 enums orderBy)
  rw [nil_append] at hSorts
  have hUnpack : (rows.map (packRow orderBy old)).map Struct.unpack = rows := by
    rw [map_map]
    exact (map_congr_left fun row hRow => unpack_packRow old (h row hRow)).trans (map_id rows)
  refine ⟨sorted.map Struct.unpack, ?_, ?_, ?_⟩
  · rw [produce, foldlM_consume old h, hBuffer, Option.bind_eq_bind, Option.bind_some]
    dsimp only
    rw [hSorted.elements]
  · rw [← hUnpack]
    exact hSorts.perm.map _
  · intro valid hWeak hValid
    rw [pairwise_map]
    apply hSorts.pairwise (fun element => valid (Struct.unpack element)) (hWeak.comap Struct.unpack)
    intro element hElement
    obtain ⟨row, hRow, rfl⟩ := mem_map.mp hElement
    rw [unpack_packRow old (h row hRow)]
    exact hValid row hRow

theorem produce_of_gt (old : Value F) (h : ∀ row ∈ rows, HasTypes orderBy.columns row) (hLength : 2 ^ 30 < rows.length) :
    produce f64 enums orderBy old rows = none := by
  have hColumns : orderBy.columns ≠ [] := by
    obtain ⟨key, hKey⟩ := exists_mem_of_ne_nil _ orderBy.keys_ne_nil
    exact ne_nil_of_length_pos (Nat.zero_lt_of_lt (orderBy.column_lt key hKey))
  rw [produce, foldlM_consume old h, (holds_empty orderBy).pushAll_full _ (orderBy.elementSize_pos hColumns)
    (Nat.zero_le _) (by simpa using hLength)]
  rfl

end KushDB.Compile
