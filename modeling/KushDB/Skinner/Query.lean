import Mathlib.Algebra.GroupWithZero.Nat
import KushDB.Library.Progress
import Mathlib.Data.List.Dedup
import Mathlib.Data.List.Sort

/-! # The input of a Skinner join

A `SkinnerJoinOperator` has `n` materialized children, a list of conditions and a `PrefixOrder`.
Rows are numbered from 0 and `value` is the content of the materialized buffers, `none` being NULL.
A condition is either an equality of two columns, which the engines answer from a column index, or
any other expression; the expression translator computes it from the columns it mentions.
An equality relates two children: the planner pushes what mentions one child down to that child.
-/

namespace KushDB.Skinner

open List

structure ColRef (n : Nat) where
  childIdx : Fin n
  columnIdx : Nat
deriving DecidableEq

instance lawfulBEqTable {n : Nat} : LawfulBEq (Fin n) := inferInstance

instance lawfulBEqColRef {n : Nat} : LawfulBEq (ColRef n) := inferInstance

instance neZeroTwo : NeZero 2 := ⟨by decide⟩

inductive Condition (n : Nat) (V : Type)
  | equality (left right : ColRef n) (distinct : left.childIdx ≠ right.childIdx)
  | general (columns : List (ColRef n)) (holds : (ColRef n → Option V) → Option Bool)
      (reads : ∀ row other, (∀ column ∈ columns, row column = other column) → holds row = holds other)

structure Query (n : Nat) (V : Type) where
  cardinality : Fin n → Int
  value : ColRef n → Int → Option V
  conditions : List (Condition n V)
  prefixOrder : List (Fin n)

structure JoinOrder (n : Nat) where
  tables : List (Fin n)
  nodup : tables.Nodup
  complete : ∀ table, table ∈ tables

theorem JoinOrder.exists_cons {n : Nat} (order : JoinOrder n) (hTables : 0 < n) :
    ∃ first rest, order.tables = first :: rest :=
  List.exists_cons_of_ne_nil (List.ne_nil_of_mem (order.complete ⟨0, hTables⟩))

section

variable {n : Nat} {V : Type}

/-- What `PredicateColumnCollector` returns. -/
def Condition.columns : Condition n V → List (ColRef n)
  | .equality left right _ => [left, right]
  | .general columns _ _ => columns

def Condition.tables (condition : Condition n V) : List (Fin n) :=
  (condition.columns.map ColRef.childIdx).dedup

def Condition.isEquality : Condition n V → Bool
  | .equality .. => true
  | .general .. => false

def Condition.compute [DecidableEq V] (condition : Condition n V) (values : ColRef n → Option V) : Option Bool :=
  match condition with
  | .equality left right _ =>
    match values left, values right with
    | some leftValue, some rightValue => some (leftValue = rightValue)
    | _, _ => none
  | .general _ holds _ => holds values

variable {condition : Condition n V}

theorem Condition.mem_tables {table : Fin n} :
    table ∈ condition.tables ↔ ∃ column ∈ condition.columns, column.childIdx = table := by
  simp [Condition.tables]

theorem Condition.compute_congr [DecidableEq V] {values others : ColRef n → Option V}
    (h : ∀ column, column.childIdx ∈ condition.tables → values column = others column) :
    condition.compute values = condition.compute others := by
  have hColumns : ∀ column ∈ condition.columns, values column = others column :=
    fun column hColumn => h column (mem_tables.mpr ⟨column, hColumn, rfl⟩)
  cases condition with
  | equality left right distinct =>
    simp only [compute, hColumns left (by simp [columns]), hColumns right (by simp [columns])]
  | general columns holds reads => exact reads _ _ hColumns

/-- The values a choice of one row for each child gives the columns. -/
def Query.row (q : Query n V) (x : Fin n → Int) : ColRef n → Option V :=
  fun column => q.value column (x column.childIdx)

def Query.Satisfies [DecidableEq V] (q : Query n V) (x : Fin n → Int) : Prop :=
  (∀ table, 0 ≤ x table ∧ x table < q.cardinality table) ∧
    ∀ condition ∈ q.conditions, condition.compute (q.row x) = some true

/-- Known values, with the columns of one child read from a row of it. -/
def Query.withRow (q : Query n V) (table : Fin n) (row : Int) (values : ColRef n → Option V) :
    ColRef n → Option V :=
  fun column => if column.childIdx = table then q.value column row else values column

end

theorem eq_of_ascending {left right : List Int} (hLeft : left.Pairwise (· < ·)) (hRight : right.Pairwise (· < ·))
    (h : ∀ row, row ∈ left ↔ row ∈ right) : left = right :=
  ((perm_ext_iff_of_nodup (hLeft.imp ne_of_lt) (hRight.imp ne_of_lt)).mpr h).eq_of_pairwise
    (fun _ _ _ _ hLt hGt => absurd hLt hGt.asymm) hLeft hRight

def scanRows (start cardinality : Int) : List Int :=
  (List.range (cardinality - start).toNat).map fun (step : Nat) => start + (step : Int)

variable {cardinality start : Int}

@[simp]
theorem mem_scanRows {row : Int} : row ∈ scanRows start cardinality ↔ start ≤ row ∧ row < cardinality := by
  simp only [scanRows, mem_map, mem_range]
  constructor
  · rintro ⟨step, hStep, rfl⟩
    omega
  · rintro ⟨hStart, hEnd⟩
    exact ⟨(row - start).toNat, by omega, by omega⟩

theorem scanRows_ascending (start cardinality : Int) : (scanRows start cardinality).Pairwise (· < ·) := by
  rw [scanRows, pairwise_map]
  exact pairwise_lt_range.imp (by omega)

theorem filter_scanRows {first : Int} (h : first ≤ start) :
    (scanRows first cardinality).filter (fun row => start ≤ row) = scanRows start cardinality := by
  refine eq_of_ascending ((scanRows_ascending _ _).filter _) (scanRows_ascending _ _) fun row => ?_
  simp only [mem_filter, mem_scanRows, decide_eq_true_eq]
  omega

section

variable {n : Nat} {V : Type} [DecidableEq V] (q : Query n V)

/-- A column index holds the rows of every non-null value in ascending order, and no bucket for other values. -/
def Query.getBucket (column : ColRef n) (key : V) : Option (List Int) :=
  match (scanRows 0 (q.cardinality column.childIdx)).filter (fun row => q.value column row = some key) with
  | [] => none
  | bucket => some bucket

def commonRows : List (List Int) → List Int
  | [] => []
  | bucket :: buckets => bucket.filter fun row => buckets.all fun other => other.contains row

/-- The rows `BucketListSortedIntersectionPopulateResult` returns batch by batch. -/
def sortedIntersection (buckets : List (List Int)) (nextTuple : Int) : List Int :=
  (commonRows buckets).filter fun row => nextTuple ≤ row

/-- The bucket of an equality's own side under the value of its other side, nothing if that is NULL
or the index does not have it. -/
def Query.lookupBucket (table : Fin n) (values : ColRef n → Option V) (left right : ColRef n) :
    Option (List Int) :=
  let otherSide := if left.childIdx = table then right else left
  let tableColumn := if left.childIdx = table then left else right
  (values otherSide).bind (q.getBucket tableColumn)

def Query.collectBuckets (table : Fin n) (values : ColRef n → Option V) :
    List (Condition n V) → Option (List (List Int))
  | [] => some []
  | .equality left right _ :: conditions =>
    match q.lookupBucket table values left right with
    | none => none
    | some bucket => (collectBuckets table values conditions).map (bucket :: ·)
  | .general .. :: conditions => collectBuckets table values conditions

/-- All rows a table function may visit, from `first` on when no index is used. -/
def Query.searchRows (first : Int) (table : Fin n) (values : ColRef n → Option V)
    (conditions : List (Condition n V)) : Option (List Int) :=
  (q.collectBuckets table values conditions).map fun buckets =>
    if buckets.isEmpty then scanRows first (q.cardinality table) else commonRows buckets

variable {q}

theorem getBucket_spec (column : ColRef n) (key : V) :
    match q.getBucket column key with
    | none => ∀ row, 0 ≤ row → row < q.cardinality column.childIdx → q.value column row ≠ some key
    | some bucket => bucket ≠ [] ∧ bucket.Pairwise (· < ·) ∧
      ∀ row, row ∈ bucket ↔ (0 ≤ row ∧ row < q.cardinality column.childIdx) ∧ q.value column row = some key := by
  have hAscending := (scanRows_ascending 0 (q.cardinality column.childIdx)).filter
    (fun row => q.value column row = some key)
  have hMem : ∀ row, row ∈ (scanRows 0 (q.cardinality column.childIdx)).filter
      (fun row => q.value column row = some key) ↔
        (0 ≤ row ∧ row < q.cardinality column.childIdx) ∧ q.value column row = some key := by
    simp
  unfold Query.getBucket
  split
  · rename_i hNone
    split at hNone
    · rename_i hNil
      intro row hLow hHigh hKey
      simpa [hNil] using (hMem row).mpr ⟨⟨hLow, hHigh⟩, hKey⟩
    · cases hNone
  · rename_i bucket hSome
    split at hSome
    · cases hSome
    · rename_i hFilled
      rw [← Option.some.inj hSome]
      exact ⟨hFilled, hAscending, hMem⟩

/-- An equality that no row of the table makes true. -/
def Query.Unmatched (q : Query n V) (table : Fin n) (values : ColRef n → Option V) (condition : Condition n V) : Prop :=
  condition.isEquality = true ∧ ∀ row, 0 ≤ row → row < q.cardinality table →
    condition.compute (q.withRow table row values) ≠ some true

variable {table : Fin n}
variable {left right : ColRef n} {distinct : left.childIdx ≠ right.childIdx} {row : Int} {values : ColRef n → Option V}
  {buckets : List (List Int)}

/-- An equality on a row's own column and a known value on the other side. -/
theorem compute_equality (hTable : left.childIdx = table ∨ right.childIdx = table) :
    (Condition.equality left right distinct).compute (q.withRow table row values) = some true ↔
      ∃ key, values (if left.childIdx = table then right else left) = some key ∧
        q.value (if left.childIdx = table then left else right) row = some key := by
  unfold Condition.compute Query.withRow
  by_cases hLeft : left.childIdx = table
  · have hRight : ¬ right.childIdx = table := fun h => distinct (hLeft.trans h.symm)
    simp only [hLeft, hRight, if_true, if_false]
    cases q.value left row <;> cases values right <;> simp [eq_comm]
  · have hRight : right.childIdx = table := hTable.resolve_left hLeft
    simp only [hLeft, hRight, if_true, if_false]
    cases q.value right row <;> cases values left <;> simp [eq_comm]

/-- A bucket holds exactly the rows on which the equality is true. -/
theorem lookupBucket_spec {table : Fin n} {values : ColRef n → Option V} {left right : ColRef n}
    {distinct : left.childIdx ≠ right.childIdx} (hTable : left.childIdx = table ∨ right.childIdx = table) :
    match q.lookupBucket table values left right with
    | none => q.Unmatched table values (.equality left right distinct)
    | some bucket => bucket ≠ [] ∧ bucket.Pairwise (· < ·) ∧
      ∀ row, row ∈ bucket ↔ (0 ≤ row ∧ row < q.cardinality table) ∧
        (Condition.equality left right distinct).compute (q.withRow table row values) = some true := by
  have hColumn : (if left.childIdx = table then left else right).childIdx = table := by
    split
    · assumption
    · exact hTable.resolve_left (by assumption)
  simp only [Query.lookupBucket, Query.Unmatched, Condition.isEquality, true_and, compute_equality hTable, ne_eq]
  cases hKey : values (if left.childIdx = table then right else left) with
  | none => simp
  | some key =>
    have hBucket := getBucket_spec (q := q) (if left.childIdx = table then left else right) key
    rw [hColumn] at hBucket
    simpa using hBucket

omit [DecidableEq V] in
theorem mem_tables_equality :
    table ∈ (Condition.equality (V := V) left right distinct).tables ↔
      left.childIdx = table ∨ right.childIdx = table := by
  simp [Condition.mem_tables, Condition.columns]

/-- There are no buckets exactly if some equality holds on no row; otherwise the rows in all of them
are those on which every equality holds. -/
theorem collectBuckets_spec {table : Fin n} {values : ColRef n → Option V} {conditions : List (Condition n V)}
    (hTables : ∀ condition ∈ conditions, table ∈ condition.tables) :
    match q.collectBuckets table values conditions with
    | none => ∃ condition ∈ conditions, q.Unmatched table values condition
    | some buckets => (∀ condition ∈ conditions, ¬ q.Unmatched table values condition) ∧
      (buckets = [] ↔ ∀ condition ∈ conditions, condition.isEquality = false) ∧
      (∀ bucket ∈ buckets, bucket.Pairwise (· < ·)) ∧
      ∀ row, (∀ bucket ∈ buckets, row ∈ bucket) ↔ ∀ condition ∈ conditions, condition.isEquality = true →
        (0 ≤ row ∧ row < q.cardinality table) ∧ condition.compute (q.withRow table row values) = some true := by
  induction conditions with
  | nil => simp [Query.collectBuckets]
  | cons condition conditions ih =>
    obtain ⟨hFirst, hRest⟩ := forall_mem_cons.mp hTables
    have ih := ih hRest
    cases condition with
    | general columns holds reads =>
      have hMatched : ¬ q.Unmatched table values (.general columns holds reads) := fun h => by cases h.1
      simpa only [Query.collectBuckets, mem_cons, exists_eq_or_imp, forall_eq_or_imp, Condition.isEquality,
        Bool.false_eq_true, hMatched, not_false_eq_true, false_or, false_implies, true_and] using ih
    | equality left right distinct =>
      have hBucket := @lookupBucket_spec n V _ q table values left right distinct (mem_tables_equality.mp hFirst)
      rw [Query.collectBuckets]
      cases hLookup : q.lookupBucket table values left right with
      | none =>
        rw [hLookup] at hBucket
        exact ⟨_, mem_cons_self, hBucket⟩
      | some bucket =>
        rw [hLookup] at hBucket
        cases hOthers : q.collectBuckets table values conditions with
        | none =>
          rw [hOthers] at ih
          obtain ⟨condition, hMem, hNone⟩ := ih
          exact ⟨condition, mem_cons_of_mem _ hMem, hNone⟩
        | some buckets =>
          rw [hOthers] at ih
          obtain ⟨row, hRow⟩ := exists_mem_of_ne_nil _ hBucket.1
          have hMatched : ¬ q.Unmatched table values (.equality left right distinct) := fun h =>
            have hHolds := (hBucket.2.2 row).mp hRow
            h.2 row hHolds.1.1 hHolds.1.2 hHolds.2
          simp only [Option.map_some, reduceCtorEq, forall_mem_cons, ih.2.2.2, hBucket.2.2, true_implies,
            Condition.isEquality, Bool.true_eq_false, false_and, true_and, implies_true, and_true]
          exact ⟨⟨hMatched, ih.1⟩, hBucket.2.1, ih.2.2.1⟩

theorem mem_commonRows (h : buckets ≠ []) : row ∈ commonRows buckets ↔ ∀ bucket ∈ buckets, row ∈ bucket := by
  cases buckets with
  | nil => exact absurd rfl h
  | cons bucket buckets => simp [commonRows]

theorem commonRows_ascending (h : ∀ bucket ∈ buckets, bucket.Pairwise (· < ·)) :
    (commonRows buckets).Pairwise (· < ·) := by
  cases buckets with
  | nil => exact .nil
  | cons bucket buckets => exact (h bucket mem_cons_self).filter _

theorem searchRows_spec {first : Int} {table : Fin n} {values : ColRef n → Option V}
    {conditions : List (Condition n V)} (hFirst : first ≤ 0)
    (hTables : ∀ condition ∈ conditions, table ∈ condition.tables) :
    match q.searchRows first table values conditions with
    | none => ∃ condition ∈ conditions, q.Unmatched table values condition
    | some found => (∀ condition ∈ conditions, ¬ q.Unmatched table values condition) ∧
      found.Pairwise (· < ·) ∧ ∀ row, row ∈ found ↔ (first ≤ row ∧ row < q.cardinality table) ∧
      ∀ condition ∈ conditions, condition.isEquality = true →
        0 ≤ row ∧ condition.compute (q.withRow table row values) = some true := by
  have hBuckets := @collectBuckets_spec n V _ q table values conditions hTables
  unfold Query.searchRows
  cases hCollect : q.collectBuckets table values conditions with
  | none =>
    rw [hCollect] at hBuckets
    exact hBuckets
  | some buckets =>
    rw [hCollect] at hBuckets
    obtain ⟨hMatched, hEmpty, hAscending, hMem⟩ := hBuckets
    simp only [Option.map_some, List.isEmpty_iff]
    by_cases hNil : buckets = []
    · rw [if_pos hNil]
      refine ⟨hMatched, scanRows_ascending _ _, fun row => ?_⟩
      rw [mem_scanRows, iff_self_and]
      intro _ condition hCondition hEquality
      rw [hEmpty.mp hNil condition hCondition] at hEquality
      cases hEquality
    · rw [if_neg hNil]
      refine ⟨hMatched, commonRows_ascending hAscending, fun row => ?_⟩
      rw [mem_commonRows hNil, hMem]
      have hSome : ∃ condition ∈ conditions, condition.isEquality = true := by
        by_contra hNone
        simp only [not_exists, not_and, Bool.not_eq_true] at hNone
        exact hNil (hEmpty.mpr hNone)
      constructor
      · intro hAll
        obtain ⟨condition, hCondition, hEquality⟩ := hSome
        have hRange := (hAll condition hCondition hEquality).1
        exact ⟨by omega, fun other hOther hEq => ⟨hRange.1, (hAll other hOther hEq).2⟩⟩
      · rintro ⟨hRange, hAll⟩ condition hCondition hEquality
        have hRow := hAll condition hCondition hEquality
        exact ⟨⟨hRow.1, hRange.2⟩, hRow.2⟩

/-- Neither the order of the conditions nor values that they do not read change the rows. -/
theorem searchRows_congr {first : Int} {others : ColRef n → Option V} {conditions reordered : List (Condition n V)}
    (hFirst : first ≤ 0) (hMem : ∀ condition, condition ∈ conditions ↔ condition ∈ reordered)
    (hTables : ∀ condition ∈ conditions, table ∈ condition.tables) (hCompute : ∀ condition ∈ conditions, ∀ row,
      condition.compute (q.withRow table row values) = condition.compute (q.withRow table row others)) :
    q.searchRows first table values conditions = q.searchRows first table others reordered := by
  have hLeft := @searchRows_spec n V _ q first table values conditions hFirst hTables
  have hRight := @searchRows_spec n V _ q first table others reordered hFirst
    fun condition h => hTables condition ((hMem condition).mpr h)
  have hUnmatched : ∀ condition ∈ conditions, q.Unmatched table values condition ↔ q.Unmatched table others condition := by
    intro condition h
    simp only [Query.Unmatched, hCompute condition h]
  have hHolds : ∀ row, (∀ condition ∈ conditions, condition.isEquality = true →
      0 ≤ row ∧ condition.compute (q.withRow table row values) = some true) ↔
      ∀ condition ∈ reordered, condition.isEquality = true →
        0 ≤ row ∧ condition.compute (q.withRow table row others) = some true := by
    intro row
    simp only [← hMem]
    exact forall₂_congr fun condition h => by rw [hCompute condition h row]
  cases hFound : q.searchRows first table values conditions with
  | none =>
    rw [hFound] at hLeft
    obtain ⟨condition, hIn, hNone⟩ := hLeft
    cases hOther : q.searchRows first table others reordered with
    | none => rfl
    | some found =>
      rw [hOther] at hRight
      exact absurd ((hUnmatched condition hIn).mp hNone) (hRight.1 condition ((hMem condition).mp hIn))
  | some found =>
    rw [hFound] at hLeft
    cases hOther : q.searchRows first table others reordered with
    | none =>
      rw [hOther] at hRight
      obtain ⟨condition, hIn, hNone⟩ := hRight
      have hIn := (hMem condition).mpr hIn
      exact absurd ((hUnmatched condition hIn).mpr hNone) (hLeft.1 condition hIn)
    | some same =>
      rw [hOther] at hRight
      refine congrArg some (eq_of_ascending hLeft.2.1 hRight.2.1 fun row => ?_)
      rw [hLeft.2.2, hRight.2.2, hHolds]

end

end KushDB.Skinner
