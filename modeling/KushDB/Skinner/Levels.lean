import KushDB.Skinner.Query

/-! # A join order as nested loops

What every engine is meant to do with a join order: one loop for each table of the order, where a condition is
checked at the last of its tables. The loops run over the rows of `searchRows` and go on below the rows
that pass the conditions of their table.
-/

namespace KushDB.Skinner

open Loops Odometer List

section

variable {n : Nat} {V : Type}

def Condition.lastTable (condition : Condition n V) (order : List (Fin n)) : Option (Fin n) :=
  (order.filter (· ∈ condition.tables)).getLast?

def Query.due (q : Query n V) (order : List (Fin n)) (table : Fin n) : List (Condition n V) :=
  q.conditions.filter fun condition => condition.lastTable order = some table

/-- The choice of rows that a path along a join order stands for. -/
def assign (order : List (Fin n)) (path : List Int) : Fin n → Int :=
  fun table => path.getD (order.idxOf table) 0

def Query.level (q : Query n V) (offset progress : Fin n → Int) (table : Fin n) : Level (Fin n) :=
  ⟨table, q.cardinality table, offset table, progress table⟩

def Query.levels (q : Query n V) (offset progress : Fin n → Int) (order : List (Fin n)) : List (Level (Fin n)) :=
  order.map (q.level offset progress)

/-- No loop starts before this row, whatever it resumes at. -/
def firstRow (offset : Fin n → Int) (table : Fin n) : Int := min 0 (offset table + 1)

def Query.levelRows [DecidableEq V] (q : Query n V) (offset : Fin n → Int) (order : List (Fin n)) (path : List Int) :
    Option (List Int) :=
  (order[path.length]?).bind fun table =>
    q.searchRows (firstRow offset table) table (q.row (assign order path)) (q.due order table)

def Query.levelAccepts [DecidableEq V] (q : Query n V) (order : List (Fin n)) (path : List Int) : Bool :=
  match order[path.length - 1]? with
  | none => false
  | some table => (q.due order table).all fun condition => condition.compute (q.row (assign order path)) = some true

theorem lastTable_eq_some {condition : Condition n V} {before after : List (Fin n)} {table : Fin n}
    (hNodup : (before ++ table :: after).Nodup) :
    condition.lastTable (before ++ table :: after) = some table ↔
      table ∈ condition.tables ∧ ∀ other ∈ after, other ∉ condition.tables := by
  obtain ⟨_, hTail, hDisjoint⟩ := nodup_append.mp hNodup
  have hFresh := (nodup_cons.mp hTail).1
  unfold Condition.lastTable
  rw [filter_append, filter_cons]
  constructor
  · intro hLast
    have hMem := mem_of_getLast? hLast
    have hTable : table ∈ condition.tables := by
      by_contra hNot
      rw [if_neg (by simpa using hNot), ← filter_append] at hMem
      exact hNot (by simpa using (mem_filter.mp hMem).2)
    refine ⟨hTable, fun other hOther hIn => ?_⟩
    have hNonempty : after.filter (· ∈ condition.tables) ≠ [] :=
      ne_nil_of_mem (mem_filter.mpr ⟨hOther, by simpa using hIn⟩)
    rw [if_pos (by simpa using hTable), getLast?_append_of_ne_nil _ (by simp),
      getLast?_cons_of_ne_nil hNonempty] at hLast
    exact hFresh (mem_filter.mp (mem_of_getLast? hLast)).1
  · rintro ⟨hTable, hAfter⟩
    have hNil : after.filter (· ∈ condition.tables) = [] := by
      simpa [filter_eq_nil_iff] using hAfter
    rw [if_pos (by simpa using hTable), hNil]
    simp

variable {after before : List (Fin n)} {table : Fin n}
variable {condition : Condition n V} {q : Query n V} {order : List (Fin n)} {path : List Int}

theorem mem_due (hNodup : (before ++ table :: after).Nodup) :
    condition ∈ q.due (before ++ table :: after) table ↔ condition ∈ q.conditions ∧
      table ∈ condition.tables ∧ ∀ other ∈ after, other ∉ condition.tables := by
  rw [Query.due, mem_filter, decide_eq_true_eq, lastTable_eq_some hNodup]

/-- An order of all tables, split at one of them. -/
structure SplitOrder (before : List (Fin n)) (table : Fin n) (after : List (Fin n)) : Prop where
  nodup : (before ++ table :: after).Nodup
  complete : ∀ other, other ∈ before ++ table :: after

theorem SplitOrder.fresh (h : SplitOrder before table after) : table ∉ before :=
  fun hMem => (nodup_append.mp h.nodup).2.2 _ hMem _ mem_cons_self rfl

theorem JoinOrder.split {order : JoinOrder n} (h : order.tables = before ++ table :: after) :
    SplitOrder before table after :=
  ⟨h ▸ order.nodup, h ▸ order.complete⟩

/-- A condition due at a table mentions only that table and tables joined before. -/
theorem mem_before_of_due {q : Query n V} {condition : Condition n V} (hOrder : SplitOrder before table after)
    (h : condition ∈ q.due (before ++ table :: after) table) {other : Fin n} (hOther : other ∈ condition.tables) :
    other ∈ before ∨ other = table := by
  have hAfter := ((mem_due hOrder.nodup).mp h).2.2
  have hMem := hOrder.complete other
  simp only [mem_append, mem_cons] at hMem
  rcases hMem with hBefore | rfl | hIn
  · exact Or.inl hBefore
  · exact Or.inr rfl
  · exact absurd hOther (hAfter other hIn)

/-- Every condition on some table of the order is due at one of them. -/
theorem exists_due (hCondition : condition ∈ q.conditions) (h : ∃ table ∈ order, table ∈ condition.tables) :
    ∃ table ∈ order, condition ∈ q.due order table := by
  obtain ⟨table, hOrder, hTable⟩ := h
  have hNonempty : order.filter (· ∈ condition.tables) ≠ [] :=
    ne_nil_of_mem (mem_filter.mpr ⟨hOrder, by simpa using hTable⟩)
  refine ⟨(order.filter (· ∈ condition.tables)).getLast hNonempty, ?_, ?_⟩
  · exact (mem_filter.mp (getLast_mem hNonempty)).1
  · rw [Query.due, mem_filter, decide_eq_true_eq, Condition.lastTable, getLast?_eq_getLast_of_ne_nil hNonempty]
    exact ⟨hCondition, rfl⟩

theorem assign_append {rest : List Int} (hLength : path.length = before.length) (hTable : table ∈ before) :
    assign (before ++ after) (path ++ rest) table = assign (before ++ after) path table := by
  have hLt : (before ++ after).idxOf table < path.length := by
    rw [idxOf_append_of_mem hTable, hLength]
    exact idxOf_lt_length_iff.mpr hTable
  simp only [assign, getD_eq_getElem?_getD, getElem?_append_left hLt]

theorem assign_last {row : Int} (hLength : path.length = before.length) (hTable : table ∉ before) :
    assign (before ++ table :: after) (path ++ [row]) table = row := by
  simp [assign, idxOf_append_of_notMem hTable, ← hLength]

theorem assign_map (x : Fin n → Int) (h : table ∈ order) : assign order (order.map x) table = x table := by
  have hLt := idxOf_lt_length_iff.mpr h
  simp [assign, getD_eq_getElem?_getD, hLt]

end

section

variable {n : Nat} {V : Type} [DecidableEq V] {q : Query n V} {before after : List (Fin n)} {table : Fin n}
  {path : List Int} {condition : Condition n V}

/-- A due condition reads the row at hand and the rows chosen for the tables joined before. -/
theorem compute_withRow (hOrder : SplitOrder before table after) (hLength : path.length = before.length)
    (h : condition ∈ q.due (before ++ table :: after) table) {values : ColRef n → Option V}
    (hValues : ∀ column, column.childIdx ∈ before →
      values column = q.row (assign (before ++ table :: after) path) column) (row : Int) :
    condition.compute (q.withRow table row values) =
      condition.compute (q.row (assign (before ++ table :: after) (path ++ [row]))) := by
  refine Condition.compute_congr fun column hColumn => ?_
  unfold Query.withRow
  by_cases hOwn : column.childIdx = table
  · rw [if_pos hOwn, Query.row, hOwn, assign_last hLength hOrder.fresh]
  · have hBefore := (mem_before_of_due hOrder h hColumn).resolve_right hOwn
    rw [if_neg hOwn, hValues column hBefore, Query.row, Query.row, assign_append hLength hBefore]

omit [DecidableEq V] in
theorem table_mem_of_due (hNodup : (before ++ table :: after).Nodup) :
    ∀ condition ∈ q.due (before ++ table :: after) table, table ∈ condition.tables :=
  fun _ h => ((mem_due hNodup).mp h).2.1

theorem levelRows_eq (offset : Fin n → Int) (hLength : path.length = before.length) :
    q.levelRows offset (before ++ table :: after) path =
      q.searchRows (firstRow offset table) table (q.row (assign (before ++ table :: after) path))
        (q.due (before ++ table :: after) table) := by
  simp [Query.levelRows, hLength]

theorem levelAccepts_eq (hLength : path.length = before.length) (row : Int) :
    q.levelAccepts (before ++ table :: after) (path ++ [row]) =
      (q.due (before ++ table :: after) table).all fun condition =>
        condition.compute (q.row (assign (before ++ table :: after) (path ++ [row]))) = some true := by
  simp [Query.levelAccepts, hLength]

theorem firstRow_nonpos (offset : Fin n → Int) (table : Fin n) : firstRow offset table ≤ 0 := min_le_left _ _

variable {offset : Fin n → Int}

theorem firstRow_eq_zero (h : ∀ table, -1 ≤ offset table) (table : Fin n) : firstRow offset table = 0 := by
  have hTable := h table
  unfold firstRow
  omega

theorem levels_proper_suffix {offset progress : Fin n → Int} (hCard : ∀ table, 0 < q.cardinality table)
    (hOffset : ∀ table, -1 ≤ offset table) {suffix : List (Fin n)} (hNodup : (before ++ suffix).Nodup)
    (hLength : path.length = before.length) :
    Proper (q.levels offset progress suffix) fun rest => q.levelRows offset (before ++ suffix) (path ++ rest) := by
  induction suffix generalizing before path with
  | nil => trivial
  | cons table suffix ih =>
    refine ⟨hCard table, fun found hFound => ?_, fun row => ?_⟩
    · have hSpec := @searchRows_spec n V _ q (firstRow offset table) table (q.row (assign (before ++ table :: suffix) path))
        (q.due (before ++ table :: suffix) table) (firstRow_nonpos offset table) (table_mem_of_due hNodup)
      simp only [append_nil, levelRows_eq offset hLength] at hFound
      rw [hFound, firstRow_eq_zero hOffset] at hSpec
      exact ⟨hSpec.2.1, fun row hRow => ((hSpec.2.2 row).mp hRow).1⟩
    · have hNext := @ih (before ++ [table]) (path ++ [row]) (by simpa using hNodup) (by simp [hLength])
      simp only [append_assoc, singleton_append] at hNext
      exact hNext

variable {progress : Fin n → Int}

/-- The loops of a join order run over ascending rows of their tables. -/
theorem levels_proper (hCard : ∀ table, 0 < q.cardinality table) (hOffset : ∀ table, -1 ≤ offset table)
    (order : JoinOrder n) : Proper (q.levels offset progress order.tables) (q.levelRows offset order.tables) :=
  @levels_proper_suffix n V _ q [] [] offset progress hCard hOffset order.tables order.nodup rfl

theorem solves_suffix {offset progress : Fin n → Int} (hOffset : ∀ table, -1 ≤ offset table) (x : Fin n → Int)
    {suffix : List (Fin n)} (hNodup : (before ++ suffix).Nodup) (hComplete : ∀ other, other ∈ before ++ suffix) :
    Solves (q.levels offset progress suffix) (fun rest => q.levelRows offset (before ++ suffix) (before.map x ++ rest))
      (fun rest => q.levelAccepts (before ++ suffix) (before.map x ++ rest)) (suffix.map x) ↔
    ∀ table ∈ suffix, (0 ≤ x table ∧ x table < q.cardinality table) ∧
      ∀ condition ∈ q.due (before ++ suffix) table, condition.compute (q.row x) = some true := by
  induction suffix generalizing before with
  | nil => simp [Query.levels, Solves]
  | cons table suffix ih =>
    have hLength : (before.map x).length = before.length := length_map x
    have hAssign : ∀ other ∈ before ++ [table],
        assign (before ++ table :: suffix) (before.map x ++ [x table]) other = x other := by
      intro other hOther
      have hMap := assign_map x (hComplete other)
      rw [show before ++ table :: suffix = (before ++ [table]) ++ suffix by simp, map_append] at hMap
      rw [assign_append (by simp) hOther] at hMap
      simpa using hMap
    have hRow : ∀ condition ∈ q.due (before ++ table :: suffix) table,
        condition.compute (q.row (assign (before ++ table :: suffix) (before.map x ++ [x table]))) =
          condition.compute (q.row x) := by
      intro condition hDue
      refine Condition.compute_congr fun column hColumn => ?_
      have hMem := mem_before_of_due ⟨hNodup, hComplete⟩ hDue hColumn
      rw [Query.row, hAssign _ (by simpa using hMem), Query.row]
    have hOwn := fun condition hDue => (compute_withRow ⟨hNodup, hComplete⟩ hLength hDue
      (fun _ _ => rfl) (x table)).trans (hRow condition hDue)
    have hSpec := @searchRows_spec n V _ q (firstRow offset table) table
      (q.row (assign (before ++ table :: suffix) (before.map x))) (q.due (before ++ table :: suffix) table)
      (firstRow_nonpos offset table) (table_mem_of_due hNodup)
    have hNext := @ih (before ++ [table]) (by simpa using hNodup) (by simpa using hComplete)
    simp only [map_append, map_cons, map_nil, append_assoc, singleton_append] at hNext
    rw [map_cons, forall_mem_cons, ← hNext]
    change (∃ found, q.levelRows offset _ (before.map x ++ []) = some found ∧ x table ∈ found) ∧
      q.levelAccepts _ (before.map x ++ [x table]) = true ∧ _ ↔ _
    rw [append_nil, levelRows_eq offset hLength, levelAccepts_eq hLength, ← and_assoc]
    refine and_congr_left' ?_
    simp only [all_eq_true, decide_eq_true_eq]
    constructor
    · rintro ⟨⟨found, hFound, hMem⟩, hAccepts⟩
      rw [hFound, firstRow_eq_zero hOffset] at hSpec
      exact ⟨((hSpec.2.2 _).mp hMem).1, fun condition hDue => (hRow condition hDue).symm.trans (hAccepts condition hDue)⟩
    · rintro ⟨hRange, hHolds⟩
      refine ⟨?_, fun condition hDue => (hRow condition hDue).trans (hHolds condition hDue)⟩
      cases hFound : q.searchRows (firstRow offset table) table
          (q.row (assign (before ++ table :: suffix) (before.map x))) (q.due (before ++ table :: suffix) table) with
      | none =>
        rw [hFound] at hSpec
        obtain ⟨condition, hDue, _, hNone⟩ := hSpec
        exact absurd ((hOwn condition hDue).trans (hHolds condition hDue)) (hNone _ hRange.1 hRange.2)
      | some found =>
        rw [hFound, firstRow_eq_zero hOffset] at hSpec
        exact ⟨found, rfl, (hSpec.2.2 _).mpr ⟨hRange, fun condition hDue _ =>
          ⟨hRange.1, (hOwn condition hDue).trans (hHolds condition hDue)⟩⟩⟩

/-- The full paths through the loops are the tuples that satisfy the query. -/
theorem solves_iff_satisfies (hOffset : ∀ table, -1 ≤ offset table)
    (hTables : ∀ condition ∈ q.conditions, condition.tables ≠ []) (order : JoinOrder n) (x : Fin n → Int) :
    Solves (q.levels offset progress order.tables) (q.levelRows offset order.tables)
      (q.levelAccepts order.tables) (order.tables.map x) ↔ q.Satisfies x := by
  have hSuffix := @solves_suffix n V _ q [] offset progress hOffset x order.tables order.nodup order.complete
  refine hSuffix.trans ⟨fun h => ⟨fun table => (h table (order.complete table)).1, fun condition hCondition => ?_⟩,
    fun h table _ => ⟨h.1 table, fun condition hDue => h.2 condition (mem_filter.mp hDue).1⟩⟩
  obtain ⟨table, hTable⟩ := exists_mem_of_ne_nil _ (hTables condition hCondition)
  obtain ⟨last, hLast, hDue⟩ := exists_due hCondition ⟨table, order.complete table, hTable⟩
  exact (h last hLast).2 condition hDue

end

end KushDB.Skinner
