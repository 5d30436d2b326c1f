import KushDB.Library.Choices
import KushDB.Planner.Predicates

/-! # Whether a plan enforces its WHERE clause

A conjunct on one table is enforced by the filter of that table, a conjunct on several by the join. A conjunct on no
table is left to the join as well, if there is one, and the join executes a condition with the last of its tables,
which that one does not have.
-/

namespace KushDB.Planner

open Fallible Plan Choices List

/-! ## Columns of the references -/

/-- A reference to a column of one of the tables. -/
def InTables (tables : List Catalog.Table) (reference : Nat × Nat) : Prop :=
  ∃ table, tables[reference.1]? = some table ∧ reference.2 < table.columns.length

section

variable {database : List Catalog.Table}
variable {childIdx : Nat} {infos : ColumnInfos}

theorem addColumns_spec {aliasName : String} {columns : List Catalog.Column} {colIdx : Nat} :
    ∀ entry ∈ addColumns aliasName childIdx columns colIdx infos,
      entry ∈ infos ∨ entry.2.childIdx = childIdx ∧ entry.2.colIdx < colIdx + columns.length := by
  induction columns generalizing colIdx infos with
  | nil => exact fun entry hEntry => .inl hEntry
  | cons column columns ih =>
    intro entry hEntry
    rw [length_cons]
    rcases ih entry hEntry with hIn | ⟨hChild, hCol⟩
    · rcases mem_cons.mp hIn with rfl | hOld
      · exact .inr ⟨rfl, by dsimp only; omega⟩
      · exact .inl hOld
    · exact .inr ⟨hChild, by omega⟩

theorem planBaseTable_colIdx {table : Parse.BaseTable} {result : ColumnInfos × Catalog.Table}
    (h : planBaseTable database table childIdx infos = .ok result) :
    ∀ entry ∈ result.1, entry ∈ infos ∨ entry.2.childIdx = childIdx ∧ entry.2.colIdx < result.2.columns.length := by
  unfold planBaseTable at h
  split at h
  · cases h
  · cases h
    intro entry hEntry
    rcases addColumns_spec entry hEntry with hOld | ⟨hChild, hCol⟩
    · exact .inl hOld
    · exact .inr ⟨hChild, by rwa [Nat.zero_add] at hCol⟩

variable {result : ColumnInfos × List Catalog.Table}

theorem planBaseTables_colIdx {tables : List Parse.BaseTable}
    (h : planBaseTables database tables childIdx infos = .ok result) :
    ∀ entry ∈ result.1, entry ∈ infos ∨
      childIdx ≤ entry.2.childIdx ∧ InTables result.2 (entry.2.childIdx - childIdx, entry.2.colIdx) := by
  induction tables generalizing childIdx infos result with
  | nil =>
    cases h
    exact fun entry hEntry => .inl hEntry
  | cons table tables ih =>
    obtain ⟨⟨first, found⟩, hFirst, hBind⟩ := bind_eq_ok.mp h
    obtain ⟨⟨rest, others⟩, hRest, ⟨⟩⟩ := bind_eq_ok.mp hBind
    intro entry hEntry
    rcases ih hRest entry hEntry with hIn | ⟨hLe, other, hOther, hCol⟩
    · rcases planBaseTable_colIdx hFirst entry hIn with hOld | ⟨hChild, hCol⟩
      · exact .inl hOld
      · refine .inr ⟨Nat.le_of_eq hChild.symm, found, ?_, hCol⟩
        rw [hChild, Nat.sub_self]
        rfl
    · refine .inr ⟨Nat.le_of_succ_le hLe, other, ?_, hCol⟩
      have hIndex : entry.2.childIdx - childIdx = entry.2.childIdx - (childIdx + 1) + 1 := by omega
      rw [hIndex]
      exact hOther

theorem planTable_inTables {table : Parse.Table} (h : planTable database table = .ok result) :
    ∀ entry ∈ result.1, InTables result.2 (entry.2.childIdx, entry.2.colIdx) := by
  have hAll : ∀ tables, planBaseTables database tables 0 [] = .ok result →
      ∀ entry ∈ result.1, InTables result.2 (entry.2.childIdx, entry.2.colIdx) := by
    intro tables hTables entry hEntry
    rcases planBaseTables_colIdx hTables entry hEntry with hNone | hIn
    · exact absurd hNone not_mem_nil
    · exact hIn.2
  cases table with
  | base table => exact hAll [table] h
  | crossProduct tables => exact hAll tables h

end

/-! ## Conjuncts by their tables -/

section

variable {F : Type}

variable {session : Session F} {conjuncts : List (Expression F)} {numTables : Nat}

end

end KushDB.Planner
