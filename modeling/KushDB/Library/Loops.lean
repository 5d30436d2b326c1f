import KushDB.Library.Odometer

/-! # Resumable nested loops

A nest of loops is a list of levels. Below the rows chosen so far, a level either has no rows at all
and is left after one visit, or runs through an ascending list of rows and descends below the rows it accepts.
Rows at or below a level's floor are never visited, and a resumed level starts at its mark.
`trace` is the whole sequence of visits; how far a run gets along it is a matter of its budget.
-/

namespace KushDB.Loops

open Odometer List

structure Level (T : Type) where
  name : T
  base : Int
  floor : Int
  mark : Int

def Level.start {T : Type} (level : Level T) (resume : Bool) : Int :=
  max (level.floor + 1) (if resume then level.mark else 0)

inductive Verdict
  | skipped
  | rejected
  | accepted
deriving DecidableEq, Repr

/-- One visit: the level and row it looks at, the rows above it together with that row,
the verdict, and whether the level is the innermost one. -/
structure Visit (T : Type) where
  name : T
  row : Int
  path : List Int
  verdict : Verdict
  leaf : Bool

def Visit.under {T : Type} (row : Int) (visit : Visit T) : Visit T :=
  { visit with path := row :: visit.path }

/-- The visits that one row brings: the row itself and, below an accepted row, those of the inner levels. -/
def rowVisits {T : Type} (name : T) (leaf accepted : Bool) (row : Int) (inner : List (Visit T)) : List (Visit T) :=
  if accepted then ⟨name, row, [row], .accepted, leaf⟩ :: inner.map (Visit.under row)
  else [⟨name, row, [row], .rejected, leaf⟩]

/-- `rows` gives the rows of the level below a path, `accepts` the verdict on a path's last row. -/
def trace {T : Type} : List (Level T) → (List Int → Option (List Int)) → (List Int → Bool) → Bool →
    List (Visit T)
  | [], _, _, _ => []
  | level :: levels, rows, accepts, resume =>
    match rows [] with
    | none => [⟨level.name, level.base - 1, [level.base - 1], .skipped, levels.isEmpty⟩]
    | some found => (found.filter fun row => level.start resume ≤ row).flatMap fun row =>
      rowVisits level.name levels.isEmpty (accepts [row]) row
        (trace levels (fun path => rows (row :: path)) (fun path => accepts (row :: path))
          (resume && row == level.mark))

section

variable {T : Type} {level : Level T} {levels : List (Level T)}
  {rows : List Int → Option (List Int)} {accepts : List Int → Bool} {resume : Bool}

variable {visit : Visit T}

/-- Everything a visit can be. -/
theorem mem_trace_cons :
    visit ∈ trace (level :: levels) rows accepts resume ↔
      (rows [] = none ∧
        visit = ⟨level.name, level.base - 1, [level.base - 1], .skipped, levels.isEmpty⟩) ∨
      ∃ found row, rows [] = some found ∧ row ∈ found ∧ level.start resume ≤ row ∧
        ((accepts [row] = false ∧ visit = ⟨level.name, row, [row], .rejected, levels.isEmpty⟩) ∨
          (accepts [row] = true ∧ visit = ⟨level.name, row, [row], .accepted, levels.isEmpty⟩) ∨
          (accepts [row] = true ∧ ∃ below ∈ trace levels (fun path => rows (row :: path))
            (fun path => accepts (row :: path)) (resume && row == level.mark), visit = below.under row)) := by
  rw [trace]
  cases hRows : rows [] with
  | none => simp
  | some found =>
    simp only [mem_flatMap, mem_filter, decide_eq_true_eq, reduceCtorEq, false_and, false_or,
      Option.some.injEq]
    constructor
    · rintro ⟨row, ⟨hFound, hStart⟩, hVisit⟩
      refine ⟨found, row, rfl, hFound, hStart, ?_⟩
      cases hAccepts : accepts [row] with
      | false => simpa [rowVisits, hAccepts] using hVisit
      | true =>
        simp only [rowVisits, hAccepts, if_true, mem_cons, mem_map] at hVisit
        rcases hVisit with rfl | ⟨below, hBelow, rfl⟩
        · exact Or.inr (Or.inl ⟨rfl, rfl⟩)
        · exact Or.inr (Or.inr ⟨rfl, below, hBelow, rfl⟩)
    · rintro ⟨_, row, rfl, hFound, hStart, hVisit⟩
      refine ⟨row, ⟨hFound, hStart⟩, ?_⟩
      rcases hVisit with ⟨hAccepts, rfl⟩ | ⟨hAccepts, rfl⟩ | ⟨hAccepts, below, hBelow, rfl⟩
      · simp [rowVisits, hAccepts]
      · simp [rowVisits, hAccepts]
      · rw [rowVisits, if_pos hAccepts]
        exact mem_cons_of_mem _ (mem_map.mpr ⟨below, hBelow, rfl⟩)

section

variable (h : visit ∈ trace levels rows accepts resume)
include h

/-- A visit is made by the level that its path ends at, and hands out at the innermost one. -/
theorem visit_spec : 0 < visit.path.length ∧ visit.path.length ≤ levels.length ∧
    (levels.map Level.name)[visit.path.length - 1]? = some visit.name ∧
    (visit.leaf = true ↔ visit.path.length = levels.length) := by
  induction levels generalizing rows accepts resume visit with
  | nil => cases h
  | cons level levels ih =>
    rcases Iff.mp mem_trace_cons h with ⟨_, rfl⟩ | ⟨_, _, _, _, _, ⟨_, rfl⟩ | ⟨_, rfl⟩ | ⟨_, below, hBelow, rfl⟩⟩
    case inr.inr.inr =>
      obtain ⟨hPos, hLe, hName, hLeaf⟩ := ih hBelow
      refine ⟨by simp [Visit.under], by simpa [Visit.under] using hLe, ?_, by simpa [Visit.under] using hLeaf⟩
      simp only [Visit.under, length_cons, Nat.add_sub_cancel, map_cons]
      rw [getElem?_cons, if_neg (by omega)]
      exact hName
    all_goals cases levels <;> simp

theorem path_ne_nil : visit.path ≠ [] :=
  ne_nil_of_length_pos (visit_spec h).1

theorem path_length_le : visit.path.length ≤ levels.length :=
  (visit_spec h).2.1

theorem name_eq : (levels.map Level.name)[visit.path.length - 1]? = some visit.name :=
  (visit_spec h).2.2.1

theorem leaf_iff : visit.leaf = true ↔ visit.path.length = levels.length :=
  (visit_spec h).2.2.2

end

end

/-- The rows below every path ascend and lie below the level's base. -/
def Proper {T : Type} : List (Level T) → (List Int → Option (List Int)) → Prop
  | [], _ => True
  | level :: levels, rows =>
    0 < level.base ∧ (∀ found, rows [] = some found →
      found.Pairwise (· < ·) ∧ ∀ row ∈ found, 0 ≤ row ∧ row < level.base) ∧
      ∀ row, Proper levels fun path => rows (row :: path)

/-- A full path all of whose rows are there and accepted. -/
def Solves {T : Type} : List (Level T) → (List Int → Option (List Int)) → (List Int → Bool) → List Int → Prop
  | [], _, _, path => path = []
  | _ :: _, _, _, [] => False
  | _ :: levels, rows, accepts, row :: path =>
    (∃ found, rows [] = some found ∧ row ∈ found) ∧ accepts [row] = true ∧
      Solves levels (fun path => rows (row :: path)) (fun path => accepts (row :: path)) path

section

variable {T : Type} {levels : List (Level T)} {rows : List Int → Option (List Int)}
  {accepts : List Int → Bool} {resume : Bool}

theorem Proper.bases_pos (h : Proper levels rows) : ∀ base ∈ levels.map Level.base, 0 < base := by
  induction levels generalizing rows with
  | nil => simp
  | cons level levels ih =>
    simp only [map_cons, forall_mem_cons]
    exact ⟨h.1, ih (h.2.2 0)⟩

variable {path : List Int} {visit : Visit T}

theorem Solves.inRange (hProper : Proper levels rows) (h : Solves levels rows accepts path) :
    InRange (levels.map Level.base) path := by
  induction levels generalizing rows accepts path with
  | nil => cases h; exact .nil
  | cons level levels ih =>
    cases path with
    | nil => cases h
    | cons row path =>
      obtain ⟨⟨found, hFound, hRow⟩, _, hRest⟩ := h
      exact inRange_cons.mpr ⟨(hProper.2.1 found hFound).2 row hRow, ih (hProper.2.2 row) hRest⟩

theorem rowVisits_path {name : T} {leaf accepted : Bool} {row : Int} {inner : List (Visit T)}
    (h : visit ∈ rowVisits name leaf accepted row inner) : ∃ rest, visit.path = row :: rest := by
  unfold rowVisits at h
  split at h
  · rcases mem_cons.mp h with rfl | hInner
    · exact ⟨[], rfl⟩
    · obtain ⟨below, _, rfl⟩ := mem_map.mp hInner
      exact ⟨below.path, rfl⟩
  · rw [mem_singleton.mp h]
    exact ⟨[], rfl⟩

/-- Visits come in the lexicographic order of their paths, a path before its extensions. -/
theorem trace_sorted (h : Proper levels rows) :
    (trace levels rows accepts resume).Pairwise fun left right => left.path < right.path := by
  induction levels generalizing rows accepts resume with
  | nil => exact .nil
  | cons level levels ih =>
    rw [trace]
    cases hRows : rows [] with
    | none => exact pairwise_singleton _ _
    | some found =>
      rw [pairwise_flatMap]
      constructor
      · intro row _
        unfold rowVisits
        split
        · refine pairwise_cons.mpr ⟨?_, ?_⟩
          · intro visit hVisit
            obtain ⟨below, hBelow, rfl⟩ := mem_map.mp hVisit
            obtain ⟨first, rest, hPath⟩ := exists_cons_of_ne_nil (path_ne_nil hBelow)
            simp [Visit.under, hPath]
          · rw [pairwise_map]
            exact (ih (h.2.2 row)).imp fun hLt => cons_lt_cons_iff.mpr (Or.inr ⟨rfl, hLt⟩)
        · exact pairwise_singleton _ _
      · refine ((h.2.1 found hRows).1.filter _).imp ?_
        intro row other hLt left hLeft right hRight
        obtain ⟨rest, hLeft⟩ := rowVisits_path hLeft
        obtain ⟨rest', hRight⟩ := rowVisits_path hRight
        rw [hLeft, hRight]
        exact cons_lt_cons_iff.mpr (Or.inl hLt)

theorem path_inRange (hProper : Proper levels rows) (h : visit ∈ trace levels rows accepts resume) :
    InRange ((levels.map Level.base).take visit.path.length) visit.path := by
  induction levels generalizing rows accepts resume visit with
  | nil => cases h
  | cons level levels ih =>
    have hBase := hProper.1
    rcases Iff.mp mem_trace_cons h with ⟨_, rfl⟩ | ⟨found, row, hFound, hRow, _, hVisit⟩
    · exact inRange_cons.mpr ⟨by omega, by simp [InRange]⟩
    · have hRange := (hProper.2.1 found hFound).2 row hRow
      rcases hVisit with ⟨_, rfl⟩ | ⟨_, rfl⟩ | ⟨_, below, hBelow, rfl⟩
      · exact inRange_cons.mpr ⟨hRange, by simp [InRange]⟩
      · exact inRange_cons.mpr ⟨hRange, by simp [InRange]⟩
      · exact inRange_cons.mpr ⟨hRange, ih (hProper.2.2 row) hBelow⟩

/-- A visit that is not accepted has no solution below it. -/
theorem not_prefix_of_solves (h : visit ∈ trace levels rows accepts resume) (hVerdict : visit.verdict ≠ .accepted)
    (hSolves : Solves levels rows accepts path) : ¬ visit.path <+: path := by
  induction levels generalizing rows accepts resume visit path with
  | nil => cases h
  | cons level levels ih =>
    cases path with
    | nil => cases hSolves
    | cons first path =>
      obtain ⟨⟨found, hFound, _⟩, hAccepts, hRest⟩ := hSolves
      intro hPrefix
      rcases Iff.mp mem_trace_cons h with ⟨hNone, rfl⟩ | ⟨_, row, _, _, _, ⟨hReject, rfl⟩ | ⟨_, rfl⟩ | ⟨_, below, hBelow, rfl⟩⟩
      · rw [hFound] at hNone
        cases hNone
      · obtain ⟨rfl, _⟩ := cons_prefix_cons.mp hPrefix
        rw [hReject] at hAccepts
        cases hAccepts
      · exact hVerdict rfl
      · obtain ⟨rfl, hBelowPrefix⟩ := cons_prefix_cons.mp hPrefix
        exact ih hBelow hVerdict hRest hBelowPrefix

/-- An accepted visit of the innermost level is a solution above the floors. -/
theorem solves_of_leaf (h : visit ∈ trace levels rows accepts resume) (hVerdict : visit.verdict = .accepted)
    (hLeaf : visit.leaf = true) : Solves levels rows accepts visit.path := by
  induction levels generalizing rows accepts resume visit with
  | nil => cases h
  | cons level levels ih =>
    rcases Iff.mp mem_trace_cons h with ⟨_, rfl⟩ | ⟨found, row, hFound, hRow, _, hVisit⟩
    · cases hVerdict
    · rcases hVisit with ⟨_, rfl⟩ | ⟨hAccepts, rfl⟩ | ⟨hAccepts, below, hBelow, rfl⟩
      · cases hVerdict
      · cases levels with
        | nil => exact ⟨⟨found, hFound, hRow⟩, hAccepts, rfl⟩
        | cons _ _ => cases hLeaf
      · exact ⟨⟨found, hFound, hRow⟩, hAccepts, ih hBelow hVerdict hLeaf⟩

/-- Every solution above the floors and, in a resumed run, at or above the marks is visited. -/
theorem exists_visit_of_solves (hProper : Proper levels rows) (h : Solves levels rows accepts path)
    (hFloor : List.Forall₂ (fun level row => level.floor < row) levels path)
    (hMark : resume = true → levels.map Level.mark ≤ path) (hNonempty : levels ≠ []) :
    ∃ visit ∈ trace levels rows accepts resume,
      visit.path = path ∧ visit.verdict = .accepted ∧ visit.leaf = true := by
  induction levels generalizing rows accepts resume path with
  | nil => exact absurd rfl hNonempty
  | cons level levels ih =>
    cases path with
    | nil => cases h
    | cons row path =>
      obtain ⟨⟨found, hFound, hRow⟩, hAccepts, hRest⟩ := h
      obtain ⟨hAbove, hFloor⟩ := List.forall₂_cons.mp hFloor
      have hNonneg := ((hProper.2.1 found hFound).2 row hRow).1
      have hStart : level.start resume ≤ row := by
        unfold Level.start
        cases resume with
        | false => simp; omega
        | true =>
          rcases cons_le_cons_iff.mp (hMark rfl) with hLt | ⟨hEq, _⟩ <;> simp <;> omega
      cases levels with
      | nil =>
        cases hRest
        exact ⟨_, Iff.mpr mem_trace_cons (Or.inr ⟨found, row, hFound, hRow, hStart, Or.inr (Or.inl ⟨hAccepts, rfl⟩)⟩),
          rfl, rfl, rfl⟩
      | cons next levels =>
        have hMarkRest : (resume && row == level.mark) = true → (next :: levels).map Level.mark ≤ path := by
          intro hResume
          simp only [Bool.and_eq_true, beq_iff_eq] at hResume
          rcases cons_le_cons_iff.mp (hMark hResume.1) with hLt | ⟨_, hLe⟩
          · omega
          · exact hLe
        obtain ⟨below, hBelow, hPath, hVerdict, hLeaf⟩ := ih (hProper.2.2 row) hRest hFloor hMarkRest (by simp)
        exact ⟨below.under row, Iff.mpr mem_trace_cons (Or.inr ⟨found, row, hFound, hRow, hStart,
          Or.inr (Or.inr ⟨hAccepts, below, hBelow, rfl⟩)⟩), by simp [Visit.under, hPath], hVerdict, hLeaf⟩

/-- When the marks are the larger of the floors and a counter, every visit of a resumed run
lies on the way down to that counter or above it. -/
theorem prefix_or_lt_of_resume {counter : List Int} (hRange : InRange (levels.map Level.base) counter)
    (hMark : List.Forall₂ (fun level digit => level.mark = max level.floor digit) levels counter)
    (h : visit ∈ trace levels rows accepts true) : visit.path <+: counter ∨ counter < visit.path := by
  induction levels generalizing rows accepts counter visit with
  | nil => cases h
  | cons level levels ih =>
    cases hMark with
    | @cons _ digit _ digits hMark hMarks =>
      obtain ⟨hDigit, hDigits⟩ := inRange_cons.mp hRange
      have hHead : ∀ row rest, digit ≤ row → (row = digit → rest <+: digits ∨ digits < rest) →
          row :: rest <+: digit :: digits ∨ digit :: digits < row :: rest := by
        intro row rest hLe hRest
        rcases hLe.lt_or_eq with hLt | rfl
        · exact Or.inr (cons_lt_cons_iff.mpr (Or.inl hLt))
        · exact (hRest rfl).imp (prefix_cons_inj _).mpr
            fun hLt => cons_lt_cons_iff.mpr (Or.inr ⟨rfl, hLt⟩)
      rcases Iff.mp mem_trace_cons h with ⟨_, rfl⟩ | ⟨found, row, _, _, hStart, hVisit⟩
      · exact hHead _ [] (by omega) fun _ => Or.inl nil_prefix
      · have hLe : digit ≤ row ∧ level.floor < row := by
          simp only [Level.start, if_true] at hStart
          omega
        rcases hVisit with ⟨_, rfl⟩ | ⟨_, rfl⟩ | ⟨_, below, hBelow, rfl⟩
        · exact hHead row [] hLe.1 fun _ => Or.inl nil_prefix
        · exact hHead row [] hLe.1 fun _ => Or.inl nil_prefix
        · refine hHead row below.path hLe.1 fun hEq => ?_
          have hResume : (true && row == level.mark) = true := by
            rw [Bool.true_and, beq_iff_eq]
            omega
          rw [hResume] at hBelow
          exact ih hDigits hMarks hBelow

/-- A floor at or above the counter's first digit leaves nothing on the way down to it. -/
theorem lt_of_floor {level : Level T} {digit : Int} {digits : List Int} (hRows : rows [] ≠ none)
    (hFloor : digit ≤ level.floor) (h : visit ∈ trace (level :: levels) rows accepts resume) :
    digit :: digits < visit.path := by
  rcases Iff.mp mem_trace_cons h with ⟨hNone, _⟩ | ⟨_, row, _, _, hStart, hVisit⟩
  · exact absurd hNone hRows
  · have hLt : digit < row := by
      simp only [Level.start] at hStart
      omega
    rcases hVisit with ⟨_, rfl⟩ | ⟨_, rfl⟩ | ⟨_, below, _, rfl⟩ <;>
      exact cons_lt_cons_iff.mpr (Or.inl hLt)

end

end KushDB.Loops
