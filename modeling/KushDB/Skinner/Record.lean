import KushDB.Skinner.JoinState

/-! # What the join state records

The tuple an order is resumed at stands for exactly the tuples up to the path stored along the order.
An update only moves the records forward, and keeps a root node at most one row ahead of its table's offset.
-/

namespace KushDB.Skinner

open Odometer List

section

variable {n : Nat} {cardinality : Fin n → Int} {join : JoinState n} {order : JoinOrder n}

theorem JoinOrder.perm (order : JoinOrder n) : order.tables.Perm (List.finRange n) :=
  (perm_ext_iff_of_nodup order.nodup (nodup_finRange n)).mpr fun table =>
    ⟨fun _ => mem_finRange table, fun _ => order.complete table⟩

theorem JoinOrder.length_eq (order : JoinOrder n) : order.tables.length = n := by
  rw [order.perm.length_eq, length_finRange]

/-- Orders that agree on all tables but one agree on that one too. -/
theorem JoinOrder.eq_of_take {left right : JoinOrder n} {m : Nat} (hMost : n ≤ m + 1)
    (h : left.tables.take m = right.tables.take m) : left.tables = right.tables := by
  have hLeft := left.length_eq
  have hRight := right.length_eq
  have hDrop : left.tables.drop m ⊆ right.tables.drop m := by
    intro table hTable
    have hSplit := right.complete table
    rw [← take_append_drop m right.tables, ← h] at hSplit
    refine (mem_append.mp hSplit).resolve_left fun hTake => ?_
    have hNodup := left.nodup
    rw [← take_append_drop m left.tables] at hNodup
    exact (nodup_append.mp hNodup).2.2 table hTake table hTable rfl
  have hEq : left.tables.drop m = right.tables.drop m := by
    cases hRest : left.tables.drop m with
    | nil =>
      rw [drop_eq_nil_iff] at hRest
      exact (drop_eq_nil_iff.mpr (by omega)).symm
    | cons table rest =>
      have hCount := congrArg List.length hRest
      simp only [length_drop, length_cons] at hCount
      obtain ⟨other, hOther⟩ : ∃ other, right.tables.drop m = [other] :=
        length_eq_one_iff.mp (by rw [length_drop]; omega)
      have hMem := hDrop (by rw [hRest]; exact mem_cons_self)
      rw [hOther, mem_singleton] at hMem
      rw [hOther, hMem, length_eq_zero_iff.mp (show rest.length = 0 by omega)]
  rw [← take_append_drop m left.tables, ← take_append_drop m right.tables, h, hEq]

theorem lastCompleted_of_full (h : (along join.root order.tables).length = n) :
    join.getLastCompletedTupleIdx cardinality order.tables = some (along join.root order.tables) := by
  rw [JoinState.getLastCompletedTupleIdx, if_pos (h.trans order.length_eq.symm)]

section

variable (hCard : ∀ table, 0 < cardinality table)
  (hPath : InRange ((order.tables.map cardinality).take (along join.root order.tables).length)
    (along join.root order.tables))

include hCard

theorem bases_pos (order : JoinOrder n) : ∀ base ∈ order.tables.map cardinality, 0 < base := by
  intro base hBase
  obtain ⟨table, _, rfl⟩ := mem_map.mp hBase
  exact hCard table

include hPath

theorem lastCompleted_inRange {last : List Int}
    (h : join.getLastCompletedTupleIdx cardinality order.tables = some last) :
    InRange (order.tables.map cardinality) last := by
  unfold JoinState.getLastCompletedTupleIdx at h
  simp only at h
  split at h
  · rename_i hFull
    cases h
    rwa [hFull, take_of_length_le (by simp)] at hPath
  · split at h
    · cases h
    · split at h
      · cases h
      · cases h
        exact back_inRange (low_inRange (bases_pos hCard order) hPath)

/-- The tuples an order need not go through again are those up to the path stored along it. -/
theorem le_lastCompleted_iff (hTables : 0 < n) {tuple : List Int} (hTuple : InRange (order.tables.map cardinality) tuple) :
    (∃ last, join.getLastCompletedTupleIdx cardinality order.tables = some last ∧ tuple ≤ last) ↔
      tuple ≤ along join.root order.tables := by
  have hLength := hTuple.length_eq
  rw [length_map] at hLength
  have hOrder := order.length_eq
  unfold JoinState.getLastCompletedTupleIdx
  simp only
  split
  · simp
  · rename_i hPartial
    have hShort : (along join.root order.tables).length < (order.tables.map cardinality).length := by
      have hLe := along_length_le join.root order.tables
      rw [length_map]
      omega
    have hLow := low_inRange (bases_pos hCard order) hPath
    split
    · rename_i hEmpty
      rw [List.isEmpty_iff.mp hEmpty]
      constructor
      · rintro ⟨_, hNone, _⟩
        cases hNone
      · intro hLe
        cases tuple with
        | nil =>
          rw [length_nil] at hLength
          omega
        | cons digit digits => exact absurd (nil_lt_cons digit digits) (not_lt.mpr hLe)
    · rw [← lt_low_iff hTuple hShort]
      cases hStep : (back (order.tables.map cardinality) (low (order.tables.map cardinality)
        (along join.root order.tables))).2 with
      | true =>
        simp only [if_true, reduceCtorEq, false_and, exists_false, false_iff, not_lt]
        have hZero := ((back_spec hLow).2.1 hStep).1
        rw [le_iff_value_le hLow hTuple, hZero]
        exact (value_bounds hTuple).1
      | false =>
        simpa using le_back_iff_lt hTuple hLow hStep

end

/-! ## Updates -/

variable {tables : List (Fin n)} {tuple rest : List Int} {first : Fin n} {row : Int}

theorem isJoinCompleted_iff (h : tables.length = tuple.length) :
    isJoinCompleted cardinality (tables.zip tuple) = true ↔ tuple = high (tables.map cardinality) [] := by
  induction tables generalizing tuple with
  | nil => simp [isJoinCompleted, high, fill, length_eq_zero_iff.mp h.symm]
  | cons table tables ih =>
    cases tuple with
    | nil => cases h
    | cons digit tuple =>
      have hRest := ih (show tables.length = tuple.length by simpa using h)
      simp only [isJoinCompleted, zip_cons_cons, all_cons, Bool.and_eq_true, beq_iff_eq] at hRest ⊢
      rw [hRest]
      exact cons_eq_cons.symm

variable {next : JoinState n}

/-- What an update that does not throw does to a join that is not finished. -/
theorem update_ok (h : join.update cardinality tables tuple = .ok next) (hLength : tables.length = tuple.length) :
    join.finished = false ∧
      ((tuple = high (tables.map cardinality) [] ∧ next = { join with finished := true }) ∨
        (tuple ≠ high (tables.map cardinality) [] ∧ ∃ root, updateTree (tables.zip tuple) join.root = .ok root ∧
          next = ⟨false, root, updateOffset cardinality join.offset (tables.zip tuple)⟩)) := by
  unfold JoinState.update at h
  simp only at h
  split at h
  · cases h
  · rename_i hFinished
    have hFalse : join.finished = false := by simpa using hFinished
    refine ⟨hFalse, ?_⟩
    split at h
    · rename_i hDone
      cases h
      exact Or.inl ⟨(isJoinCompleted_iff hLength).mp hDone, rfl⟩
    · rename_i hDone
      right
      refine ⟨fun hEq => hDone ((isJoinCompleted_iff hLength).mpr hEq), ?_⟩
      cases hRoot : updateTree (tables.zip tuple) join.root with
      | error error => simp [hRoot, Except.map] at h
      | ok root =>
        simp only [hRoot, Except.map, Except.ok.injEq] at h
        exact ⟨root, rfl, by rw [← h, hFalse]⟩

/-- The row up to which an update finishes the first table. -/
def finishedRow (cardinality : Fin n → Int) (tables : List (Fin n)) (row : Int) (rest : List Int) : Int :=
  if rest = high (tables.map cardinality) [] then row else row - 1

theorem updateOffset_cons (h : tables.length = rest.length) (offset : Fin n → Int) :
    updateOffset cardinality offset ((first :: tables).zip (row :: rest)) =
      Function.update offset first (max (finishedRow cardinality tables row rest) (offset first)) := by
  rw [zip_cons_cons, updateOffset, finishedRow]
  simp only [← isJoinCompleted_iff h]

theorem le_updateOffset (offset : Fin n → Int) (path : List (Fin n × Int)) (table : Fin n) :
    offset table ≤ updateOffset cardinality offset path table := by
  unfold updateOffset
  split
  · exact le_rfl
  · rename_i first _ _
    by_cases hSame : table = first
    · subst hSame
      simp
    · simp [Function.update_of_ne hSame]

theorem row_le_finishedRow (tables : List (Fin n)) (row : Int) (rest : List Int) :
    row - 1 ≤ finishedRow cardinality tables row rest := by
  unfold finishedRow
  split <;> omega

theorem finishedRow_le_updateOffset (h : tables.length = rest.length) (offset : Fin n → Int) :
    finishedRow cardinality tables row rest ≤
      updateOffset cardinality offset ((first :: tables).zip (row :: rest)) first := by
  rw [updateOffset_cons h, Function.update_self]
  exact le_max_left _ _

theorem updateOffset_le (hTuple : InRange ((first :: tables).map cardinality) (row :: rest))
    (hOpen : row :: rest ≠ high ((first :: tables).map cardinality) []) {offset : Fin n → Int}
    (hOffset : ∀ table, offset table ≤ cardinality table - 2) (table : Fin n) :
    updateOffset cardinality offset ((first :: tables).zip (row :: rest)) table ≤ cardinality table - 2 := by
  obtain ⟨hRow, hRest⟩ := inRange_cons.mp hTuple
  rw [updateOffset_cons (by simpa using hRest.length_eq)]
  by_cases hSame : table = first
  · subst hSame
    have hFinished : finishedRow cardinality tables row rest ≤ cardinality table - 2 := by
      unfold finishedRow
      split
      · rename_i hDone
        have hNe : row ≠ cardinality table - 1 := fun hEq => hOpen (by rw [hEq, hDone]; rfl)
        omega
      · omega
    simpa using ⟨hFinished, hOffset table⟩
  · rw [Function.update_of_ne hSame]
    exact hOffset table

/-- What every update keeps true of the join state. -/
structure Recorded (cardinality : Fin n → Int) (join : JoinState n) : Prop where
  inRange : ∀ order : JoinOrder n, InRange ((order.tables.map cardinality).take (along join.root order.tables).length)
    (along join.root order.tables)
  offset_ge : ∀ table, -1 ≤ join.offset table
  offset_le : ∀ table, join.offset table ≤ cardinality table - 2
  root_le : ∀ table stored, along join.root [table] = [stored] → stored - 1 ≤ join.offset table
  last_le : ∀ (order : JoinOrder n) first rest stored, order.tables = first :: rest →
    along join.root order.tables = stored :: high (rest.map cardinality) [] → stored ≤ join.offset first
  /-- Two orders never part at their last table. -/
  length_ne : ∀ order : JoinOrder n, (along join.root order.tables).length + 1 = n → n = 1

theorem recorded_initial (hCard : ∀ table, 0 < cardinality table) : Recorded cardinality (.initial : JoinState n) where
  inRange order := by simp [JoinState.initial, along_null, InRange]
  offset_ge table := le_rfl
  offset_le table := by
    have := hCard table
    simp only [JoinState.initial]
    omega
  root_le table stored h := by cases h
  last_le order first rest stored hOrder h := by simp [JoinState.initial, along_null] at h
  length_ne order h := by simpa [JoinState.initial, along_null] using h.symm

theorem Recorded.update (h : Recorded cardinality join) (hTuple : InRange (order.tables.map cardinality) tuple)
    (hUpdate : join.update cardinality order.tables tuple = .ok next) : Recorded cardinality next := by
  have hLength : order.tables.length = tuple.length := by simpa using hTuple.length_eq
  obtain ⟨_, ⟨_, rfl⟩ | ⟨hOpen, root, hRoot, rfl⟩⟩ := update_ok hUpdate hLength
  · exact ⟨h.inRange, h.offset_ge, h.offset_le, h.root_le, h.last_le, h.length_ne⟩
  · have hAlong := along_updateTree hLength hRoot
    refine ⟨fun other => ?_, fun table => ?_, fun table => ?_, fun table stored hStored => ?_,
      fun other first rest stored hOther hStored => ?_, fun other hShort => ?_⟩
    · rcases hAlong other.tables with hKept | ⟨m, hTake, hNew, _⟩
      · rw [hKept]
        exact h.inRange other
      · have hLe : (tuple.take m).length ≤ m := by simp
        have hBases : (other.tables.map cardinality).take (tuple.take m).length =
            (order.tables.map cardinality).take (tuple.take m).length := by
          rw [← min_eq_left hLe, ← take_take, ← map_take, hTake, map_take, take_take]
        simp only [hNew, hBases]
        exact hTuple.take m
    · exact (h.offset_ge table).trans (le_updateOffset _ _ _)
    · cases hTables : order.tables with
      | nil => exact absurd (order.complete table) (by simp [hTables])
      | cons first tables =>
        rw [hTables] at hTuple hOpen
        cases tuple with
        | nil => cases hTuple
        | cons row digits => exact updateOffset_le hTuple hOpen h.offset_le table
    · rcases hAlong [table] with hKept | ⟨m, hTake, hNew, _⟩
      · exact (h.root_le table stored (hKept.symm.trans hStored)).trans (le_updateOffset _ _ _)
      · rw [hStored] at hNew
        obtain ⟨m, rfl⟩ : ∃ rest, m = rest + 1 := Nat.exists_eq_succ_of_ne_zero (by rintro rfl; simp at hNew)
        cases hTables : order.tables with
        | nil => exact absurd (order.complete table) (by simp [hTables])
        | cons first tables =>
          cases tuple with
          | nil => cases hNew
          | cons row digits =>
            rw [hTables, take_succ_cons, take_succ_cons] at hTake
            obtain ⟨rfl, _⟩ := cons_eq_cons.mp hTake
            obtain ⟨rfl, _⟩ := cons_eq_cons.mp hNew
            exact (row_le_finishedRow tables stored digits).trans
              (finishedRow_le_updateOffset (by simpa [hTables] using hLength) _)
    · rcases hAlong other.tables with hKept | ⟨m, hTake, hNew, _⟩
      · exact (h.last_le other first rest stored hOther (hKept.symm.trans hStored)).trans (le_updateOffset _ _ _)
      · have hFull : n ≤ m := by
          have hCount := congrArg List.length (hNew.symm.trans hStored)
          have hOtherLength := other.length_eq
          simp only [length_take, length_cons, high, fill_length, length_map, hOther] at hCount hOtherLength
          omega
        rw [JoinOrder.eq_of_take (by omega) hTake] at hOther hStored
        rw [along_updateTree_self hLength hRoot] at hStored
        subst hStored
        rw [hOther] at hLength ⊢
        refine le_of_eq_of_le ?_ (finishedRow_le_updateOffset (by simpa using hLength) _)
        rw [finishedRow, if_pos rfl]
    · rcases hAlong other.tables with hKept | ⟨m, hTake, hNew, _⟩
      · exact h.length_ne other (by rwa [hKept] at hShort)
      · rw [hNew, length_take, ← hLength, order.length_eq] at hShort
        have hSame := JoinOrder.eq_of_take (show n ≤ m + 1 by omega) hTake
        rw [hSame, along_updateTree_self hLength hRoot] at hNew
        have hFull := congrArg List.length hNew
        rw [length_take, ← hLength, order.length_eq] at hFull
        omega

end

end KushDB.Skinner
