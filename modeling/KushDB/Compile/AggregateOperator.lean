import KushDB.Compile.AggregateCorrectness

/-! # Aggregates without groups

The operator hands every row to all aggregators, so each of them runs on its own. COUNT sets its counter to one at the
first row without looking at the value, and without any row the operator fills its columns with NULL.
-/

namespace KushDB.Plan

open Compile List

section Operator

variable {F Row : Type} {f64 : Float64 F} {enums : EnumManager} {placeholder : Value F}

open AggregateTranslator

/-- After the first row, every row is an update of every entry. -/
theorem foldl_consume (aggregators : List (AggregateExpression F Row)) (entries : List (AggregateEntry F))
    (hLength : aggregators.length = entries.length) (rows : List Row) :
    rows.foldl (consume f64 enums placeholder aggregators) ⟨1, entries⟩ =
      ⟨1, List.zipWith (fun agg entry =>
        (rows.map agg.child).foldl (agg.aggType.update f64 enums placeholder) entry) aggregators entries⟩ := by
  induction rows generalizing entries with
  | nil =>
    have hSame : List.zipWith (fun (_ : AggregateExpression F Row) entry => entry) aggregators entries = entries := by
      refine ext_getElem (by simp [hLength]) fun i _ _ => ?_
      rw [getElem_zipWith]
    exact congrArg (AggregateState.mk 1) hSame.symm
  | cons row rows ih =>
    rw [foldl_cons, consume, if_neg Int.one_ne_zero, ih _ (by simp [hLength])]
    refine congrArg (AggregateState.mk 1) (ext_getElem? fun i => ?_)
    simp only [getElem?_zipWith]
    cases aggregators[i]? <;> cases entries[i]? <;> rfl

/-- Each column is what its aggregator computes from the first row and the others. -/
theorem produce_cons (aggregators : List (AggregateExpression F Row)) (entries : List (AggregateEntry F))
    (hLength : aggregators.length = entries.length) (first : Row) (rest : List Row) :
    produce f64 enums placeholder aggregators entries (first :: rest) =
      List.zipWith (fun agg entry =>
        agg.aggType.fold f64 enums placeholder entry (agg.child first) (rest.map agg.child)) aggregators entries := by
  have hState : (first :: rest).foldl (consume f64 enums placeholder aggregators) ⟨0, entries⟩ =
      ⟨1, List.zipWith (fun agg entry => (rest.map agg.child).foldl (agg.aggType.update f64 enums placeholder)
        (agg.aggType.initialise f64 placeholder entry (agg.child first))) aggregators entries⟩ := by
    rw [foldl_cons, consume, if_pos rfl, foldl_consume _ _ (by simp [hLength])]
    refine congrArg (AggregateState.mk 1) (ext_getElem? fun i => ?_)
    simp only [getElem?_zipWith]
    cases aggregators[i]? <;> cases entries[i]? <;> rfl
  rw [produce, hState]
  exact (if_neg Int.one_ne_zero).trans (map_zipWith ..)

end Operator

/-! ## COUNT -/

section Count

variable {F : Type} {f64 : Float64 F} {enums : EnumManager} {placeholder : Value F}
variable {entry : AggregateEntry F}
variable {count : Int}

theorem CountAggregator.update_value (placeholder : Value F) (hFlag : entry.value.nullable = false)
    (hValue : entry.value.value = .bigInt count) (hRange : count.bmod (2 ^ 64) = count) (next : Option (Value F)) :
    (CountAggregator.update placeholder entry next).value.nullable = false ∧
      (CountAggregator.update placeholder entry next).value.value =
        .bigInt ((count + next.toList.length).bmod (2 ^ 64)) := by
  cases next with
  | none =>
    rw [Option.toList_none, length_nil, Nat.cast_zero, add_zero, hRange]
    exact ⟨hFlag, hValue⟩
  | some value => simp [CountAggregator.update, storeNext, StructField.update, hFlag, hValue, Value.number]

/-- The counter grows by the rows with a value, in 64 bits. -/
theorem CountAggregator.foldl_value (hFlag : entry.value.nullable = false) (hValue : entry.value.value = .bigInt count)
    (hRange : count.bmod (2 ^ 64) = count) (rest : List (Option (Value F))) :
    (rest.foldl (AggregateType.count.update f64 enums placeholder) entry).value.get =
      some (.bigInt ((count + rest.reduceOption.length).bmod (2 ^ 64))) := by
  induction rest generalizing entry count with
  | nil =>
    rw [reduceOption_nil, length_nil, Nat.cast_zero, add_zero, hRange]
    simp [StructField.get, hFlag, hValue]
  | cons next rest ih =>
    obtain ⟨hNextFlag, hNextValue⟩ := update_value placeholder hFlag hValue hRange next
    rw [foldl_cons]
    refine (ih hNextFlag hNextValue Int.bmod_bmod).trans ?_
    rw [Int.bmod_add_bmod]
    cases next <;> simp [add_assoc, add_comm]

theorem CountAggregator.fold_eq (hEntry : entry.For .count) (first : Option (Value F)) (rest : List (Option (Value F))) :
    AggregateType.count.fold f64 enums placeholder entry first rest =
      some (.bigInt ((1 + (rest.reduceOption.length : Int)).bmod (2 ^ 64))) := by
  have hFlag : entry.value.nullable = false := hEntry.value
  refine foldl_value ?_ ?_ (by decide) rest
  · exact (StructField.update_nullable _ _ _).trans hFlag
  · simp [AggregateType.initialise, CountAggregator.initialise, storeNext, StructField.update, hFlag]

/-- The counter is right exactly if the first row has a value and the counter does not overflow. -/
theorem bmod_count_iff (first : Option (Value F)) (rest : List (Option (Value F))) :
    (1 + (rest.reduceOption.length : Int)).bmod (2 ^ 64) = ((first :: rest).reduceOption.length : Int) ↔
      first ≠ none ∧ (first :: rest).reduceOption.length < 2 ^ 63 := by
  rw [Int.bmod_def]
  cases first with
  | none =>
    simp only [ne_eq, not_true_eq_false, false_and, iff_false, reduceOption_cons_of_none]
    split <;> omega
  | some value =>
    simp only [ne_eq, reduceCtorEq, not_false_eq_true, true_and, reduceOption_cons_of_some, length_cons]
    split <;> omega

/-- The number of rows on which the expression has a value, as the column of a result. -/
def countColumn {Row : Type} (child : Row → Option (Value F)) (rows : List Row) : Option (Value F) :=
  some (.bigInt (rows.countP fun row => (child row).isSome))

theorem length_reduceOption_map {Row : Type} (child : Row → Option (Value F)) (rows : List Row) :
    (rows.map child).reduceOption.length = rows.countP fun row => (child row).isSome := by
  induction rows with
  | nil => rfl
  | cons row rows ih =>
    cases hChild : child row <;> simp [hChild, ih]

/-- COUNT is the number of rows with a value exactly if the first row has one, up to 64 bits. -/
theorem count_counts_iff {Row : Type} (f64 : Float64 F) (enums : EnumManager) (placeholder : Value F)
    (aggregators : List (AggregateExpression F Row)) (entries : List (AggregateEntry F)) (rows : List Row) (i : Nat)
    (child : Row → Option (Value F)) (entry : AggregateEntry F) (hLength : aggregators.length = entries.length)
    (hAggregator : aggregators[i]? = some ⟨.count, child⟩) (hEntry : entries[i]? = some entry)
    (hFields : entry.For .count) :
    (AggregateTranslator.produce f64 enums placeholder aggregators entries rows)[i]? = some (countColumn child rows) ↔
      (∃ first ∈ rows.head?, child first ≠ none) ∧ rows.countP (fun row => (child row).isSome) < 2 ^ 63 := by
  cases rows with
  | nil =>
    have hNull : (AggregateTranslator.produce f64 enums placeholder aggregators entries [])[i]? = some none := by
      change (aggregators.map fun _ => none)[i]? = some none
      rw [getElem?_map, hAggregator]
      rfl
    rw [hNull]
    simp [countColumn]
  | cons first rest =>
    have hFold : AggregateType.count.fold f64 enums placeholder entry (child first) (rest.map child) = _ :=
      CountAggregator.fold_eq hFields (child first) (rest.map child)
    have hIff := bmod_count_iff (child first) (rest.map child)
    rw [← map_cons, length_reduceOption_map child (first :: rest)] at hIff
    rw [produce_cons aggregators entries hLength, getElem?_zipWith, hAggregator, hEntry]
    dsimp only
    rw [hFold, countColumn, Option.some.injEq, Option.some.injEq, Value.bigInt.injEq, hIff]
    simp

/-- One COUNT over an input with a value in its first row, followed by a NULL. -/
theorem count_counts_two : (AggregateTranslator.produce exactFloat64 ⟨fun _ => []⟩ (.int 0)
    [(⟨.count, id⟩ : AggregateExpression Rat (Option (Value Rat)))] [⟨⟨false, .int 0, false⟩, ⟨false, .int 0, false⟩⟩]
    [some (.int 3), none, some (.int 4)])[0]? = some (countColumn id [some (.int 3), none, some (.int 4)]) :=
  (count_counts_iff exactFloat64 ⟨fun _ => []⟩ (.int 0) _ _ _ 0 id _ rfl rfl rfl ⟨rfl, rfl⟩).mpr
    ⟨⟨some (.int 3), rfl, by simp⟩, by decide⟩

/-- A NULL in the first row is counted, and without a row the result is NULL instead of 0. -/
theorem count_counts_null :
    AggregateTranslator.produce exactFloat64 ⟨fun _ => []⟩ (.int 0)
        [(⟨.count, id⟩ : AggregateExpression Rat (Option (Value Rat)))]
        [⟨⟨false, .int 0, false⟩, ⟨false, .int 0, false⟩⟩] [none] = [some (.bigInt 1)] ∧
      countColumn id [(none : Option (Value Rat))] = some (.bigInt 0) ∧
      AggregateTranslator.produce exactFloat64 ⟨fun _ => []⟩ (.int 0)
        [(⟨.count, id⟩ : AggregateExpression Rat (Option (Value Rat)))]
        [⟨⟨false, .int 0, false⟩, ⟨false, .int 0, false⟩⟩] [] = [none] :=
  ⟨rfl, rfl, rfl⟩

end Count

end KushDB.Plan
