import KushDB.Skinner.Correctness

/-! # The last completed tuple of an episode

`ComputeLastCompletedTuple` works on vectors indexed by table, in three loops over the join order. Listed along the
order, its result is the greatest tuple that continues the rows reached, or the step back from the least one.
A step back from the very first tuple wraps around to the last, which the join state takes for a finished join.
-/

namespace KushDB.Skinner

open Odometer List

section

variable {n : Nat}

/-- A loop that assigns to the entries of some tables. -/
def storeAll (tables : List (Fin n)) (entry : Fin n → Int) (tuple : Fin n → Int) : Fin n → Int :=
  tables.foldl (fun tuple table => Function.update tuple table (entry table)) tuple

/-- The decrementing loop. It is left at the first table that need not borrow. -/
def decrementLoop (cardinality : Fin n → Int) : List (Fin n) → (Fin n → Int) → Fin n → Int
  | [], tuple => tuple
  | table :: tables, tuple =>
    if tuple table = 0 then decrementLoop cardinality tables (Function.update tuple table (cardinality table - 1))
    else Function.update tuple table (tuple table - 1)

def JoinEnvironment.computeLastCompletedTuple (cardinality : Fin n → Int) (order : List (Fin n)) (status : Int)
    (tableCtr : Fin n) (idxArr : Fin n → Int) : Fin n → Int :=
  let lastCompletedTuple := storeAll order idxArr fun _ => 0
  let after := order.drop (if tableCtr ∈ order then order.idxOf tableCtr + 1 else 0)
  let shouldDecrement := status = -2
  if shouldDecrement then decrementLoop cardinality order.reverse (storeAll after (fun _ => 0) lastCompletedTuple)
  else storeAll after (fun table => cardinality table - 1) lastCompletedTuple

/-! ## The loops along an order -/

theorem storeAll_apply (tables : List (Fin n)) (entry tuple : Fin n → Int) (table : Fin n) :
    storeAll tables entry tuple table = if table ∈ tables then entry table else tuple table := by
  induction tables generalizing tuple with
  | nil => rfl
  | cons first tables ih =>
    change storeAll tables entry (Function.update tuple first (entry first)) table = _
    rw [ih]
    by_cases hFirst : table = first
    · subst hFirst
      simp
    · simp [hFirst]

variable {tables : List (Fin n)}

theorem decrementLoop_of_not_mem {cardinality : Fin n → Int} {table : Fin n} (h : table ∉ tables) (tuple : Fin n → Int) :
    decrementLoop cardinality tables tuple table = tuple table := by
  induction tables generalizing tuple with
  | nil => rfl
  | cons first tables ih =>
    obtain ⟨hFirst, hRest⟩ := not_or.mp (mt mem_cons.mpr h)
    rw [decrementLoop]
    split
    · rw [ih hRest, Function.update_of_ne hFirst]
    · rw [Function.update_of_ne hFirst]

/-- The loop comes to the last of its tables if all others have to borrow. -/
theorem decrementLoop_concat (cardinality : Fin n → Int) {last : Fin n} (hNodup : (tables ++ [last]).Nodup)
    (tuple : Fin n → Int) :
    decrementLoop cardinality (tables ++ [last]) tuple =
      if tables.all (tuple · = 0) then
        Function.update (decrementLoop cardinality tables tuple) last
          (if tuple last = 0 then cardinality last - 1 else tuple last - 1)
      else decrementLoop cardinality tables tuple := by
  induction tables generalizing tuple with
  | nil =>
    simp only [nil_append, decrementLoop, all_nil, if_true]
    split <;> rfl
  | cons first tables ih =>
    rw [cons_append] at hNodup ⊢
    obtain ⟨hFresh, hRest⟩ := nodup_cons.mp hNodup
    rw [mem_append, mem_singleton, not_or] at hFresh
    rw [decrementLoop, decrementLoop]
    by_cases hZero : tuple first = 0
    · rw [if_pos hZero, if_pos hZero, ih hRest, Function.update_of_ne (Ne.symm hFresh.2)]
      have hSame : ∀ table ∈ tables,
          Function.update tuple first (cardinality first - 1) table = tuple table := by
        intro table hTable
        have hNe : table ≠ first := fun hEq => hFresh.1 (hEq ▸ hTable)
        rw [Function.update_of_ne hNe]
      have hAll : tables.all (fun table => Function.update tuple first (cardinality first - 1) table = 0) =
          (first :: tables).all (tuple · = 0) := by
        rw [all_cons, decide_eq_true hZero, Bool.true_and, Bool.eq_iff_iff]
        simp only [all_eq_true, decide_eq_true_eq]
        exact forall₂_congr fun table hTable => by rw [hSame table hTable]
      rw [hAll]
    · rw [if_neg hZero, if_neg hZero, if_neg (by simp [hZero])]

variable {order : List (Fin n)}

/-- Along its order, the loop is a step back of the counter. -/
theorem back_map (cardinality : Fin n → Int) (hNodup : order.Nodup) (tuple : Fin n → Int) :
    back (order.map cardinality) (order.map tuple) =
      (order.map (decrementLoop cardinality order.reverse tuple), order.all (tuple · = 0)) := by
  induction order with
  | nil => rfl
  | cons table order ih =>
    obtain ⟨hFresh, hRest⟩ := nodup_cons.mp hNodup
    have hReverse : table ∉ order.reverse := fun hMem => hFresh (mem_reverse.mp hMem)
    have hLoop := decrementLoop_concat cardinality
      (show (order.reverse ++ [table]).Nodup by rw [← reverse_cons]; exact nodup_reverse.mpr hNodup) tuple
    have hKept : ∀ value, order.map (Function.update (decrementLoop cardinality order.reverse tuple) table value) =
        order.map (decrementLoop cardinality order.reverse tuple) := fun value =>
      map_congr_left fun other hOther => by
        have hNe : other ≠ table := fun hEq => hFresh (hEq ▸ hOther)
        rw [Function.update_of_ne hNe]
    rw [all_reverse] at hLoop
    simp only [map_cons, back, ih hRest, reverse_cons, hLoop, all_cons]
    cases hAll : order.all (tuple · = 0) with
    | false => simp [decrementLoop_of_not_mem hReverse]
    | true =>
      by_cases hZero : tuple table = 0
      · simp [hZero, hKept]
      · simp [hZero, hKept]

theorem map_storeAll_drop (hNodup : order.Nodup) (entry idxArr : Fin n → Int) (k : Nat) :
    order.map (storeAll (order.drop k) entry (storeAll order idxArr fun _ => 0)) =
      (order.take k).map idxArr ++ (order.drop k).map entry := by
  have hSplit := hNodup
  rw [← take_append_drop k order] at hSplit
  have hDisjoint := (nodup_append.mp hSplit).2.2
  calc order.map (storeAll (order.drop k) entry (storeAll order idxArr fun _ => 0))
      = (order.take k ++ order.drop k).map (storeAll (order.drop k) entry (storeAll order idxArr fun _ => 0)) := by
        rw [take_append_drop]
    _ = (order.take k).map idxArr ++ (order.drop k).map entry := by
        rw [map_append]
        congr 1
        · refine map_congr_left fun table hTable => ?_
          rw [storeAll_apply, if_neg fun hDrop => hDisjoint table hTable table hDrop rfl, storeAll_apply,
            if_pos (mem_of_mem_take hTable)]
        · refine map_congr_left fun table hTable => ?_
          rw [storeAll_apply, if_pos hTable]

theorem fill_map (missing : Int → Int) (cardinality idxArr : Fin n → Int) (order : List (Fin n)) (k : Nat) :
    fill missing (order.map cardinality) ((order.map idxArr).take k) =
      (order.take k).map idxArr ++ (order.drop k).map fun table => missing (cardinality table) := by
  induction order generalizing k with
  | nil => simp [fill]
  | cons table order ih =>
    cases k with
    | zero => simpa [fill] using ih 0
    | succ k => simpa [fill] using ih k

/-- The vector, listed along the order, is the list the episodes go on with. -/
theorem map_computeLastCompletedTuple (cardinality : Fin n → Int) (hNodup : order.Nodup) (status : Int)
    (tableCtr : Fin n) (idxArr : Fin n → Int) :
    order.map (JoinEnvironment.computeLastCompletedTuple cardinality order status tableCtr idxArr) =
      computeLastCompletedTuple cardinality order status tableCtr idxArr := by
  unfold JoinEnvironment.computeLastCompletedTuple computeLastCompletedTuple
  generalize (if tableCtr ∈ order then order.idxOf tableCtr + 1 else 0) = k
  dsimp only
  split
  · rw [low, fill_map, ← map_storeAll_drop hNodup, back_map cardinality hNodup]
  · rw [high, fill_map, map_storeAll_drop hNodup]

end

/-! ## Exactness -/

section

variable {n : Nat} (cardinality : Fin n → Int) (order : JoinOrder n) (status : Int) (tableCtr : Fin n)
  (idxArr : Fin n → Int)

def IsTuple (x : Fin n → Int) : Prop := ∀ table, 0 ≤ x table ∧ x table < cardinality table

/-- The tables up to the one the table functions stopped at. -/
def JoinOrder.reached : List (Fin n) := order.tables.take (order.tables.idxOf tableCtr + 1)

/-- The tuple that agrees with the row numbers up to the table and is 0 afterwards. -/
def firstCompletion (table : Fin n) : Int := if table ∈ order.reached tableCtr then idxArr table else 0

/-- What the last completed tuple should be. Tuples are compared along the order. -/
structure LastCompletedExact : Prop where
  greatest : status ≠ -2 →
    let final := JoinEnvironment.computeLastCompletedTuple cardinality order.tables status tableCtr idxArr
    IsTuple cardinality final ∧ (∀ table ∈ order.reached tableCtr, final table = idxArr table) ∧
      ∀ x, IsTuple cardinality x → (∀ table ∈ order.reached tableCtr, x table = idxArr table) →
        order.tables.map x ≤ order.tables.map final
  predecessor : status = -2 →
    (∃ x, IsTuple cardinality x ∧ order.tables.map x < order.tables.map (firstCompletion order tableCtr idxArr)) →
    let final := JoinEnvironment.computeLastCompletedTuple cardinality order.tables status tableCtr idxArr
    IsTuple cardinality final ∧
      order.tables.map final < order.tables.map (firstCompletion order tableCtr idxArr) ∧
      ∀ x, IsTuple cardinality x → order.tables.map x < order.tables.map (firstCompletion order tableCtr idxArr) →
        order.tables.map x ≤ order.tables.map final
  incomplete : status = -2 →
    (¬ ∃ x, IsTuple cardinality x ∧ order.tables.map x < order.tables.map (firstCompletion order tableCtr idxArr)) →
    let final := JoinEnvironment.computeLastCompletedTuple cardinality order.tables status tableCtr idxArr
    isJoinCompleted cardinality (order.tables.zip (order.tables.map final)) = false

variable {cardinality order status tableCtr idxArr}

theorem isTuple_iff {x : Fin n → Int} :
    IsTuple cardinality x ↔ InRange (order.tables.map cardinality) (order.tables.map x) := by
  rw [InRange, List.forall₂_map_left_iff, List.forall₂_map_right_iff, List.forall₂_same]
  exact ⟨fun h table _ => h table, fun h table => h table (order.complete table)⟩

theorem map_reached : (order.reached tableCtr).map idxArr =
    (order.tables.map idxArr).take (order.tables.idxOf tableCtr + 1) := by
  rw [JoinOrder.reached, map_take]

theorem agrees_iff {x : Fin n → Int} : (∀ table ∈ order.reached tableCtr, x table = idxArr table) ↔
    (order.reached tableCtr).map idxArr <+: order.tables.map x := by
  rw [← map_inj_left, map_reached, map_reached]
  constructor
  · intro hEq
    rw [← hEq]
    exact take_prefix _ _
  · intro hPrefix
    have hTake := prefix_iff_eq_take.mp hPrefix
    rw [length_take, length_map, ← @List.length_map _ _ order.tables x, ← take_eq_take_min] at hTake
    exact hTake.symm

theorem map_firstCompletion : order.tables.map (firstCompletion order tableCtr idxArr) =
    low (order.tables.map cardinality) ((order.reached tableCtr).map idxArr) := by
  rw [map_reached, low, fill_map]
  nth_rewrite 1 [← take_append_drop (order.tables.idxOf tableCtr + 1) order.tables]
  rw [map_append]
  have hNodup := order.nodup
  rw [← take_append_drop (order.tables.idxOf tableCtr + 1) order.tables] at hNodup
  have hDisjoint := (nodup_append.mp hNodup).2.2
  congr 1
  · exact map_congr_left fun table hTable => if_pos hTable
  · exact map_congr_left fun table hTable =>
      if_neg fun hReached => hDisjoint table hReached table hTable rfl

section

variable (hIdx : IsTuple cardinality idxArr)

include hIdx

theorem reached_inRange : InRange ((order.tables.map cardinality).take ((order.reached tableCtr).map idxArr).length)
    ((order.reached tableCtr).map idxArr) := by
  rw [map_reached]
  exact (isTuple_iff.mp hIdx).take _

theorem firstCompletion_inRange (hCard : ∀ table, 0 < cardinality table) :
    InRange (order.tables.map cardinality) (low (order.tables.map cardinality) ((order.reached tableCtr).map idxArr)) :=
  low_inRange (bases_pos hCard order) (reached_inRange hIdx)

omit hIdx in
theorem map_final : order.tables.map
      (JoinEnvironment.computeLastCompletedTuple cardinality order.tables status tableCtr idxArr) =
    if status = -2 then (back (order.tables.map cardinality)
      (low (order.tables.map cardinality) ((order.reached tableCtr).map idxArr))).1
    else high (order.tables.map cardinality) ((order.reached tableCtr).map idxArr) := by
  rw [map_computeLastCompletedTuple cardinality order.nodup, computeLastCompletedTuple, if_pos (order.complete _),
    map_reached]

section

variable (hCard : ∀ table, 0 < cardinality table)
include hCard

/-- The step back wraps if the rows reached are all the first ones. -/
theorem wraps_iff :
    (back (order.tables.map cardinality)
      (low (order.tables.map cardinality) ((order.reached tableCtr).map idxArr))).2 = true ↔
      ∀ table ∈ order.reached tableCtr, idxArr table = 0 := by
  rw [back_wraps_iff (firstCompletion_inRange hIdx hCard), ← map_firstCompletion, forall_mem_map]
  constructor
  · intro hZero table hReached
    simpa [firstCompletion, hReached] using hZero table (order.complete table)
  · intro hZero table _
    unfold firstCompletion
    split
    · rename_i hReached
      exact hZero table hReached
    · rfl

theorem not_before_of_zero (hZero : ∀ table ∈ order.reached tableCtr, idxArr table = 0) :
    ¬ ∃ x, IsTuple cardinality x ∧ order.tables.map x < order.tables.map (firstCompletion order tableCtr idxArr) := by
  rintro ⟨x, hTuple, hBefore⟩
  have hLow := @firstCompletion_inRange n cardinality order tableCtr idxArr hIdx hCard
  have hRange := (@isTuple_iff n cardinality order x).mp hTuple
  rw [@map_firstCompletion n cardinality, lt_iff_value_lt hRange hLow,
    ((back_spec hLow).2.1 ((wraps_iff hIdx hCard).mpr hZero)).1] at hBefore
  exact absurd hBefore (not_lt.mpr (value_bounds hRange).1)

theorem completed_of_zero (hZero : ∀ table ∈ order.reached tableCtr, idxArr table = 0) :
    isJoinCompleted cardinality (order.tables.zip (order.tables.map
      (JoinEnvironment.computeLastCompletedTuple cardinality order.tables (-2) tableCtr idxArr))) = true := by
  rw [isJoinCompleted_iff (by simp), map_final, if_pos rfl]
  exact back_eq_high (firstCompletion_inRange hIdx hCard) ((wraps_iff hIdx hCard).mpr hZero)

theorem greatest_high (hStatus : status ≠ -2) :
    let final := JoinEnvironment.computeLastCompletedTuple cardinality order.tables status tableCtr idxArr
    IsTuple cardinality final ∧ (∀ table ∈ order.reached tableCtr, final table = idxArr table) ∧
      ∀ x, IsTuple cardinality x → (∀ table ∈ order.reached tableCtr, x table = idxArr table) →
        order.tables.map x ≤ order.tables.map final := by
  intro final
  have hFinal : order.tables.map final = high (order.tables.map cardinality) ((order.reached tableCtr).map idxArr) := by
    rw [map_final, if_neg hStatus]
  refine ⟨(@isTuple_iff n cardinality order final).mpr ?_, agrees_iff.mpr ?_, fun x hTuple hAgrees => ?_⟩
  · rw [hFinal]
    exact high_inRange (bases_pos hCard order) (reached_inRange hIdx)
  · rw [hFinal]
    apply prefix_fill
    rw [map_reached, length_take, length_map, length_map]
    exact min_le_right _ _
  · rw [hFinal]
    exact prefix_le_high ((@isTuple_iff n cardinality order x).mp hTuple) (agrees_iff.mp hAgrees)

theorem predecessor_back (hNonzero : ¬ ∀ table ∈ order.reached tableCtr, idxArr table = 0) :
    let final := JoinEnvironment.computeLastCompletedTuple cardinality order.tables (-2) tableCtr idxArr
    IsTuple cardinality final ∧
      order.tables.map final < order.tables.map (firstCompletion order tableCtr idxArr) ∧
      ∀ x, IsTuple cardinality x → order.tables.map x < order.tables.map (firstCompletion order tableCtr idxArr) →
        order.tables.map x ≤ order.tables.map final := by
  intro final
  have hLow := @firstCompletion_inRange n cardinality order tableCtr idxArr hIdx hCard
  have hStep := eq_false_of_ne_true (mt (wraps_iff hIdx hCard).mp hNonzero)
  have hFinal : order.tables.map final = (back (order.tables.map cardinality)
      (low (order.tables.map cardinality) ((order.reached tableCtr).map idxArr))).1 := by
    rw [map_final, if_pos rfl]
  rw [@map_firstCompletion n cardinality, hFinal]
  refine ⟨(@isTuple_iff n cardinality order final).mpr ?_, back_lt hLow hStep, fun x hTuple hBefore => ?_⟩
  · rw [hFinal]
    exact back_inRange hLow
  · exact (le_back_iff_lt ((@isTuple_iff n cardinality order x).mp hTuple) hLow hStep).mpr hBefore

end

/-- The last completed tuple is exact unless nothing is completed yet. -/
theorem lastCompletedExact_iff (hCard : ∀ table, 0 < cardinality table) :
    LastCompletedExact cardinality order status tableCtr idxArr ↔
      ¬ (status = -2 ∧ ∀ table ∈ order.reached tableCtr, idxArr table = 0) := by
  constructor
  · rintro h ⟨rfl, hZero⟩
    have hCompleted := completed_of_zero hIdx hCard hZero
    exact absurd (hCompleted.symm.trans (h.incomplete rfl (not_before_of_zero hIdx hCard hZero))) (by decide)
  · intro h
    refine ⟨fun hStatus => greatest_high hIdx hCard hStatus, ?_, ?_⟩
    · rintro rfl _
      exact predecessor_back hIdx hCard fun hZero => h ⟨rfl, hZero⟩
    · rintro rfl hNone
      have hBack := predecessor_back hIdx hCard fun hZero => h ⟨rfl, hZero⟩
      exact absurd ⟨_, hBack.1, hBack.2.1⟩ hNone

end

end

def twoTables : Fin 2 → Int
  | 0 => 2
  | 1 => 3

def secondFirst : JoinOrder 2 := ⟨[1, 0], by decide, by decide⟩

/-- Stopped at the second row of the outer table, before the inner one was looked at. -/
theorem lastCompletedExact_secondRow : LastCompletedExact twoTables secondFirst (-2) 1 fun _ => 1 :=
  (lastCompletedExact_iff (by unfold IsTuple; decide) (by decide)).mpr (by decide)

/-- Stopped at the very first row, nothing is completed, and the result is that of a finished join. -/
theorem not_lastCompletedExact_firstRow : ¬ LastCompletedExact twoTables secondFirst (-2) 1 fun _ => 0 := by
  intro h
  have hIdx : IsTuple twoTables fun _ => 0 := by
    unfold IsTuple
    decide
  have hIncomplete := h.incomplete rfl (not_before_of_zero hIdx (by decide) fun _ _ => rfl)
  revert hIncomplete
  decide

end KushDB.Skinner
