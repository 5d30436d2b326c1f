import KushDB.Skinner.Levels
import Mathlib.Data.List.Enum

/-! # Predicate flags

The permutable engine compiles one function for each table and switches conditions on and off by flags. The
translator allocates a flag for every pair of a condition and a table of it, except for the first table
of the `PrefixOrder`, and before each episode `TogglePredicateFlags` sets the flag of each condition at the
table where all its flagged tables have been joined.
-/

namespace KushDB.Skinner

open List

/-- The iteration orders of the hash containers, which nothing fixes. -/
structure HashOrder (n : Nat) where
  tables : List (Fin n) → List (Fin n)
  tables_perm : ∀ list, (tables list).Perm list
  entries : List ((Nat × Fin n) × Nat) → List ((Nat × Fin n) × Nat)
  entries_perm : ∀ list, (entries list).Perm list

inductive JoinError
  | outOfRange
  | alreadyDone
  | negativeProgress
  | stuck
deriving DecidableEq

structure ToggleState (n : Nat) where
  availableTables : List (Fin n)
  executedPreds : List Nat
  flagArr : Nat → Bool

section

variable {n : Nat} {V : Type}

def Query.flagKeys (q : Query n V) (hash : HashOrder n) : List (Nat × Fin n) :=
  q.conditions.zipIdx.flatMap fun (condition, pred) =>
    ((hash.tables condition.tables).filter fun table => q.prefixOrder.head? ≠ some table).map fun table => (pred, table)

/-- `pred_table_to_flag_`, flags being numbered as they are allocated. -/
def Query.predTableToFlag (q : Query n V) (hash : HashOrder n) : List ((Nat × Fin n) × Nat) :=
  (q.flagKeys hash).zipIdx

variable (flagMap : List ((Nat × Fin n) × Nat))

def allTablesAvailable (pred : Nat) (availableTables : List (Fin n)) : Bool :=
  (List.finRange n).all fun table => (flagMap.lookup (pred, table)).isNone || availableTables.contains table

def togglePred (table : Fin n) (state : ToggleState n) (pred : Nat) : Except JoinError (ToggleState n) :=
  if state.executedPreds.contains pred then .ok state
  else if allTablesAvailable flagMap pred state.availableTables then
    match flagMap.lookup (pred, table) with
    | none => .error .outOfRange
    | some flag => .ok { state with
        executedPreds := pred :: state.executedPreds
        flagArr := Function.update state.flagArr flag true }
  else .ok state

def toggleTable (numPreds : Nat) (state : ToggleState n) (table : Fin n) : Except JoinError (ToggleState n) :=
  (List.range numPreds).foldlM (togglePred flagMap table)
    { state with availableTables := table :: state.availableTables }

def togglePredicateFlags (numPreds numFlags : Nat) (order : List (Fin n)) (flagArr : Nat → Bool) :
    Except JoinError (Nat → Bool) :=
  (order.foldlM (toggleTable flagMap numPreds)
    ⟨[], [], fun flag => if flag < numFlags then false else flagArr flag⟩).map ToggleState.flagArr

end

/-! ## The flag map -/

section

theorem lookup_eq_some {α β : Type} [BEq α] [LawfulBEq α] {entries : List (α × β)} (hNodup : (entries.map Prod.fst).Nodup)
    {key : α} {value : β} : entries.lookup key = some value ↔ (key, value) ∈ entries := by
  induction entries with
  | nil => simp
  | cons entry entries ih =>
    obtain ⟨hFresh, hRest⟩ := nodup_cons.mp hNodup
    obtain ⟨first, stored⟩ := entry
    rw [lookup_cons, mem_cons]
    by_cases hKey : key = first
    · subst hKey
      have hNot : (key, value) ∉ entries := fun hMem => hFresh (mem_map.mpr ⟨_, hMem, rfl⟩)
      simp [hNot, eq_comm]
    · simpa [beq_eq_false_iff_ne.mpr hKey, hKey] using ih hRest

variable {n : Nat} {V : Type} {q : Query n V} {hash : HashOrder n}

theorem flagKeys_nodup : (q.flagKeys hash).Nodup := by
  unfold Query.flagKeys
  rw [nodup_flatMap]
  constructor
  · rintro ⟨condition, pred⟩ _
    have hTables : (hash.tables condition.tables).Nodup :=
      (hash.tables_perm _).nodup_iff.mpr (nodup_dedup _)
    exact (hTables.filter _).map fun _ _ hEq => (Prod.mk.inj hEq).2
  · have hIndex : (q.conditions.zipIdx.map Prod.snd).Nodup := by
      rw [zipIdx_map_snd]
      exact nodup_range'
    refine (pairwise_map.mp hIndex).imp ?_
    rintro ⟨_, pred⟩ ⟨_, other⟩ hNe ⟨first, table⟩ hLeft hRight
    obtain ⟨_, _, hLeft⟩ := mem_map.mp hLeft
    obtain ⟨_, _, hRight⟩ := mem_map.mp hRight
    exact hNe ((Prod.mk.inj hLeft).1.trans (Prod.mk.inj hRight).1.symm)

theorem mem_flagKeys {pred : Nat} {table : Fin n} :
    (pred, table) ∈ q.flagKeys hash ↔ ∃ condition, q.conditions[pred]? = some condition ∧
      table ∈ condition.tables ∧ q.prefixOrder.head? ≠ some table := by
  simp only [Query.flagKeys, mem_flatMap, Prod.exists, mem_map, mem_filter, Prod.mk.injEq,
    mem_zipIdx_iff_getElem?, (hash.tables_perm _).mem_iff, decide_eq_true_eq]
  constructor
  · rintro ⟨condition, _, hCondition, _, hTable, rfl, rfl⟩
    exact ⟨condition, hCondition, hTable⟩
  · rintro ⟨condition, hCondition, hTable⟩
    exact ⟨condition, pred, hCondition, table, hTable, rfl, rfl⟩

theorem predTableToFlag_keys : (q.predTableToFlag hash).map Prod.fst = q.flagKeys hash := by
  simp [Query.predTableToFlag]

variable {pred : Nat} {table : Fin n}

theorem lookup_predTableToFlag {flag : Nat} :
    (q.predTableToFlag hash).lookup (pred, table) = some flag ↔ (q.flagKeys hash)[flag]? = some (pred, table) := by
  rw [lookup_eq_some (predTableToFlag_keys ▸ flagKeys_nodup), Query.predTableToFlag, mem_zipIdx_iff_getElem?]

/-- A condition has a flag at its tables other than the first one of the prefix. -/
theorem isSome_lookup_predTableToFlag :
    ((q.predTableToFlag hash).lookup (pred, table)).isSome = true ↔ ∃ condition,
      q.conditions[pred]? = some condition ∧ table ∈ condition.tables ∧ q.prefixOrder.head? ≠ some table := by
  rw [← @mem_flagKeys n V q hash, Option.isSome_iff_exists, mem_iff_getElem?]
  simp only [lookup_predTableToFlag]

end

/-! ## Toggling -/

section

variable {n : Nat} {flagMap : List ((Nat × Fin n) × Nat)}
variable {pred numPreds : Nat}

theorem allTablesAvailable_iff {availableTables : List (Fin n)} :
    allTablesAvailable flagMap pred availableTables = true ↔
      ∀ table, (flagMap.lookup (pred, table)).isSome = true → table ∈ availableTables := by
  simp only [allTablesAvailable, all_eq_true, mem_finRange, true_implies, Bool.or_eq_true,
    contains_iff_mem, ← Option.not_isSome, Bool.not_eq_true', ← Bool.not_eq_true, ← imp_iff_not_or]

/-- One table switches on the conditions that have become available with it. -/
theorem foldlM_togglePred {table : Fin n} {preds : List Nat} (hNodup : preds.Nodup) {state : ToggleState n}
    (hFlags : ∀ pred ∈ preds, pred ∉ state.executedPreds →
      allTablesAvailable flagMap pred state.availableTables = true → (flagMap.lookup (pred, table)).isSome = true) :
    ∃ final, preds.foldlM (togglePred flagMap table) state = .ok final ∧
      final.availableTables = state.availableTables ∧
      (∀ pred, pred ∈ final.executedPreds ↔ pred ∈ state.executedPreds ∨
        pred ∈ preds ∧ allTablesAvailable flagMap pred state.availableTables = true) ∧
      ∀ flag, final.flagArr flag = true ↔ state.flagArr flag = true ∨ ∃ pred ∈ preds, pred ∉ state.executedPreds ∧
        allTablesAvailable flagMap pred state.availableTables = true ∧ flagMap.lookup (pred, table) = some flag := by
  induction preds generalizing state with
  | nil => exact ⟨state, rfl, rfl, by simp, by simp⟩
  | cons pred preds ih =>
    obtain ⟨hFresh, hRest⟩ := nodup_cons.mp hNodup
    rw [foldlM_cons, togglePred]
    by_cases hExecuted : pred ∈ state.executedPreds
    · rw [if_pos (by simpa using hExecuted)]
      obtain ⟨final, hFinal, hTables, hPreds, hArr⟩ := ih hRest fun other hOther => hFlags other (by simp [hOther])
      refine ⟨final, hFinal, hTables, fun other => ?_, fun flag => ?_⟩
      · rw [hPreds, mem_cons]
        grind
      · rw [hArr]
        simp [hExecuted]
    · rw [if_neg (by simpa using hExecuted)]
      by_cases hAvailable : allTablesAvailable flagMap pred state.availableTables = true
      · obtain ⟨flag, hFlag⟩ := Option.isSome_iff_exists.mp (hFlags pred (by simp) hExecuted hAvailable)
        rw [if_pos hAvailable, hFlag]
        obtain ⟨final, hFinal, hTables, hPreds, hArr⟩ := @ih hRest
          { state with executedPreds := pred :: state.executedPreds, flagArr := Function.update state.flagArr flag true }
          fun other hOther hNot => hFlags other (by simp [hOther]) (by simp_all)
        refine ⟨final, hFinal, hTables, fun other => ?_, fun other => ?_⟩
        · rw [hPreds]
          simp only [mem_cons]
          grind
        · rw [hArr]
          simp only [Function.update_apply, mem_cons]
          grind
      · rw [if_neg hAvailable]
        obtain ⟨final, hFinal, hTables, hPreds, hArr⟩ := ih hRest fun other hOther => hFlags other (by simp [hOther])
        refine ⟨final, hFinal, hTables, fun other => ?_, fun flag => ?_⟩
        · rw [hPreds, mem_cons]
          grind
        · rw [hArr]
          simp [hAvailable]

variable {table : Fin n} {order : List (Fin n)}

theorem foldlM_togglePred_error {preds : List Nat} (hNodup : preds.Nodup) {state : ToggleState n} (hPred : pred ∈ preds)
    (hExecuted : pred ∉ state.executedPreds) (hAvailable : allTablesAvailable flagMap pred state.availableTables = true)
    (hFlag : flagMap.lookup (pred, table) = none) :
    preds.foldlM (togglePred flagMap table) state = .error .outOfRange := by
  induction preds generalizing state with
  | nil => cases hPred
  | cons first preds ih =>
    obtain ⟨hFresh, hRest⟩ := nodup_cons.mp hNodup
    rw [foldlM_cons]
    by_cases hFirst : pred = first
    · rw [togglePred, ← hFirst, if_neg (by simpa using hExecuted), if_pos hAvailable, hFlag]
      rfl
    · have hIn : pred ∈ preds := by simpa [hFirst] using hPred
      unfold togglePred
      split
      · exact ih hRest hIn hExecuted hAvailable
      · split
        · split
          · rfl
          · exact ih hRest hIn (by simpa [hFirst] using hExecuted) hAvailable
        · exact ih hRest hIn hExecuted hAvailable

/-- The flag is that of a condition at the last of its flagged tables. -/
def SetAlong (flagMap : List ((Nat × Fin n) × Nat)) (numPreds : Nat) (order : List (Fin n)) (flag : Nat) : Prop :=
  ∃ pred < numPreds, ∃ table before after, order = before ++ table :: after ∧
    flagMap.lookup (pred, table) = some flag ∧
    ∀ other, (flagMap.lookup (pred, other)).isSome = true → other ∈ before ∨ other = table

theorem setAlong_append {flag : Nat} :
    SetAlong flagMap numPreds (order ++ [table]) flag ↔ SetAlong flagMap numPreds order flag ∨
      ∃ pred < numPreds, flagMap.lookup (pred, table) = some flag ∧
        ∀ other, (flagMap.lookup (pred, other)).isSome = true → other ∈ order ∨ other = table := by
  constructor
  · rintro ⟨pred, hPred, last, before, after, hOrder, hFlag, hTables⟩
    rcases eq_nil_or_concat after with rfl | ⟨rest, final, rfl⟩
    · obtain ⟨rfl, hEq⟩ := append_inj' hOrder rfl
      cases hEq
      exact Or.inr ⟨pred, hPred, hFlag, hTables⟩
    · rw [concat_eq_append, ← cons_append, ← append_assoc] at hOrder
      exact Or.inl ⟨pred, hPred, last, before, rest, (append_inj' hOrder rfl).1, hFlag, hTables⟩
  · rintro (⟨pred, hPred, last, before, after, rfl, hFlag, hTables⟩ | ⟨pred, hPred, hFlag, hTables⟩)
    · exact ⟨pred, hPred, last, before, after ++ [table], by simp, hFlag, hTables⟩
    · exact ⟨pred, hPred, table, order, [], by simp, hFlag, hTables⟩

/-- After the tables of a partial order, the conditions whose flagged tables are among them have been switched on. -/
theorem foldlM_toggleTable (hFlags : ∀ pred < numPreds, ∃ table, (flagMap.lookup (pred, table)).isSome = true)
    (hNodup : order.Nodup) (flagArr : Nat → Bool) :
    ∃ final, order.foldlM (toggleTable flagMap numPreds) ⟨[], [], flagArr⟩ = .ok final ∧
      (∀ table, table ∈ final.availableTables ↔ table ∈ order) ∧
      (∀ pred, pred ∈ final.executedPreds ↔ pred < numPreds ∧
        ∀ table, (flagMap.lookup (pred, table)).isSome = true → table ∈ order) ∧
      ∀ flag, final.flagArr flag = true ↔ flagArr flag = true ∨ SetAlong flagMap numPreds order flag := by
  induction order using List.reverseRecOn with
  | nil =>
    refine ⟨_, rfl, by simp, fun pred => ?_, fun flag => by simp [SetAlong]⟩
    simp only [not_mem_nil, false_iff, not_and, not_forall]
    intro hPred
    obtain ⟨table, hTable⟩ := hFlags pred hPred
    exact ⟨table, hTable, id⟩
  | append_singleton order table ih =>
    have hFresh : table ∉ order := fun hMem => (nodup_append.mp hNodup).2.2 _ hMem _ (by simp) rfl
    obtain ⟨state, hState, hTables, hPreds, hArr⟩ := ih (nodup_append.mp hNodup).1
    have hAvailable : ∀ pred, allTablesAvailable flagMap pred (table :: state.availableTables) = true ↔
        ∀ other, (flagMap.lookup (pred, other)).isSome = true → other ∈ order ∨ other = table := by
      intro pred
      rw [allTablesAvailable_iff]
      simp only [mem_cons, hTables, or_comm]
    -- A condition that became available only now has a flag at this table.
    have hNew : ∀ pred < numPreds, pred ∉ state.executedPreds →
        allTablesAvailable flagMap pred (table :: state.availableTables) = true →
          (flagMap.lookup (pred, table)).isSome = true := by
      intro pred hPred hNot hAll
      rw [hPreds, not_and, not_forall] at hNot
      obtain ⟨other, hOther⟩ := hNot hPred
      obtain ⟨hSome, hOut⟩ := Classical.not_imp.mp hOther
      rw [← ((hAvailable pred).mp hAll other hSome).resolve_left hOut]
      exact hSome
    obtain ⟨final, hFinal, hFinalTables, hFinalPreds, hFinalArr⟩ := @foldlM_togglePred n flagMap table
      (List.range numPreds) nodup_range { state with availableTables := table :: state.availableTables }
      fun pred hPred => hNew pred (mem_range.mp hPred)
    refine ⟨final, ?_, fun other => ?_, fun pred => ?_, fun flag => ?_⟩
    · rw [foldlM_append, hState]
      change List.foldlM (toggleTable flagMap numPreds) state [table] = _
      rw [foldlM_cons, toggleTable, hFinal]
      rfl
    · rw [hFinalTables, mem_cons, hTables, mem_append, mem_singleton, or_comm]
    · rw [hFinalPreds, hPreds, mem_range, hAvailable]
      simp only [mem_append, mem_singleton]
      grind
    · rw [hFinalArr, hArr, setAlong_append, or_assoc]
      refine or_congr_right (or_congr_right ?_)
      simp only [mem_range, hAvailable, hPreds]
      constructor
      · rintro ⟨pred, hPred, _, hAll, hFlag⟩
        exact ⟨pred, hPred, hFlag, hAll⟩
      · rintro ⟨pred, hPred, hFlag, hAll⟩
        refine ⟨pred, hPred, fun hDone => hFresh (hDone.2 table ?_), hAll, hFlag⟩
        rw [hFlag]
        rfl

theorem togglePredicateFlags_ok {numPreds : Nat} (hFlags : ∀ pred < numPreds, ∃ table,
      (flagMap.lookup (pred, table)).isSome = true) {order : List (Fin n)} (hNodup : order.Nodup) (numFlags : Nat)
    (flagArr : Nat → Bool) :
    ∃ flags, togglePredicateFlags flagMap numPreds numFlags order flagArr = .ok flags ∧
      ∀ flag < numFlags, flags flag = true ↔ SetAlong flagMap numPreds order flag := by
  obtain ⟨final, hFinal, _, _, hArr⟩ := foldlM_toggleTable hFlags hNodup
    fun flag => if flag < numFlags then false else flagArr flag
  refine ⟨final.flagArr, by rw [togglePredicateFlags, hFinal]; rfl, fun flag hFlag => ?_⟩
  rw [hArr flag, if_pos hFlag]
  simp

/-- A condition without flags makes the lookup of its flag throw at the first table. -/
theorem togglePredicateFlags_error (hPred : pred < numPreds) (hFlags : ∀ table, flagMap.lookup (pred, table) = none)
    (table : Fin n) (order : List (Fin n)) (numFlags : Nat) (flagArr : Nat → Bool) :
    togglePredicateFlags flagMap numPreds numFlags (table :: order) flagArr = .error .outOfRange := by
  have hAvailable : allTablesAvailable flagMap pred [table] = true := by
    rw [allTablesAvailable_iff]
    simp [hFlags]
  rw [togglePredicateFlags, foldlM_cons, toggleTable, foldlM_togglePred_error nodup_range
    (mem_range.mpr hPred) not_mem_nil hAvailable (hFlags table)]
  rfl

end

/-! ## Every condition is switched on at the last of its tables -/

section

variable {n : Nat} {V : Type} (q : Query n V) (hash : HashOrder n)

def Query.togglePredicateFlags (order : List (Fin n)) (flagArr : Nat → Bool) : Except JoinError (Nat → Bool) :=
  Skinner.togglePredicateFlags (q.predTableToFlag hash) q.conditions.length (q.predTableToFlag hash).length order flagArr

/-- The conditions the table function of `table` checks, in the order of the flag map. -/
def Query.enabled (flagArr : Nat → Bool) (table : Fin n) : List (Condition n V) :=
  (hash.entries (q.predTableToFlag hash)).filterMap fun ((pred, other), flag) =>
    if other = table ∧ flagArr flag = true then q.conditions[pred]? else none

/-- Toggling returns, and the one flag of a condition that is set is that of the last of its tables. -/
def Query.TogglesExactly (order : List (Fin n)) (flagArr : Nat → Bool) : Prop :=
  ∃ flags, q.togglePredicateFlags hash order flagArr = .ok flags ∧
    ∀ pred condition, q.conditions[pred]? = some condition → ∃ last flag,
      condition.lastTable order = some last ∧ (q.predTableToFlag hash).lookup (pred, last) = some flag ∧
      ∀ table other, (q.predTableToFlag hash).lookup (pred, table) = some other → (flags other = true ↔ table = last)

variable {q hash}
variable {order : JoinOrder n} {condition : Condition n V} {table : Fin n}

theorem setAlong_iff (hPrefix : q.prefixOrder <+: order.tables) {flag : Nat} :
    SetAlong (q.predTableToFlag hash) q.conditions.length order.tables flag ↔ ∃ pred condition table,
      q.conditions[pred]? = some condition ∧ (q.predTableToFlag hash).lookup (pred, table) = some flag ∧
        condition.lastTable order.tables = some table := by
  constructor
  · rintro ⟨pred, _, table, before, after, hOrder, hFlag, hTables⟩
    have hSome : ((q.predTableToFlag hash).lookup (pred, table)).isSome = true := by rw [hFlag]; rfl
    obtain ⟨condition, hCondition, hTable, hFirst⟩ := isSome_lookup_predTableToFlag.mp hSome
    have hNodup := hOrder ▸ order.nodup
    refine ⟨pred, condition, table, hCondition, hFlag, ?_⟩
    rw [hOrder, lastTable_eq_some hNodup]
    refine ⟨hTable, fun other hOther hIn => ?_⟩
    have hApart := nodup_append.mp hNodup
    -- A table after this one is not the first of the prefix, so the condition has a flag there.
    have hNotFirst : q.prefixOrder.head? ≠ some other := by
      intro hHead
      obtain ⟨rest, hRest⟩ := head?_eq_some_iff.mp hHead
      obtain ⟨suffix, hSuffix⟩ := hPrefix
      rw [hRest, hOrder] at hSuffix
      cases before with
      | nil =>
        obtain ⟨rfl, _⟩ := List.cons.inj hSuffix
        exact (nodup_cons.mp hApart.2.1).1 hOther
      | cons head before =>
        obtain ⟨rfl, _⟩ := List.cons.inj hSuffix
        exact hApart.2.2 _ mem_cons_self _ (mem_cons_of_mem _ hOther) rfl
    rcases hTables other (isSome_lookup_predTableToFlag.mpr ⟨condition, hCondition, hIn, hNotFirst⟩) with hBefore | rfl
    · exact hApart.2.2 _ hBefore _ (mem_cons_of_mem _ hOther) rfl
    · exact (nodup_cons.mp hApart.2.1).1 hOther
  · rintro ⟨pred, condition, table, hCondition, hFlag, hLast⟩
    obtain ⟨before, after, hOrder⟩ := append_of_mem (order.complete table)
    rw [hOrder, lastTable_eq_some (hOrder ▸ order.nodup)] at hLast
    refine ⟨pred, (List.getElem?_eq_some_iff.mp hCondition).1, table, before, after, hOrder, hFlag, fun other hOther => ?_⟩
    obtain ⟨same, hSame, hIn, _⟩ := isSome_lookup_predTableToFlag.mp hOther
    rw [hCondition] at hSame
    cases hSame
    have hMem := order.complete other
    rw [hOrder, mem_append, mem_cons] at hMem
    rcases hMem with hBefore | hEq | hAfter
    · exact Or.inl hBefore
    · exact Or.inr hEq
    · exact absurd hIn (hLast.2 other hAfter)

/-- What toggling comes to: no condition is left without a flag, or the lookup throws. -/
theorem togglePredicateFlags_spec {order : JoinOrder n} (hPrefix : q.prefixOrder <+: order.tables)
    (flagArr : Nat → Bool) :
    if ∀ condition ∈ q.conditions, ∃ table ∈ condition.tables, q.prefixOrder.head? ≠ some table then
      ∃ flags, q.togglePredicateFlags hash order.tables flagArr = .ok flags ∧
        ∀ pred condition table flag, q.conditions[pred]? = some condition →
          (q.predTableToFlag hash).lookup (pred, table) = some flag →
            (flags flag = true ↔ condition.lastTable order.tables = some table)
    else order.tables ≠ [] → q.togglePredicateFlags hash order.tables flagArr = .error .outOfRange := by
  split
  · rename_i hAll
    obtain ⟨flags, hOk, hFlags⟩ := @togglePredicateFlags_ok n (q.predTableToFlag hash) q.conditions.length (by
      intro pred hPred
      obtain ⟨table, hTable, hFirst⟩ := hAll _ (getElem_mem hPred)
      exact ⟨table, isSome_lookup_predTableToFlag.mpr ⟨_, getElem?_eq_getElem hPred, hTable, hFirst⟩⟩)
      order.tables order.nodup (q.predTableToFlag hash).length flagArr
    refine ⟨flags, hOk, fun pred condition table flag hCondition hLookup => ?_⟩
    have hKey := lookup_predTableToFlag.mp hLookup
    rw [hFlags flag (by simpa [Query.predTableToFlag] using (List.getElem?_eq_some_iff.mp hKey).1), setAlong_iff hPrefix]
    constructor
    · rintro ⟨other, same, last, hSame, hOther, hLast⟩
      have hEq := (lookup_predTableToFlag.mp hOther).symm.trans hKey
      simp only [Option.some.injEq, Prod.mk.injEq] at hEq
      obtain ⟨rfl, rfl⟩ := hEq
      rw [hCondition] at hSame
      cases hSame
      exact hLast
    · exact fun hLast => ⟨pred, condition, table, hCondition, hLookup, hLast⟩
  · rename_i hNot
    simp only [not_forall, not_exists, not_and] at hNot
    obtain ⟨condition, hMem, hNone⟩ := hNot
    obtain ⟨pred, hPred, hGet⟩ := getElem_of_mem hMem
    intro hOrder
    obtain ⟨first, rest, hCons⟩ := exists_cons_of_ne_nil hOrder
    rw [hCons]
    refine togglePredicateFlags_error hPred (fun table => ?_) first rest _ flagArr
    rw [← Option.not_isSome_iff_eq_none, isSome_lookup_predTableToFlag]
    rintro ⟨same, hSame, hTable, hFirst⟩
    rw [getElem?_eq_getElem hPred, hGet] at hSame
    cases hSame
    exact hNone table hTable hFirst

theorem exists_lastTable (order : JoinOrder n) (h : table ∈ condition.tables) :
    ∃ last, condition.lastTable order.tables = some last := by
  have hNonempty : order.tables.filter (· ∈ condition.tables) ≠ [] :=
    ne_nil_of_mem (mem_filter.mpr ⟨order.complete table, by simpa using h⟩)
  exact ⟨_, getLast?_eq_getLast_of_ne_nil hNonempty⟩

/-- The last table of a condition that has another table than the first of the prefix is not that one either. -/
theorem head_ne_lastTable (hPrefix : q.prefixOrder <+: order.tables) {last : Fin n} (hTable : table ∈ condition.tables)
    (hFirst : q.prefixOrder.head? ≠ some table) (hLast : condition.lastTable order.tables = some last) :
    q.prefixOrder.head? ≠ some last := by
  intro hHead
  obtain ⟨rest, hRest⟩ := head?_eq_some_iff.mp hHead
  obtain ⟨suffix, hSuffix⟩ := hPrefix
  rw [hRest, cons_append] at hSuffix
  have hAfter := ((@lastTable_eq_some n V condition [] _ last (hSuffix ▸ order.nodup)).mp (hSuffix ▸ hLast)).2
  have hMem := hSuffix ▸ order.complete table
  rcases mem_cons.mp hMem with rfl | hIn
  · exact hFirst hHead
  · exact hAfter table hIn hTable

/-- Conditions are switched on exactly at the last of their tables if and only if
none of them is confined to the first table of the prefix. -/
theorem togglesExactly_iff (order : JoinOrder n) (hPrefix : q.prefixOrder <+: order.tables)
    (hTables : ∀ condition ∈ q.conditions, condition.tables ≠ []) (flagArr : Nat → Bool) :
    q.TogglesExactly hash order.tables flagArr ↔
      ∀ condition ∈ q.conditions, ∃ table ∈ condition.tables, q.prefixOrder.head? ≠ some table := by
  have hSpec := @togglePredicateFlags_spec n V q hash order hPrefix flagArr
  constructor
  · rintro ⟨flags, hOk, _⟩
    by_contra hNot
    rw [if_neg hNot, hOk] at hSpec
    simp only [not_forall] at hNot
    obtain ⟨condition, hMem, _⟩ := hNot
    obtain ⟨table, _⟩ := exists_mem_of_ne_nil _ (hTables condition hMem)
    cases hSpec (ne_nil_of_mem (order.complete table))
  · intro hAll
    rw [if_pos hAll] at hSpec
    obtain ⟨flags, hOk, hFlags⟩ := hSpec
    refine ⟨flags, hOk, fun pred condition hCondition => ?_⟩
    obtain ⟨table, hTable, hFirst⟩ := hAll condition (mem_of_getElem? hCondition)
    obtain ⟨last, hLast⟩ := exists_lastTable order hTable
    obtain ⟨before, after, hOrder⟩ := append_of_mem (order.complete last)
    have hIn := ((lastTable_eq_some (hOrder ▸ order.nodup)).mp (hOrder ▸ hLast)).1
    obtain ⟨flag, hFlag⟩ := Option.isSome_iff_exists.mp (isSome_lookup_predTableToFlag.mpr
      ⟨condition, hCondition, hIn, head_ne_lastTable hPrefix hTable hFirst hLast⟩)
    refine ⟨last, flag, hLast, hFlag, fun other otherFlag hOther => ?_⟩
    rw [hFlags pred condition other otherFlag hCondition hOther, hLast, Option.some.injEq, eq_comm]

end

def HashOrder.inserted (n : Nat) : HashOrder n :=
  ⟨id, fun list => .refl list, id, fun list => .refl list⟩

theorem firstColumns_distinct : (⟨0, 0⟩ : ColRef 2).childIdx ≠ (⟨1, 0⟩ : ColRef 2).childIdx := by decide

/-- Two tables joined on their first columns, the first table being fixed as the prefix. -/
def prefixJoin : Query 2 Nat where
  cardinality := fun _ => 2
  value := fun _ row => some row.toNat
  conditions := [.equality ⟨0, 0⟩ ⟨1, 0⟩ firstColumns_distinct]
  prefixOrder := [0]

theorem togglesExactly_prefixJoin :
    prefixJoin.TogglesExactly (.inserted 2) [0, 1] fun _ => false :=
  (togglesExactly_iff ⟨[0, 1], by decide, by decide⟩ (by decide) (by decide) fun _ => false).mpr (by decide)

/-- The same with a filter on the prefix table, say on a row that a constant selects. -/
def prefixFilter : Query 2 Nat :=
  { prefixJoin with
    conditions := [.general [⟨0, 0⟩] (fun values => (values ⟨0, 0⟩).map (· == 1)) fun row other h => by
      rw [h ⟨0, 0⟩ (by decide)]] }

theorem togglePredicateFlags_throws :
    (∀ condition ∈ prefixFilter.conditions, condition.tables ≠ []) ∧ prefixFilter.prefixOrder <+: [0, 1] ∧
      prefixFilter.togglePredicateFlags (.inserted 2) [0, 1] (fun _ => false) = .error .outOfRange :=
  ⟨by decide, by decide, rfl⟩

end KushDB.Skinner
