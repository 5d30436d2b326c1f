import KushDB.Skinner.Recompiling

/-! # The bucket list of a table function

Before its loop a table function looks up the equalities that are due at its table and pushes the bucket of each
to a global array. The array has as many slots as the translator has collected predicate columns, and nothing
checks a push against that number. One invocation pushes at most one bucket for each equality that is due, and
exactly so many when all lookups succeed.
-/

namespace KushDB.Skinner

open List

section

variable {n : Nat} {V : Type}

/-- One column reference. The first component are the columns that have an index, which those of the first table
of the prefix never get; `predicate_columns_` is the second one. -/
def collectColumn (prefixOrder : List (Fin n)) (collected : List (ColRef n) × List (ColRef n)) (column : ColRef n) :
    List (ColRef n) × List (ColRef n) :=
  if column ∈ collected.1 then collected
  else (if prefixOrder.head? = some column.childIdx then collected.1 else collected.1 ++ [column],
    collected.2 ++ [column])

/-- What the conditions of a join collect, whatever its tables contain. -/
def collectedColumns (conditions : List (Condition n V)) (prefixOrder : List (Fin n)) : List (ColRef n) :=
  ((conditions.flatMap fun condition => condition.columns.eraseDups).foldl (collectColumn prefixOrder) ([], [])).2

def Query.predicateColumns (q : Query n V) : List (ColRef n) := collectedColumns q.conditions q.prefixOrder

/-- The buckets one invocation pushes. It returns at a value that is NULL, and after the push of a bucket that does
not exist, which is `none` here. -/
def Query.pushBuckets [DecidableEq V] (q : Query n V) (table : Fin n) (values : ColRef n → Option V) :
    List (Condition n V) → List (Option (List Int))
  | [] => []
  | .general .. :: conditions => q.pushBuckets table values conditions
  | .equality left right _ :: conditions =>
    let otherSide := if left.childIdx = table then right else left
    let tableColumn := if left.childIdx = table then left else right
    match values otherSide with
    | none => []
    | some key =>
      match q.getBucket tableColumn key with
      | none => [none]
      | some bucket => some bucket :: q.pushBuckets table values conditions

section

variable [DecidableEq V] {q : Query n V} {table : Fin n} {values : ColRef n → Option V}
  {conditions : List (Condition n V)}

theorem length_pushBuckets_le :
    (q.pushBuckets table values conditions).length ≤ conditions.countP Condition.isEquality := by
  induction conditions with
  | nil => exact le_rfl
  | cons condition conditions ih =>
    cases condition with
    | general columns holds reads =>
      rw [countP_cons_of_neg (by simp [Condition.isEquality])]
      exact ih
    | equality left right distinct =>
      rw [countP_cons_of_pos rfl, Query.pushBuckets]
      split
      · exact Nat.zero_le _
      · split
        · simp
        · exact Nat.succ_le_succ ih

theorem length_pushBuckets (hFound : ∀ column, ∃ key, values column = some key ∧
      ∀ other, (q.getBucket other key).isSome = true) :
    (q.pushBuckets table values conditions).length = conditions.countP Condition.isEquality := by
  induction conditions with
  | nil => rfl
  | cons condition conditions ih =>
    cases condition with
    | general columns holds reads =>
      rw [countP_cons_of_neg (by simp [Condition.isEquality])]
      exact ih
    | equality left right distinct =>
      obtain ⟨key, hKey, hBuckets⟩ := hFound (if left.childIdx = table then right else left)
      obtain ⟨bucket, hBucket⟩ := Option.isSome_iff_exists.mp
        (hBuckets (if left.childIdx = table then left else right))
      rw [countP_cons_of_pos rfl, Query.pushBuckets, hKey]
      dsimp only
      rw [hBucket, length_cons, ih]

end

/-! ## The conditions of an invocation -/

section

variable {q : Query n V} {hash : HashOrder n}
variable {A : Type}

theorem filterMap_single {B : Type} [DecidableEq A] {entries : List A} (hNodup : entries.Nodup) (entry : A)
    (found : Bool) (value : B) :
    entries.filterMap (fun other => if other = entry ∧ found = true then some value else none) =
      if entry ∈ entries ∧ found = true then [value] else [] := by
  induction entries with
  | nil => simp
  | cons first entries ih =>
    obtain ⟨hFresh, hRest⟩ := nodup_cons.mp hNodup
    rw [filterMap_cons, ih hRest]
    by_cases hFirst : first = entry
    · subst hFirst
      cases found <;> simp [hFresh]
    · simp [hFirst, Ne.symm hFirst]

theorem flatMap_zipIdx_filter (keep : A → Bool) (entries : List A) (start : Nat) :
    ((entries.zipIdx start).flatMap fun (entry, _) => if keep entry then [entry] else []) = entries.filter keep := by
  induction entries generalizing start with
  | nil => rfl
  | cons entry entries ih =>
    rw [zipIdx_cons, flatMap_cons, ih, filter_cons]
    cases hKeep : keep entry <;> simp [hKeep]

/-- The enabled conditions are the due ones, a repeated condition as often as it is repeated. -/
theorem enabled_perm {order : JoinOrder n} (hPrefix : q.prefixOrder <+: order.tables) {flagArr flags : Nat → Bool}
    (hToggle : q.togglePredicateFlags hash order.tables flagArr = .ok flags) (table : Fin n) :
    (q.enabled hash flags table).Perm (q.due order.tables table) := by
  have hSpec := @togglePredicateFlags_spec n V q hash order hPrefix flagArr
  have hTables : order.tables ≠ [] := ne_nil_of_mem (order.complete table)
  split at hSpec
  swap
  · rw [hSpec hTables] at hToggle
    cases hToggle
  rename_i hAll
  obtain ⟨same, hSame, hFlags⟩ := hSpec
  rw [hToggle] at hSame
  cases hSame
  refine ((hash.entries_perm _).filterMap _).trans (List.Perm.of_eq ?_)
  -- A flag of the table is set if the condition is due there, so the flags can be forgotten.
  have hKeys : (q.predTableToFlag hash).filterMap (fun entry =>
        if entry.1.2 = table ∧ flags entry.2 = true then q.conditions[entry.1.1]? else none) =
      (q.flagKeys hash).filterMap fun key => (q.conditions[key.1]?).bind fun condition =>
        if key.2 = table ∧ decide (condition.lastTable order.tables = some table) = true then some condition
        else none := by
    rw [← predTableToFlag_keys, filterMap_map]
    refine filterMap_congr ?_
    rintro ⟨⟨pred, other⟩, flag⟩ hEntry
    have hLookup := (lookup_eq_some (predTableToFlag_keys ▸ flagKeys_nodup)).mpr hEntry
    dsimp only [Function.comp]
    cases hCondition : q.conditions[pred]? with
    | none => simp
    | some condition =>
      have hFlag := hFlags pred condition other flag hCondition hLookup
      by_cases hOther : other = table
      · subst hOther
        simp [hFlag]
      · simp [hOther]
  refine hKeys.trans ?_
  rw [Query.flagKeys, filterMap_flatMap, Query.due, ← flatMap_zipIdx_filter _ q.conditions 0]
  refine flatMap_congr ?_
  rintro ⟨condition, pred⟩ hMem
  have hCondition := mem_zipIdx_iff_getElem?.mp hMem
  have hFound : ((hash.tables condition.tables).filter fun other => q.prefixOrder.head? ≠ some other).Nodup :=
    ((hash.tables_perm _).nodup_iff.mpr (nodup_dedup _)).filter _
  dsimp only
  rw [filterMap_map]
  refine Eq.trans (filterMap_congr fun other _ => ?_) ((filterMap_single hFound table
    (decide (condition.lastTable order.tables = some table)) condition).trans ?_)
  · simp only [Function.comp, hCondition, Option.bind_some]
  · refine if_congr ?_ rfl rfl
    rw [and_iff_right_iff_imp]
    intro hDue
    have hLast := of_decide_eq_true hDue
    obtain ⟨before, after, hOrder⟩ := append_of_mem (order.complete table)
    have hIn := ((lastTable_eq_some (hOrder ▸ order.nodup)).mp (hOrder ▸ hLast)).1
    obtain ⟨other, hOther, hFirst⟩ := hAll condition (mem_of_getElem? hCondition)
    rw [mem_filter, (hash.tables_perm _).mem_iff, decide_eq_true_eq]
    exact ⟨hIn, head_ne_lastTable hPrefix hOther hFirst hLast⟩

/-- So are the conditions compiled for a table, in their own order. -/
theorem filter_shouldExecute {order : JoinOrder n} {before after : List (Fin n)} {table : Fin n}
    (hOrder : order.tables = before ++ table :: after) :
    (q.conditions.filter fun condition => condition.shouldExecute table before) = q.due order.tables table := by
  have hSplit := JoinOrder.split hOrder
  rw [Query.due, hOrder]
  refine filter_congr fun condition _ => ?_
  rw [Bool.eq_iff_iff, shouldExecute_iff hSplit, decide_eq_true_eq, lastTable_eq_some hSplit.nodup]

end

/-! ## Overflow -/

section

variable [DecidableEq V]

/-- No table function of an order pushes more buckets than the array has slots, whatever the tables contain and
whichever values the predicate struct holds. -/
structure BucketListFits (conditions : List (Condition n V)) (prefixOrder : List (Fin n)) (order : JoinOrder n) :
    Prop where
  permutable : ∀ cardinality value, ∀ (hash : HashOrder n) (flagArr flags : Nat → Bool),
    let q : Query n V := ⟨cardinality, value, conditions, prefixOrder⟩
    q.togglePredicateFlags hash order.tables flagArr = .ok flags → ∀ table values,
      (q.pushBuckets table values (q.enabled hash flags table)).length ≤ q.predicateColumns.length
  recompiled : ∀ cardinality value before table after, order.tables = before ++ table :: after →
    let q : Query n V := ⟨cardinality, value, conditions, prefixOrder⟩
    ∀ values, (q.pushBuckets table values (q.conditions.filter fun condition =>
      condition.shouldExecute table before)).length ≤ q.predicateColumns.length

/-- The equalities whose last table in the order is the given one. -/
def dueEqualities (conditions : List (Condition n V)) (order : JoinOrder n) (table : Fin n) : Nat :=
  (conditions.filter fun condition => condition.lastTable order.tables = some table).countP Condition.isEquality

theorem isSome_getBucket_one [Inhabited V] {conditions : List (Condition n V)} {prefixOrder : List (Fin n)}
    {column : ColRef n} :
    ((⟨fun _ => 1, fun _ _ => some default, conditions, prefixOrder⟩ : Query n V).getBucket column default).isSome =
      true := by
  simp [Query.getBucket, scanRows]

/-- The bucket list never overflows if at no table more equalities are due than columns were collected. -/
theorem bucketListFits_iff [Inhabited V] {conditions : List (Condition n V)} {prefixOrder : List (Fin n)}
    {order : JoinOrder n} (hPrefix : prefixOrder <+: order.tables) :
    BucketListFits conditions prefixOrder order ↔
      ∀ table, dueEqualities conditions order table ≤ (collectedColumns conditions prefixOrder).length := by
  constructor
  · intro h table
    obtain ⟨before, after, hOrder⟩ := append_of_mem (order.complete table)
    -- One row in every table and the same value in all columns, so that each lookup finds the row.
    let q : Query n V := ⟨fun _ => 1, fun _ _ => some default, conditions, prefixOrder⟩
    have hPushed := h.recompiled (fun _ => 1) (fun _ _ => some default) before table after hOrder
      fun _ => some default
    rwa [@filter_shouldExecute n V q order before after table hOrder,
      length_pushBuckets fun _ => ⟨default, rfl, fun _ => isSome_getBucket_one⟩] at hPushed
  · intro h
    refine ⟨fun cardinality value hash flagArr flags hToggle table values => ?_,
      fun cardinality value before table after hOrder values => ?_⟩
    · refine length_pushBuckets_le.trans ?_
      rw [(enabled_perm hPrefix hToggle table).countP_eq]
      exact h table
    · refine length_pushBuckets_le.trans ?_
      rw [filter_shouldExecute hOrder]
      exact h table

end

end

/-! ## Two tables -/

def bothTables : JoinOrder 2 := ⟨[0, 1], by decide, by decide⟩

def sameColumns : Condition 2 Int := .equality ⟨0, 0⟩ ⟨1, 0⟩ firstColumns_distinct

theorem bucketListFits_sameColumns : BucketListFits [sameColumns, sameColumns] [] bothTables :=
  (bucketListFits_iff nil_prefix).mpr (by decide)

/-- The equality a third time is a third bucket in an array of two. -/
theorem not_bucketListFits_sameColumns : ¬ BucketListFits [sameColumns, sameColumns, sameColumns] [] bothTables := by
  intro h
  have hPushed := h.recompiled (fun _ => 1) (fun _ _ => some 7) [0] 1 [] rfl fun _ => some 7
  revert hPushed
  decide

end KushDB.Skinner
