import KushDB.Planner.JoinRows
import KushDB.Planner.LikeCorrectness
import KushDB.Skinner.Correctness

/-! # The Skinner join of a plan

The executors know the rows of a join by their numbers. They look the equalities of two columns up in an index and
compute the other conditions. Where the indexes find all rows and the buckets fit, a finished join has handed out the
choices that `skinnerJoinChoices` names.
-/

namespace KushDB.Planner

open Plan Skinner Choices List

variable {F : Type}

def columnOf (n : Nat) (reference : Nat × Nat) : Option (ColRef n) :=
  if h : reference.1 < n then some ⟨⟨reference.1, h⟩, reference.2⟩ else none

/-- The columns of a join as an expression sees them. -/
def valuesOf {n : Nat} (values : ColRef n → Option (Value F)) : SchemaValues F where
  schemaValues childIdx columnIdx := (columnOf n (childIdx, columnIdx)).bind values
  virtualSchemaValues _ := none

def truthOf : Option (Value F) → Option Bool
  | some (.boolean value) => some value
  | _ => none

theorem truthOf_eq_true {value : Option (Value F)} : truthOf value = some true ↔ value = some (.boolean true) := by
  unfold truthOf
  split
  · simp
  · rename_i hOther
    exact iff_of_false nofun (hOther true)

theorem valuesOf_congr {n : Nat} {values others : ColRef n → Option (Value F)} {references : List (Nat × Nat)}
    (h : ∀ column ∈ references.filterMap (columnOf n), values column = others column) :
    ∀ reference ∈ references, (valuesOf values).schemaValues reference.1 reference.2 =
      (valuesOf others).schemaValues reference.1 reference.2 := by
  intro reference hReference
  unfold valuesOf
  dsimp only
  cases hColumn : columnOf n (reference.1, reference.2) with
  | none => rfl
  | some column => exact h column (mem_filterMap.mpr ⟨reference, hReference, hColumn⟩)

section

variable (session : Session F)

def generalCondition (n : Nat) (expr : Expression F) : Condition n (Value F) :=
  .general (expr.references.filterMap (columnOf n))
    (fun values => truthOf (expr.compute session.f64 session.enums session.re2 (valuesOf values)))
    fun _ _ hColumns => congrArg truthOf (Expression.compute_congr rfl (valuesOf_congr hColumns))

/-- `IsEqualityPredicate` takes every equality of two columns. There is none of one table here: its lookup would use the
value of an earlier row. -/
def conditionOf (n : Nat) (expr : Expression F) : Option (Condition n (Value F)) :=
  match equalityColumns expr with
  | none => some (generalCondition session n expr)
  | some (left, right) =>
    if h : left.1 < n ∧ right.1 < n ∧ left.1 ≠ right.1 then
      some (.equality ⟨⟨left.1, h.1⟩, left.2⟩ ⟨⟨right.1, h.2.1⟩, right.2⟩ fun hEq => h.2.2 (congrArg Fin.val hEq))
    else none

/-- The planner gives its joins no `PrefixOrder`. -/
def joinQuery (inputs : List (List (Row F))) (conditions : List (Expression F)) :
    Option (Query inputs.length (Value F)) :=
  (conditions.mapM (conditionOf session inputs.length)).map fun conditions => {
    cardinality table := (inputs.get table).length
    value column row := ((inputs.get column.childIdx).getD row.toNat []).getD column.columnIdx none
    conditions
    prefixOrder := [] }

end

/-- The rows that a tuple of row numbers stands for. -/
def choiceOf (inputs : List (List (Row F))) (tuple : Fin inputs.length → Int) : List (Row F) :=
  List.ofFn fun table => (inputs.get table).getD (tuple table).toNat []

/-- Every column of a choice of rows has the type that an expression gives it. -/
def TypedOn (choice : List (Row F)) (expr : Expression F) : Prop :=
  ∀ type nullable childIdx columnIdx, .columnRef type nullable childIdx columnIdx ∈ expr.leaves →
    ∀ value, valueIn choice (childIdx, columnIdx) = some value → value.type = type

/-- The doubles that an equality compares are equal only if they are identical. -/
def SameKeys (session : Session F) (choice : List (Row F)) (expr : Expression F) : Prop :=
  ∀ columns, equalityColumns expr = some columns → ∀ left right, valueIn choice columns.1 = some (.real left) →
    valueIn choice columns.2 = some (.real right) → (session.f64.compare left right = some .eq ↔ left = right)

/-- What the executors take for granted of a join: code can be generated for its conditions, they mention its inputs, no
input is empty, the values have the types of their columns, doubles that are equal are identical, the indexes exist and
find all rows, and in no order do the buckets outgrow their list. -/
structure Supported (session : Session F) (index : Nat × Nat → Option (Index F)) (inputs : List (List (Row F)))
    (conditions : List (Expression F)) : Prop where
  predicates : ∀ condition ∈ conditions, condition.isPredicate = true
  tables : ∀ condition ∈ conditions, ∀ table ∈ condition.referencedChildren, table < inputs.length
  mentioned : ∀ condition ∈ conditions, condition.referencedChildren ≠ []
  nonempty : [] ∉ inputs
  typed : ∀ choice ∈ inputs.sections, ∀ condition ∈ conditions, TypedOn choice condition
  keys : ∀ choice ∈ inputs.sections, ∀ condition ∈ conditions, SameKeys session choice condition
  indexed : ∀ condition ∈ conditions, ∀ column ∈ condition.references,
    ∃ finds, index column = some finds ∧ ∀ key value, finds key value = true
  fits : ∀ order, overflows { session with order } index inputs conditions = false

section

variable {session : Session F}

/-! ## Conditions -/

variable {expr : Expression F} {n : Nat} {condition : Condition n (Value F)}

theorem mem_tables_generalCondition {table : Fin n} :
    table ∈ (generalCondition session n expr).tables ↔ table.val ∈ expr.referencedChildren := by
  rw [Condition.mem_tables, Expression.mem_referencedChildren]
  constructor
  · rintro ⟨column, hColumn, rfl⟩
    obtain ⟨reference, hReference, hSome⟩ := mem_filterMap.mp hColumn
    unfold columnOf at hSome
    split at hSome
    · cases hSome
      exact ⟨reference.2, hReference⟩
    · cases hSome
  · rintro ⟨columnIdx, hReference⟩
    refine ⟨⟨table, columnIdx⟩, mem_filterMap.mpr ⟨_, hReference, ?_⟩, rfl⟩
    exact dif_pos table.isLt

/-- A condition of the executors is an equality of columns of two tables or any other expression. -/
theorem conditionOf_cases (h : conditionOf session n expr = some condition) :
    (equalityColumns expr = none ∧ condition = generalCondition session n expr) ∨
      ∃ (left right : ColRef n) (hNe : left.childIdx ≠ right.childIdx), condition = .equality left right hNe ∧
        equalityColumns expr = some ((left.childIdx.val, left.columnIdx), right.childIdx.val, right.columnIdx) := by
  unfold conditionOf at h
  split at h
  · rename_i hNone
    exact .inl ⟨hNone, (Option.some.inj h).symm⟩
  · rename_i left right hSome
    split at h
    · exact .inr ⟨_, _, _, (Option.some.inj h).symm, hSome⟩
    · cases h

theorem mem_tables_conditionOf (h : conditionOf session n expr = some condition) {table : Fin n} :
    table ∈ condition.tables ↔ table.val ∈ expr.referencedChildren := by
  rcases conditionOf_cases h with ⟨-, rfl⟩ | ⟨left, right, hNe, rfl, hColumns⟩
  · exact mem_tables_generalCondition
  · rw [mem_tables_equality, Expression.mem_referencedChildren, references_of_equalityColumns hColumns]
    simp [Fin.ext_iff, exists_or, eq_comm]

theorem forall₂_of_mapM {α β : Type} {f : α → Option β} {values : List α} {results : List β}
    (h : values.mapM f = some results) : List.Forall₂ (fun value result => f value = some result) values results := by
  induction values generalizing results with
  | nil =>
    cases h
    exact .nil
  | cons value values ih =>
    rw [mapM_cons] at h
    obtain ⟨result, hResult, hRest⟩ := Option.bind_eq_some_iff.mp h
    obtain ⟨rest, hTail, hEq⟩ := Option.bind_eq_some_iff.mp hRest
    cases hEq
    exact .cons hResult (ih hTail)

/-! ## Rows -/

variable {inputs : List (List (Row F))} {conditions : List (Expression F)}

/-- The row numbers are those of rows. -/
abbrev InInputs (inputs : List (List (Row F))) (tuple : Fin inputs.length → Int) : Prop :=
  ∀ table, 0 ≤ tuple table ∧ tuple table < (inputs.get table).length

/-- The positions of the rows of a tuple. -/
def positionsOf (tuple : Fin inputs.length → Int) : List Nat := List.ofFn fun table => (tuple table).toNat

theorem choiceOf_eq_pick (tuple : Fin inputs.length → Int) :
    choiceOf inputs tuple = pick [] inputs (positionsOf tuple) := by
  refine ext_getElem (by simp [choiceOf, pick, positionsOf]) fun i hLeft hRight => ?_
  simp [choiceOf, pick, positionsOf]

theorem positionsOf_injective {left right : Fin inputs.length → Int} (hLeft : ∀ table, 0 ≤ left table)
    (hRight : ∀ table, 0 ≤ right table) (h : positionsOf left = positionsOf right) : left = right := by
  funext table
  have hTable := congrFun (ofFn_injective h) table
  have := hLeft table
  have := hRight table
  omega

theorem positionsOf_mem {tuple : Fin inputs.length → Int}
    (h : InInputs inputs tuple) : positionsOf tuple ∈ positions inputs := by
  rw [mem_positions, List.forall₂_iff_get]
  refine ⟨by simp [positionsOf], fun i hLeft hRight => ?_⟩
  have hTable := h ⟨i, hRight⟩
  simp only [positionsOf, get_eq_getElem, List.getElem_ofFn]
  simp only [get_eq_getElem] at hTable
  omega

theorem exists_positionsOf {choice : List Nat} (h : choice ∈ positions inputs) :
    ∃ tuple : Fin inputs.length → Int, positionsOf tuple = choice ∧ InInputs inputs tuple := by
  rw [mem_positions, List.forall₂_iff_get] at h
  obtain ⟨hLength, hLt⟩ := h
  have hBound : ∀ table : Fin inputs.length, table.val < choice.length := fun table => by
    have := table.isLt
    omega
  refine ⟨fun table => (choice.get ⟨table, hBound table⟩ : Nat), ?_, fun table => ?_⟩
  · exact ext_getElem (by simp [positionsOf, hLength]) fun i _ _ => by simp [positionsOf]
  · exact ⟨Int.natCast_nonneg _, Int.ofNat_lt.mpr (hLt table (hBound table) table.isLt)⟩

theorem choiceOf_mem_sections {tuple : Fin inputs.length → Int} (h : InInputs inputs tuple) :
    choiceOf inputs tuple ∈ inputs.sections := by
  rw [choiceOf_eq_pick, sections_eq_pick [] inputs]
  exact mem_map_of_mem (positionsOf_mem h)

/-! ## Conditions of the executors -/

/-- The code for an equality compares for identity. -/
theorem evaluateBinary_eq [DecidableEq F] {f64 : Float64 F} {enums : EnumManager} {left right : Value F}
    (hKeys : ∀ x y, left = .real x → right = .real y → (f64.compare x y = some .eq ↔ x = y))
    (hType : left.type = right.type) :
    evaluateBinary f64 enums .eq left right = some (.boolean (decide (left = right))) := by
  cases left with
  | smallInt left | int left | bigInt left =>
    cases right <;> cases hType
    simp [evaluateBinary, evaluateBinaryInteger, integerArithmetic, comparison]
  | real left =>
    cases right <;> cases hType
    rename_i right
    have hKey := hKeys left right rfl rfl
    simp only [evaluateBinary, evaluateBinaryReal, realArithmetic, realComparison, Value.real.injEq, ← hKey]
    cases f64.compare left right with
    | none => rfl
    | some order => simp [comparison]
  | date left =>
    cases right <;> cases hType
    simp [evaluateBinary, comparison]
  | text left =>
    cases right <;> cases hType
    rename_i right
    by_cases hSame : left = right
    · simp [evaluateBinary, evaluateBinaryString, comparison, compareText, hSame]
    · by_cases hLess : left < right <;>
        simp [evaluateBinary, evaluateBinaryString, comparison, compareText, hSame, hLess]
  | boolean left =>
    cases right <;> cases hType
    simp [evaluateBinary, evaluateBinaryBool]
  | enum enumId left =>
    cases right <;> cases hType
    simp [evaluateBinary, evaluateBinaryEnum]

theorem compute_generalCondition [DecidableEq F] (expr : Expression F) (values : ColRef n → Option (Value F)) :
    (generalCondition session n expr).compute values = some true ↔
      expr.holds session.f64 session.enums session.re2 (valuesOf values) = true := by
  rw [Expression.holds_iff]
  exact truthOf_eq_true

/-- The values of a choice of rows, by columns. -/
def rowOf (n : Nat) (choice : List (Row F)) (column : ColRef n) : Option (Value F) :=
  valueIn choice (column.childIdx.val, column.columnIdx)

theorem compute_conditionOf [DecidableEq F] (h : conditionOf session n expr = some condition)
    (hPredicate : expr.isPredicate = true) {choice : List (Row F)} (hLength : choice.length = n)
    (hTyped : TypedOn choice expr) (hKeys : SameKeys session choice expr) :
    condition.compute (rowOf n choice) = some true ↔ session.holds choice expr = true := by
  rcases conditionOf_cases h with ⟨-, rfl⟩ | ⟨left, right, hNe, rfl, hColumns⟩
  · have hValues : ∀ childIdx columnIdx, (valuesOf (rowOf n choice)).schemaValues childIdx columnIdx =
        (valuesIn choice).schemaValues childIdx columnIdx := by
      intro childIdx columnIdx
      change (if hChild : childIdx < n then some (ColRef.mk ⟨childIdx, hChild⟩ columnIdx) else none).bind _ = _
      by_cases hChild : childIdx < n
      · rw [dif_pos hChild]
        rfl
      · rw [dif_neg hChild]
        simp [valuesIn, hLength, hChild]
    rw [compute_generalCondition, Session.holds]
    exact iff_of_eq (congrArg (· = true) (Expression.holds_congr (Expression.compute_congr rfl fun _ _ => hValues _ _)))
  · obtain ⟨leftType, leftNullable, rightType, rightNullable, rfl⟩ := eq_of_equalityColumns hColumns
    have hSame : leftType = rightType := by
      simp only [Expression.isPredicate, Expression.accepted, Bool.and_eq_true] at hPredicate
      exact of_decide_eq_true hPredicate.1.2
    have hLeft := hTyped leftType leftNullable _ _ mem_cons_self
    have hRight := hTyped rightType rightNullable _ _ (mem_cons_of_mem _ mem_cons_self)
    have hCompute : session.compute choice _ = (rowOf n choice left).bind fun leftValue =>
      (rowOf n choice right).bind fun rightValue => _ := compute_of_equalityColumns session choice hColumns
    rw [Session.compute] at hCompute
    rw [Session.holds, Expression.holds_iff, hCompute, Condition.compute]
    cases hLeftValue : rowOf n choice left with
    | none => simp
    | some leftValue =>
      cases hRightValue : rowOf n choice right with
      | none => simp
      | some rightValue =>
        have hType : leftValue.type = rightValue.type :=
          (hLeft leftValue hLeftValue).trans (hSame.trans (hRight rightValue hRightValue).symm)
        have hSameKeys : ∀ x y, leftValue = .real x → rightValue = .real y →
            (session.f64.compare x y = some .eq ↔ x = y) := fun x y hX hY =>
          hKeys _ hColumns x y (hX ▸ hLeftValue) (hY ▸ hRightValue)
        simp [evaluateBinary_eq hSameKeys hType]

section

variable {index : Nat × Nat → Option (Index F)} {q : Query inputs.length (Value F)}

section

variable (hQuery : joinQuery session inputs conditions = some q)
include hQuery

theorem forall_conditions {test : Condition inputs.length (Value F) → Prop} {holds : Expression F → Prop}
    (h : ∀ expr ∈ conditions, ∀ condition, conditionOf session inputs.length expr = some condition →
      (test condition ↔ holds expr)) :
    (∀ condition ∈ q.conditions, test condition) ↔ ∀ expr ∈ conditions, holds expr := by
  obtain ⟨found, hFound, rfl⟩ := Option.map_eq_some_iff.mp hQuery
  have hAll := forall₂_of_mapM hFound
  clear hFound hQuery
  dsimp only
  induction hAll with
  | nil => exact iff_of_true nofun nofun
  | cons hFirst _ ih =>
    rw [forall_mem_cons, forall_mem_cons]
    exact and_congr (h _ mem_cons_self _ hFirst) (ih fun expr hExpr => h expr (mem_cons_of_mem _ hExpr))

theorem row_joinQuery (tuple : Fin inputs.length → Int) :
    q.row tuple = rowOf inputs.length (choiceOf inputs tuple) := by
  obtain ⟨found, -, rfl⟩ := Option.map_eq_some_iff.mp hQuery
  funext column
  simp [Query.row, rowOf, valueIn, valuesIn, choiceOf]

theorem satisfies_joinQuery [DecidableEq F] (hSupported : Supported session index inputs conditions)
    (tuple : Fin inputs.length → Int) :
    q.Satisfies tuple ↔ InInputs inputs tuple ∧
      ∀ condition ∈ conditions, session.holds (choiceOf inputs tuple) condition = true := by
  have hCardinality : ∀ table, q.cardinality table = (inputs.get table).length := by
    obtain ⟨found, -, rfl⟩ := Option.map_eq_some_iff.mp hQuery
    exact fun _ => rfl
  rw [Query.Satisfies, row_joinQuery hQuery]
  simp only [hCardinality]
  refine and_congr_right fun hRange => forall_conditions hQuery fun expr hExpr condition hCondition => ?_
  have hChoice := choiceOf_mem_sections hRange
  exact compute_conditionOf hCondition (hSupported.predicates expr hExpr) length_ofFn
    (hSupported.typed _ hChoice expr hExpr) (hSupported.keys _ hChoice expr hExpr)

/-- A list of the satisfying tuples, each once, stands for the choices on which the conditions hold. -/
theorem perm_of_satisfies [DecidableEq F] (hSupported : Supported session index inputs conditions)
    {output : List (Fin inputs.length → Int)} (hNodup : output.Nodup)
    (hOutput : ∀ tuple, tuple ∈ output ↔ q.Satisfies tuple) :
    (output.map (choiceOf inputs)).Perm (inputs.sections.filter fun choice => conditions.all (session.holds choice)) := by
  have hSatisfies : ∀ tuple ∈ output, InInputs inputs tuple ∧
      ∀ condition ∈ conditions, session.holds (choiceOf inputs tuple) condition = true :=
    fun tuple hTuple => (satisfies_joinQuery hQuery hSupported tuple).mp ((hOutput tuple).mp hTuple)
  have hPositions : (output.map positionsOf).Perm ((positions inputs).filter fun choice =>
      conditions.all (session.holds (pick [] inputs choice))) := by
    refine (perm_ext_iff_of_nodup ?_ ((nodup_positions inputs).filter _)).mpr fun choice => ?_
    · refine hNodup.map_on fun left hLeft right hRight hEq => ?_
      exact positionsOf_injective (fun table => ((hSatisfies left hLeft).1 table).1)
        (fun table => ((hSatisfies right hRight).1 table).1) hEq
    · simp only [mem_map, mem_filter, all_eq_true]
      constructor
      · rintro ⟨tuple, hTuple, rfl⟩
        obtain ⟨hRange, hHolds⟩ := hSatisfies tuple hTuple
        rw [← choiceOf_eq_pick]
        exact ⟨positionsOf_mem hRange, hHolds⟩
      · rintro ⟨hChoice, hHolds⟩
        obtain ⟨tuple, rfl, hRange⟩ := exists_positionsOf hChoice
        rw [← choiceOf_eq_pick] at hHolds
        exact ⟨tuple, (hOutput tuple).mpr ((satisfies_joinQuery hQuery hSupported tuple).mpr ⟨hRange, hHolds⟩), rfl⟩
  have hMap := hPositions.map (pick [] inputs)
  rw [map_map] at hMap
  rw [sections_eq_pick [] inputs, filter_map]
  refine List.Perm.trans (List.Perm.of_eq ?_) hMap
  exact map_congr_left fun tuple _ => choiceOf_eq_pick tuple

/-! ## The permutable join -/

theorem joinQuery_cardinality (h : [] ∉ inputs) (table : Fin inputs.length) : 0 < q.cardinality table := by
  obtain ⟨found, -, rfl⟩ := Option.map_eq_some_iff.mp hQuery
  have hPos : 0 < (inputs.get table).length := length_pos_iff.mpr fun hNil => h (hNil ▸ get_mem inputs table)
  exact Int.ofNat_lt.mpr hPos

end

/-- A condition that holds is found by its lookup. -/
theorem passesCondition_of_supported (hSupported : Supported session index inputs conditions) (choice : List (Row F))
    {condition : Expression F} (hIn : condition ∈ conditions) :
    passesCondition session index choice condition = session.holds choice condition := by
  rw [passesCondition, Bool.and_eq_left_iff_imp, found]
  intro hHolds
  cases hColumns : equalityColumns condition with
  | none => rfl
  | some columns =>
    have hReferences := references_of_equalityColumns hColumns
    have hCompute := compute_of_equalityColumns session choice hColumns
    rw [Session.holds, Expression.holds_iff] at hHolds
    rw [Session.compute, hHolds] at hCompute
    obtain ⟨leftValue, hLeft, hRest⟩ := Option.bind_eq_some_iff.mp hCompute.symm
    obtain ⟨rightValue, hRight, -⟩ := Option.bind_eq_some_iff.mp hRest
    obtain ⟨leftFinds, hLeftIndex, hLeftFinds⟩ := hSupported.indexed _ hIn columns.1 (by simp [hReferences])
    obtain ⟨rightFinds, hRightIndex, hRightFinds⟩ := hSupported.indexed _ hIn columns.2 (by simp [hReferences])
    by_cases hOwn : columns.1.1 = lastOf session.order columns
    · simp only [sidesAt, if_pos hOwn, hLeftIndex, hLeft, hRight, hLeftFinds]
    · simp only [sidesAt, if_neg hOwn, Prod.fst_swap, Prod.snd_swap, hRightIndex, hLeft, hRight, hRightFinds]

theorem translates_of_supported (hQuery : joinQuery session inputs conditions = some q)
    (hSupported : Supported session index inputs conditions) : translates index conditions = true := by
  obtain ⟨found, hFound, rfl⟩ := Option.map_eq_some_iff.mp hQuery
  rw [translates, Bool.and_eq_true, all_eq_true, all_eq_true]
  constructor
  · intro column hColumn
    obtain ⟨condition, hIn, hReference⟩ := mem_flatMap.mp hColumn
    obtain ⟨finds, hIndex, -⟩ := hSupported.indexed condition hIn column hReference
    rw [hIndex]
    rfl
  · intro condition hExecuted
    have hIn := (mem_filter.mp hExecuted).1
    rw [Bool.and_eq_true, hSupported.predicates condition hIn]
    refine ⟨rfl, ?_⟩
    cases hColumns : equalityColumns condition with
    | none => rfl
    | some columns =>
      have hMade : ∀ expr ∈ conditions, ∃ condition, conditionOf session inputs.length expr = some condition := by
        intro expr hExpr
        obtain ⟨i, hI⟩ := List.get_of_mem hExpr
        exact ⟨_, hI ▸ (forall₂_of_mapM hFound).get i.isLt ((forall₂_of_mapM hFound).length_eq ▸ i.isLt)⟩
      obtain ⟨made, hMade⟩ := hMade condition hIn
      rcases conditionOf_cases hMade with ⟨hNone, -⟩ | ⟨left, right, hNe, -, hSome⟩
      · rw [hNone] at hColumns
        cases hColumns
      · rw [hSome] at hColumns
        cases hColumns
        exact decide_eq_true fun hSame => hNe (Fin.ext hSame)

/-- A permutable join that finishes has handed out the choices of `skinnerJoinChoices`. -/
theorem skinnerJoinChoices_of_finished [DecidableEq F] (hQuery : joinQuery session inputs conditions = some q)
    (hSupported : Supported session index inputs conditions)
    (hMany : 0 < inputs.length) {hash : HashOrder inputs.length} {budget : Int} (hBudget : inputs.length < budget)
    {state : PermutableState inputs.length (Value F)} (hReached : Reached q hash budget state)
    (hFinished : state.join.finished = true) :
    ∃ choices, skinnerJoinChoices session index inputs conditions = some choices ∧
      (state.globals.sink.output.map (choiceOf inputs)).Perm choices := by
  have hConditions : ∀ condition ∈ q.conditions, condition.tables ≠ [] := by
    refine (forall_conditions hQuery fun expr hExpr condition hCondition => ?_).mpr hSupported.mentioned
    rw [not_iff_not, eq_nil_iff_forall_not_mem, eq_nil_iff_forall_not_mem]
    constructor
    · exact fun h table hTable => h ⟨table, hSupported.tables expr hExpr table hTable⟩
        ((mem_tables_conditionOf hCondition).mpr hTable)
    · exact fun h table hTable => h table.val ((mem_tables_conditionOf hCondition).mp hTable)
  have hKnown := hReached.known (joinQuery_cardinality hQuery hSupported.nonempty) hConditions hMany hBudget
  have hOutput : ∀ tuple, tuple ∈ state.globals.sink.output ↔ q.Satisfies tuple :=
    fun tuple => (hKnown.output tuple).trans ⟨hKnown.sound tuple, hKnown.done.finished hFinished tuple⟩
  have hExecuted : executedOf conditions = conditions :=
    filter_eq_self.mpr fun condition hIn => decide_eq_true (hSupported.mentioned condition hIn)
  refine ⟨_, skinnerJoinChoices_eq_some.mpr ⟨translates_of_supported hQuery hSupported,
    .inr ⟨.inr (by rw [hExecuted]), hSupported.fits session.order⟩, rfl⟩, ?_⟩
  have hPasses : (inputs.sections.filter fun choice => (executedOf conditions).all (passesCondition session index choice)) =
      inputs.sections.filter fun choice => conditions.all (session.holds choice) := by
    refine filter_congr fun choice _ => ?_
    rw [hExecuted, Bool.eq_iff_iff, all_eq_true, all_eq_true]
    refine forall₂_congr fun condition hIn => ?_
    rw [passesCondition_of_supported hSupported choice hIn]
  rw [hPasses]
  exact perm_of_satisfies hQuery hSupported hKnown.nodup hOutput

end

end

def twoInputs : List (List (Row Rat)) := [[[some (.int 7)]], [[some (.int 6)], [some (.int 7)]]]

def sameInts : Expression Rat := .binary .eq (.columnRef .int false 0 0) (.columnRef .int false 1 0)

def joinStart : PermutableState 2 (Value Rat) :=
  ⟨.initial, ⟨fun _ => .validTuple, fun _ => false⟩,
    ⟨fun _ => 0, 0, ⟨[], [], 0⟩, fun _ => -1, fun _ => -1, fun _ => none⟩⟩

def exactIndex (_ : Nat × Nat) : Option (Index Rat) := some fun _ _ => true

def joinSession : Session Rat where
  f64 := exactFloat64
  enums := ⟨fun _ => []⟩
  re2 := Re2.reference
  contents _ := []
  engine := .permute
  order := [0, 1]
  lookups := id
  finds _ _ _ _ := true

theorem pushedBuckets_le_length (session : Session F) (index : Nat × Nat → Option (Index F)) (inputs : List (List (Row F)))
    (table : Nat) (choice : List (Row F)) (due : List (Expression F)) :
    pushedBuckets session index inputs table choice due ≤ due.length := by
  induction due with
  | nil => exact Nat.le_refl _
  | cons condition due ih =>
    rw [pushedBuckets, length_cons]
    split
    · exact Nat.le_succ_of_le ih
    · dsimp only
      split
      · exact Nat.zero_le _
      · split
        · exact Nat.succ_le_succ ih
        · exact Nat.le_add_left _ _

/-- Room for two buckets is enough for one equality. -/
theorem sameInts_fits (order : List Nat) :
    overflows { joinSession with order } exactIndex twoInputs [sameInts] = false := by
  rw [overflows, any_eq_false]
  intro position _
  rw [Bool.not_eq_true, any_eq_false]
  intro choice _
  rw [Bool.and_eq_true, decide_eq_true_iff, not_and, Nat.not_lt]
  intro _
  calc pushedBuckets _ _ _ _ _ _
    _ ≤ _ := pushedBuckets_le_length _ _ _ _ _ _
    _ ≤ [sameInts].length := length_filter_le _ _
    _ ≤ 2 := by decide

theorem sameInts_supported : Supported joinSession exactIndex twoInputs [sameInts] where
  predicates := by decide
  tables := by decide
  mentioned := by decide
  nonempty := by decide
  typed := by
    intro choice hChoice condition hIn
    obtain rfl := mem_singleton.mp hIn
    intro type nullable childIdx columnIdx hLeaf value hValue
    have hChoices : choice = [[some (.int 7)], [some (.int 6)]] ∨ choice = [[some (.int 7)], [some (.int 7)]] := by
      simpa [twoInputs] using hChoice
    rcases mem_cons.mp hLeaf with hLeft | hRest
    · cases hLeft
      rcases hChoices with rfl | rfl <;> cases hValue <;> rfl
    · cases mem_singleton.mp hRest
      rcases hChoices with rfl | rfl <;> cases hValue <;> rfl
  keys _ _ _ _ _ _ left right _ _ := by rw [joinSession, exactFloat64, Option.some.injEq, compare_eq_iff_eq]
  indexed := fun _ _ _ _ => ⟨_, rfl, fun _ _ => rfl⟩
  fits := sameInts_fits

theorem skinnerJoinChoices_of_finished_ints : ∃ q reward state,
    joinQuery joinSession twoInputs [sameInts] = some q ∧
      execute q (.inserted 2) 9 (finRange 2) joinStart = .ok (reward, state) ∧ state.join.finished = true ∧
        ∃ choices, skinnerJoinChoices joinSession exactIndex twoInputs [sameInts] = some choices ∧
          (state.globals.sink.output.map (choiceOf twoInputs)).Perm choices := by
  refine ⟨_, _, _, rfl, rfl, rfl, ?_⟩
  exact @skinnerJoinChoices_of_finished Rat joinSession twoInputs [sameInts] exactIndex _ _ rfl sameInts_supported
    (by decide) (.inserted 2) 9 (by decide) _
      (.episode ⟨finRange 2, nodup_finRange 2, mem_finRange⟩ _ (by decide) (.start _ _ rfl rfl) rfl) rfl

end KushDB.Planner
