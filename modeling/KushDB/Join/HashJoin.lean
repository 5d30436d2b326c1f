import KushDB.Compile.KeyType
import KushDB.Library.KeyedFold
import KushDB.Runtime.Vector

/-! # Hash join

The left rows are put into vectors, one for each hash of the keys. A right row is compared with all rows of the vector
its own hash leads to. Rows with a NULL key are not stored.
-/

namespace KushDB.Join

open KushDB.Execution Compile KeyedFold List
open KushDB.Runtime (Vector)

/-- The key columns, in pairs, and the number of bytes of a stored left row. A key is one of the columns stored. -/
structure HashJoinOperator (L R V : Type) where
  keys : List ((L → Option V) × (R → Option V))
  elementSize : Nat
  elementSize_pos : keys ≠ [] → 0 < elementSize

variable {L R V : Type}

def hashCombine (hash : BitVec 32) (v : BitVec 64) : BitVec 32 :=
  hash ^^^ (v + 0x9e3779b9 + (hash <<< 6).signExtend 64 + (hash.sshiftRight 2).signExtend 64).truncate 32

section

variable (type : KeyType V)

def hashKeys (keys : List (Option V)) : BitVec 32 := (keys.map type.hashOf).foldl hashCombine 0

/-- The vectors by hash. -/
abbrev HashTable (L : Type) := BitVec 32 → Option (Vector L)

def insertBucket (elementSize : Nat) (bucket : Option (Vector L)) (row : L) : Option (Option (Vector L)) :=
  ((bucket.getD (Vector.create elementSize 2)).pushBack row).map some

namespace HashJoinOperator

variable (join : HashJoinOperator L R V)

def leftKeys (row : L) : List (Option V) := join.keys.map fun key => key.1 row

def rightKeys (row : R) : List (Option V) := join.keys.map fun key => key.2 row

def allNotNull (row : L) : Bool := (join.leftKeys row).all Option.isSome

def insert (ht : HashTable L) (row : L) : Option (HashTable L) :=
  updateAt (insertBucket join.elementSize) (fun row => hashKeys type (join.leftKeys row)) ht row

/-- The build side. -/
def consumeLeft (ht : HashTable L) (row : L) : Option (HashTable L) :=
  if join.allNotNull row then join.insert type ht row else some ht

/-- The probe side. -/
def consumeRight (ht : HashTable L) (row : R) : List (L × R) :=
  match ht (hashKeys type (join.rightKeys row)) with
  | none => []
  | some bucket =>
    (bucket.elements.filter fun left => type.checkEq (join.leftKeys left) (join.rightKeys row)).map fun left =>
      (left, row)

def execute (left : List L) (right : List R) : Option (List (L × R)) :=
  (left.foldlM (join.consumeLeft type) fun _ => none).map fun ht => right.flatMap (join.consumeRight type ht)

/-! ## The join SQL asks for -/

/-- All key columns are non-null and pairwise equal. -/
def joined (left : L) (right : R) : Bool :=
  join.keys.all fun key =>
    match key.1 left, key.2 right with
    | some leftValue, some rightValue => type.eq leftValue rightValue
    | _, _ => false

def innerJoin (left : List L) (right : List R) : List (L × R) :=
  (right.flatMap fun row => left.map fun other => (other, row)).filter fun pair => join.joined type pair.1 pair.2

/-- The join ends, and each pair with equal keys is in its output once. -/
def ReturnsInnerJoin (left : List L) (right : List R) : Prop :=
  ∃ rows, join.execute type left right = some rows ∧ rows.Perm (join.innerJoin type left right)

/-- The left rows stored under a hash. -/
def storedAt (left : List L) (hash : BitVec 32) : List L :=
  (left.filter join.allNotNull).filter fun row => hashKeys type (join.leftKeys row) = hash

/-! ## Keys -/

variable {type join}
variable {right : R} {left : List L}

theorem joined_eq {keys : List ((L → Option V) × (R → Option V))} {left : L} :
    (keys.all fun key =>
      match key.1 left, key.2 right with
      | some leftValue, some rightValue => type.eq leftValue rightValue
      | _, _ => false) =
    ((keys.map fun key => key.1 left).all Option.isSome &&
      type.checkEq (keys.map fun key => key.1 left) (keys.map fun key => key.2 right)) := by
  induction keys with
  | nil => rfl
  | cons key keys ih =>
    rw [all_cons, ih, map_cons, map_cons, all_cons, KeyType.checkEq]
    cases key.1 left <;> cases key.2 right <;> simp [KeyType.equal, Bool.and_left_comm]

theorem joined_iff {left : L} :
    join.joined type left right = true ↔
      join.allNotNull left = true ∧ type.checkEq (join.leftKeys left) (join.rightKeys right) = true := by
  rw [joined, joined_eq, Bool.and_eq_true]
  exact Iff.rfl

theorem hashKeys_eq {left : L} (h : type.checkEq (join.leftKeys left) (join.rightKeys right) = true) :
    hashKeys type (join.leftKeys left) = hashKeys type (join.rightKeys right) := by
  rw [hashKeys, hashKeys, type.map_hashOf_eq h]

/-- Looking at the rows with the hash of a right row misses no row that joins with it. -/
theorem filter_storedAt (left : List L) (row : R) :
    ((join.storedAt type left (hashKeys type (join.rightKeys row))).filter fun other =>
        type.checkEq (join.leftKeys other) (join.rightKeys row)) =
      left.filter fun other => join.joined type other row := by
  rw [storedAt, filter_filter, filter_filter]
  refine filter_congr fun other _ => ?_
  rw [Bool.eq_iff_iff, joined_iff, Bool.and_eq_true, Bool.and_eq_true, decide_eq_true_eq]
  constructor
  · exact fun h => ⟨h.2, h.1.1⟩
  · exact fun h => ⟨⟨h.2, hashKeys_eq h.2⟩, h.1⟩

theorem innerJoin_eq (left : List L) (right : List R) :
    join.innerJoin type left right =
      right.flatMap fun row => (left.filter fun other => join.joined type other row).map fun other => (other, row) := by
  rw [innerJoin, filter_flatMap]
  refine flatMap_congr fun row _ => ?_
  rw [filter_map]
  rfl

/-! ## The build side -/

theorem foldlM_consumeLeft (left : List L) (ht : HashTable L) :
    left.foldlM (join.consumeLeft type) ht = (left.filter join.allNotNull).foldlM (join.insert type) ht := by
  induction left generalizing ht with
  | nil => rfl
  | cons row left ih =>
    rw [foldlM_cons, consumeLeft]
    split
    · rename_i hNotNull
      rw [filter_cons_of_pos hNotNull, foldlM_cons]
      exact bind_congr ih
    · rename_i hNull
      rw [filter_cons_of_neg hNull]
      exact ih ht

theorem foldlM_insertBucket_some (elementSize : Nat) (bucket : Vector L) (rows : List L) :
    rows.foldlM (insertBucket elementSize) (some bucket) = (bucket.pushAll rows).map some := by
  induction rows generalizing bucket with
  | nil => rfl
  | cons row rows ih =>
    rw [foldlM_cons, Vector.pushAll_cons, insertBucket, Option.getD_some]
    cases bucket.pushBack row with
    | none => rfl
    | some next => exact ih next

theorem foldlM_insertBucket (elementSize : Nat) (rows : List L) :
    rows.foldlM (insertBucket elementSize) none =
      if rows = [] then some none else ((Vector.create elementSize 2).pushAll rows).map some := by
  cases rows with
  | nil => rfl
  | cons row rows =>
    rw [if_neg (cons_ne_nil _ _), ← foldlM_insertBucket_some elementSize]
    rfl

/-- What the vectors hold when each takes what is pushed into it. -/
theorem execute_eq (read : List L → List L) (hNil : read [] = [])
    (hPush : ∀ hash, ∃ bucket, (Vector.create join.elementSize 2).pushAll (join.storedAt type left hash) = some bucket ∧
      bucket.elements = read (join.storedAt type left hash)) (right : List R) :
    join.execute type left right = some (right.flatMap fun row =>
      ((read (join.storedAt type left (hashKeys type (join.rightKeys row)))).filter fun other =>
        type.checkEq (join.leftKeys other) (join.rightKeys row)).map fun other => (other, row)) := by
  obtain ⟨ht, hBuild⟩ := (exists_foldlM_updateAt (insertBucket join.elementSize)
      (fun row => hashKeys type (join.leftKeys row)) (left.filter join.allNotNull) fun _ => none).mpr fun hash => by
    rw [foldlM_insertBucket]
    split
    · exact ⟨_, rfl⟩
    · obtain ⟨bucket, hBucket, _⟩ := hPush hash
      exact ⟨some bucket, by rw [storedAt] at hBucket; rw [hBucket]; rfl⟩
  have hBuckets := (foldlM_updateAt _ _ _ _ _).mp hBuild
  rw [execute, foldlM_consumeLeft]
  refine (congrArg (Option.map _) hBuild).trans ?_
  rw [Option.map_some]
  refine congrArg some (flatMap_congr fun row _ => ?_)
  have hBucket := hBuckets (hashKeys type (join.rightKeys row))
  rw [foldlM_insertBucket] at hBucket
  obtain ⟨bucket, hPushed, hRead⟩ := hPush (hashKeys type (join.rightKeys row))
  rw [consumeRight]
  split at hBucket
  · rename_i hEmpty
    rw [storedAt, hEmpty, hNil, ← Option.some.inj hBucket]
    rfl
  · rw [storedAt] at hPushed
    rw [hPushed, Option.map_some] at hBucket
    rw [← Option.some.inj hBucket, ← hRead]

/-! ## When the vectors hold what is pushed into them -/

/-- No hash has more rows than its vector can take. Rows that take no space only have to be counted. -/
def Fits (type : KeyType V) (join : HashJoinOperator L R V) (left : List L) (right : List R) : Prop :=
  ∀ hash, if join.elementSize = 0 then right = [] ∨ (join.storedAt type left hash).length < 2 ^ 31
    else (join.storedAt type left hash).length ≤ 2 ^ 30

theorem execute_of_fits (hFits : ∀ hash, (join.storedAt type left hash).length ≤ 2 ^ 30) (right : List R) :
    join.execute type left right = some (join.innerJoin type left right) := by
  rw [execute_eq id rfl (fun hash => ?_), innerJoin_eq]
  · simp only [id_eq, filter_storedAt]
  · have hCreate : (Vector.create join.elementSize 2 : Vector L).Holds [] := Vector.holds_create _ ⟨1, by decide, rfl⟩
    obtain ⟨bucket, hBucket, hHolds⟩ := hCreate.pushAll _ (hFits hash)
    exact ⟨bucket, hBucket, hHolds.elements⟩

theorem execute_of_full (hSpace : join.elementSize ≠ 0) (hash : BitVec 32)
    (hFull : 2 ^ 30 < (join.storedAt type left hash).length) (right : List R) :
    join.execute type left right = none := by
  have hCreate : (Vector.create join.elementSize 2 : Vector L).Holds [] := Vector.holds_create _ ⟨1, by decide, rfl⟩
  have hNone : (Vector.create join.elementSize 2).pushAll (join.storedAt type left hash) = none :=
    hCreate.pushAll_full _ (Nat.pos_of_ne_zero hSpace) (Nat.zero_le _) hFull
  rw [execute, foldlM_consumeLeft, Option.map_eq_none_iff, Option.eq_none_iff_forall_ne_some]
  intro ht hBuild
  have hBucket := (foldlM_updateAt _ _ _ _ _).mp hBuild hash
  rw [foldlM_insertBucket, if_neg, ← storedAt, hNone] at hBucket
  · cases hBucket
  · exact fun hNil => absurd hFull (by rw [storedAt, hNil]; simp)

theorem int32_zero : int32 0 = 0 := by decide

/-- Without keys every pair joins, and all rows are stored under one hash. -/
theorem keys_of_elementSize (hSpace : join.elementSize = 0) : join.keys = [] := by
  by_contra hKeys
  exact absurd (join.elementSize_pos hKeys) (by omega)

theorem execute_of_no_space (hSpace : join.elementSize = 0) (right : List R) :
    join.execute type left right = some (right.flatMap fun row =>
      (left.take (int32 left.length).toNat).map fun other => (other, row)) := by
  have hKeys := keys_of_elementSize hSpace
  rw [execute_eq (fun rows => rows.take (int32 rows.length).toNat) take_nil fun hash => ?_]
  · simp [storedAt, allNotNull, leftKeys, rightKeys, hKeys, KeyType.checkEq]
  · obtain ⟨bucket, hBucket, hData, hSize⟩ :=
      @Vector.pushAll_empty L (Vector.create join.elementSize 2) hSpace int32_zero (join.storedAt type left hash)
    refine ⟨bucket, hBucket, ?_⟩
    rw [Vector.elements, hData, hSize]
    simp [Vector.create]

theorem toNat_int32_lt {n : Nat} (h : 2 ^ 31 ≤ n) : (int32 n).toNat < n := by
  have : int32 n < 2 ^ 31 := by
    unfold int32
    exact Int.bmod_lt (by decide)
  omega

theorem innerJoin_of_no_keys (hKeys : join.keys = []) (left : List L) (right : List R) :
    join.innerJoin type left right = right.flatMap fun row => left.map fun other => (other, row) := by
  rw [innerJoin_eq]
  simp [joined, hKeys]

theorem storedAt_of_no_keys (hKeys : join.keys = []) (left : List L) (hash : BitVec 32) :
    join.storedAt type left hash = if hash = 0 then left else [] := by
  have hHash (row : L) : hashKeys type (join.leftKeys row) = 0 := by rw [leftKeys, hKeys]; rfl
  have hNotNull : left.filter join.allNotNull = left :=
    filter_eq_self.mpr fun row _ => by rw [allNotNull, leftKeys, hKeys]; rfl
  rw [storedAt, hNotNull]
  split
  · rename_i hZero
    exact filter_eq_self.mpr fun row _ => decide_eq_true (by rw [hHash, hZero])
  · rename_i hZero
    exact filter_eq_nil_iff.mpr fun row _ hEq => hZero ((of_decide_eq_true hEq).symm.trans (hHash row))

/-- The join returns the SQL inner join exactly when the vectors can hold the rows. -/
theorem returnsInnerJoin_iff (type : KeyType V) (join : HashJoinOperator L R V) (left : List L) (right : List R) :
    join.ReturnsInnerJoin type left right ↔ join.Fits type left right := by
  by_cases hSpace : join.elementSize = 0
  · have hKeys := keys_of_elementSize hSpace
    rw [ReturnsInnerJoin, execute_of_no_space hSpace, innerJoin_of_no_keys hKeys]
    simp only [Fits, hSpace, if_true, storedAt_of_no_keys hKeys]
    constructor
    · rintro ⟨rows, hRows, hPerm⟩ hash
      cases hRows
      have hLength := hPerm.length_eq
      by_contra hNot
      rw [not_or, not_lt] at hNot
      have hLarge : 2 ^ 31 ≤ left.length := by
        have hLe := hNot.2
        split at hLe
        · exact hLe
        · exact absurd hLe (by simp)
      have hPos := length_pos_iff.mpr hNot.1
      have hLess := toNat_int32_lt hLarge
      simp only [length_flatMap, length_map, length_take, map_const',
        sum_replicate_nat] at hLength
      have := Nat.eq_of_mul_eq_mul_left hPos hLength
      omega
    · intro hFits
      refine ⟨_, rfl, List.Perm.of_eq ?_⟩
      rcases hFits 0 with hNil | hLess
      · rw [hNil, flatMap_nil, flatMap_nil]
      · rw [if_pos rfl] at hLess
        have hLength : (int32 left.length).toNat = left.length := by
          rw [int32_eq] <;> omega
        rw [hLength, take_length]
  · simp only [Fits, hSpace, if_false]
    constructor
    · rintro ⟨rows, hRows, _⟩ hash
      by_contra hFull
      rw [execute_of_full hSpace hash (not_le.mp hFull)] at hRows
      cases hRows
    · intro hFits
      exact ⟨_, execute_of_fits hFits right, List.Perm.refl _⟩

/-- Rows that are their own key, four bytes each. -/
def equalNumbers : HashJoinOperator Nat Nat Nat := ⟨[(some, some)], 4, fun _ => by decide⟩

theorem storedAt_replicate (count : Nat) :
    equalNumbers.storedAt KeyType.number (List.replicate count 0) (hashKeys KeyType.number [some 0]) = List.replicate count 0 := by
  rw [storedAt, filter_replicate_of_pos rfl, filter_replicate_of_pos]
  exact decide_eq_true rfl

/-- Row 2^30 + 1 of one vector has no place. -/
theorem not_returnsInnerJoin_replicate :
    ¬equalNumbers.ReturnsInnerJoin KeyType.number (List.replicate (2 ^ 30 + 1) 0) [0] := by
  rintro ⟨rows, hRows, _⟩
  rw [execute_of_full (by decide) (hashKeys KeyType.number [some 0])] at hRows
  · cases hRows
  · rw [storedAt_replicate, length_replicate]
    omega

end HashJoinOperator

end

end KushDB.Join
