import KushDB.TupleIdxTable.Iterate

/-! # The radix tree as an ordered set

A run of insertions answers whether the compared bytes of a tuple are new, and the iteration visits one tuple for each
byte string in the order of the bytes. The tree is the ordered set of the inserted tuples exactly if the compared bytes
tell these tuples apart. They always do for tuples of fewer than 2^30 values; from this length on the number of bytes
wraps and only a part of the key is compared.
-/

namespace KushDB.TupleIdxTable

open List

/-! ## The abstract set -/

def isNew {α : Type} [DecidableEq α] (seen : List α) (value : α) : Bool :=
  decide (value ∉ seen)

variable {α β : Type} {seen : List α} {f : α → β} {len : Nat}

theorem isNew_iff [DecidableEq α] {value : α} : isNew seen value = true ↔ value ∉ seen :=
  decide_eq_true_iff

/-- Whether each element is not among the ones before it. -/
def answers {α : Type} [DecidableEq α] : List α → List α → List Bool
  | _, [] => []
  | seen, value :: values => isNew seen value :: answers (value :: seen) values

def Separates {α β : Type} (f : α → β) (values : List α) : Prop :=
  ∀ one ∈ values, ∀ other ∈ values, f one = f other → one = other

variable {values : List α} {tuple : Tuple} {tuples : List Tuple}

theorem Separates.subset {fewer : List α} (h : Separates f values) (hSubset : fewer ⊆ values) : Separates f fewer :=
  fun one hOne other hOther => h one (hSubset hOne) other (hSubset hOther)

theorem separates_cons_iff (hSeen : Separates f seen) (value : α) :
    Separates f (value :: seen) ↔ (f value ∈ seen.map f ↔ value ∈ seen) := by
  constructor
  · refine fun h => ⟨fun hMem => ?_, mem_map_of_mem⟩
    obtain ⟨other, hOther, hSame⟩ := mem_map.mp hMem
    have hEq := h other (mem_cons_of_mem _ hOther) value mem_cons_self hSame
    exact hEq ▸ hOther
  · intro h one hOne other hOther hSame
    rcases mem_cons.mp hOne with rfl | hOld
    · rcases mem_cons.mp hOther with rfl | hOther
      · rfl
      · exact hSeen _ (h.mp (mem_map.mpr ⟨other, hOther, hSame.symm⟩)) _ hOther hSame
    · rcases mem_cons.mp hOther with rfl | hOther
      · exact hSeen _ hOld _ (h.mp (mem_map.mpr ⟨one, hOld, hSame⟩)) hSame
      · exact hSeen _ hOld _ hOther hSame

theorem answers_map_iff [DecidableEq α] [DecidableEq β] (hSeen : Separates f seen) :
    answers (seen.map f) (values.map f) = answers seen values ↔ Separates f (values.reverse ++ seen) := by
  induction values generalizing seen with
  | nil => exact iff_of_true rfl hSeen
  | cons value values ih =>
    rw [map_cons, answers, answers, cons_eq_cons, reverse_cons, append_assoc, singleton_append,
      ← map_cons, Bool.eq_iff_iff, isNew_iff, isNew_iff, not_iff_not, ← separates_cons_iff hSeen]
    constructor
    · rintro ⟨hValue, hRest⟩
      exact (ih hValue).mp hRest
    · intro h
      have hValue := h.subset (subset_append_right _ _)
      exact ⟨hValue, (ih hValue).mpr h⟩

/-! ## Keys of tuples -/

def keyBytes (tuple : Tuple) : List Byte :=
  tuple.flatMap valueBytes

@[simp]
theorem data_createKey (tuple : Tuple) : (createKey tuple).data = keyBytes tuple := rfl

theorem length_valueBytes (value : BitVec 32) : (valueBytes value).length = 4 := by
  rw [valueBytes, length_map, Bytes.length_encode]

theorem length_keyBytes (tuple : Tuple) : (keyBytes tuple).length = 4 * tuple.length := by
  induction tuple with
  | nil => rfl
  | cons value tuple ih =>
    rw [keyBytes, flatMap_cons, length_append, length_valueBytes, length_cons]
    rw [keyBytes] at ih
    omega

/-- The number of compared bytes of a tuple of `len` values. -/
def comparedBytes (len : Nat) : Nat :=
  4 * len % 2 ^ 32

def compared (len : Nat) (tuple : Tuple) : List Byte :=
  (keyBytes tuple).take (comparedBytes len)

theorem fits_createKey (h : tuple.length = len) :
    (createKey tuple).Fits (comparedBytes len) where
  length_eq := by rw [createKey, comparedBytes, h]
  length_le := by
    rw [data_createKey, length_keyBytes, h]
    exact Nat.mod_le _ _

theorem bytes_createKey (h : tuple.length = len) : (createKey tuple).bytes = compared len tuple := by
  rw [Key.bytes, (fits_createKey h).length_eq, data_createKey, compared]

/-! ## Runs -/

def HoldsTree (length : Nat) : Option Node → List Key → Prop
  | none, keys => keys = []
  | some node, keys => Holds length [] node keys

theorem HoldsTree.insert {length : Nat} {tree : Option Node} {keys : List Key} (h : HoldsTree length tree keys)
    {tuple : Tuple} (hFits : (createKey tuple).Fits length) :
    Inserted length [] (createKey tuple) keys (insert tree tuple) := by
  rw [TupleIdxTable.insert]
  cases tree with
  | none =>
    rw [insertImpl]
    refine inserted_of_holds (Holds.leaf nil_prefix hFits) ?_ ?_
    · rw [show keys = [] from h]
      exact fun old hOld => absurd hOld not_mem_nil
    · rw [show keys = [] from h]
      simp
  | some node =>
    refine inserted_insertImpl h hFits nil_prefix ?_
    have hLength := hFits.length_le
    rw [length_nil]
    omega

/-- The tree holds, for each string of compared bytes of the tuples inserted so far, one of these tuples. -/
structure Represents (len : Nat) (tree : Option Node) (seen : List Tuple) (keys : List Key) : Prop where
  holds : HoldsTree (comparedBytes len) tree keys
  of_seen : ∀ key ∈ keys, ∃ tuple ∈ seen, key = createKey tuple
  bytes_iff : ∀ bytes, bytes ∈ keys.map Key.bytes ↔ bytes ∈ seen.map (compared len)

theorem represents_nil (len : Nat) : Represents len none [] [] where
  holds := rfl
  of_seen := fun _ hKey => absurd hKey not_mem_nil
  bytes_iff := fun _ => Iff.rfl

theorem Represents.insert {len : Nat} {tree : Option Node} {seen : List Tuple} {keys : List Key}
    (h : Represents len tree seen keys) {tuple : Tuple} (hTuple : tuple.length = len) :
    ∃ node all, insert tree tuple = some (node, isNew (seen.map (compared len)) (compared len tuple)) ∧
      Represents len (some node) (tuple :: seen) all := by
  obtain ⟨node, all, added, hInsert, hHolds, hAdded, hAll⟩ := h.holds.insert (fits_createKey hTuple)
  have hNew : added = true ↔ compared len tuple ∉ seen.map (compared len) := by
    rw [hAdded, ← h.bytes_iff, bytes_createKey hTuple, mem_map]
    constructor
    · rintro hAll ⟨old, hOld, hSame⟩
      exact hAll old hOld hSame
    · exact fun hNone old hOld hSame => hNone ⟨old, hOld, hSame⟩
  refine ⟨node, all, ?_, hHolds, fun key hKey => ?_, fun bytes => ?_⟩
  · rw [hInsert]
    exact congrArg some (Prod.ext rfl (Bool.eq_iff_iff.mpr (hNew.trans isNew_iff.symm)))
  · rcases (hAll key).mp hKey with hKey | ⟨_, rfl⟩
    · obtain ⟨old, hOld, hEq⟩ := h.of_seen key hKey
      exact ⟨old, mem_cons_of_mem _ hOld, hEq⟩
    · exact ⟨tuple, mem_cons_self, rfl⟩
  · rw [map_cons, mem_cons, ← h.bytes_iff, mem_map, mem_map]
    constructor
    · rintro ⟨key, hKey, rfl⟩
      rcases (hAll key).mp hKey with hKey | ⟨_, rfl⟩
      · exact Or.inr ⟨key, hKey, rfl⟩
      · exact Or.inl (bytes_createKey hTuple)
    · rintro (rfl | ⟨key, hKey, rfl⟩)
      · by_cases hTrue : added = true
        · exact ⟨createKey tuple, (hAll _).mpr (Or.inr ⟨hTrue, rfl⟩), bytes_createKey hTuple⟩
        · have hOld := not_not.mp (fun hFresh => hTrue (hNew.mpr hFresh))
          obtain ⟨key, hKey, hBytes⟩ := mem_map.mp ((h.bytes_iff _).mpr hOld)
          exact ⟨key, (hAll key).mpr (Or.inl hKey), hBytes⟩
      · exact ⟨key, (hAll key).mpr (Or.inl hKey), rfl⟩

theorem Represents.insertAll {len : Nat} {tree : Option Node} {seen tuples : List Tuple} {keys : List Key}
    (h : Represents len tree seen keys) (hTuples : ∀ tuple ∈ tuples, tuple.length = len) :
    ∃ after all, insertAll tree tuples = some (after, answers (seen.map (compared len)) (tuples.map (compared len))) ∧
      Represents len after (tuples.reverse ++ seen) all := by
  induction tuples generalizing tree seen keys with
  | nil => exact ⟨tree, keys, rfl, h⟩
  | cons tuple tuples ih =>
    obtain ⟨node, all, hInsert, hNode⟩ := h.insert (hTuples tuple mem_cons_self)
    obtain ⟨after, all, hRest, hAfter⟩ := ih hNode fun other hOther => hTuples other (mem_cons_of_mem _ hOther)
    refine ⟨after, all, ?_, ?_⟩
    · rw [TupleIdxTable.insertAll, hInsert]
      simp only [Option.bind_eq_bind, Option.bind_some, hRest]
      rfl
    · rw [reverse_cons, append_assoc]
      exact hAfter

/-! ## The iteration -/

theorem HoldsTree.visit {length : Nat} {tree : Option Node} {keys : List Key} (h : HoldsTree length tree keys) :
    ∃ fuel, visit fuel tree = some (keys.map Key.tuple) := by
  cases tree with
  | none => exact ⟨0, by rw [show keys = [] from h]; rfl⟩
  | some node => exact visit_spec h

theorem HoldsTree.sorted {length : Nat} {tree : Option Node} {keys : List Key} (h : HoldsTree length tree keys) :
    keys.Pairwise fun one other => one.bytes < other.bytes := by
  cases tree with
  | none =>
    rw [show keys = [] from h]
    exact List.Pairwise.nil
  | some node => exact Holds.sorted h

/-- The tree answers every insertion as the set of the tuples does, and its iteration visits the tuples in the order of
their bytes. -/
def ExactOrderedSet (tuples : List Tuple) : Prop :=
  ∃ tree fuel visited, insertAll none tuples = some (tree, answers [] tuples) ∧ visit fuel tree = some visited ∧
    (visited.Pairwise fun one other => keyBytes one < keyBytes other) ∧ ∀ tuple, tuple ∈ visited ↔ tuple ∈ tuples

theorem append_lt_append {one other : List Byte} (h : one < other) (hLength : one.length = other.length)
    (rest rest' : List Byte) : one ++ rest < other ++ rest' := by
  induction h with
  | nil => cases hLength
  | rel hLt => exact List.Lex.rel hLt
  | cons _ ih => exact List.Lex.cons (ih (Nat.succ.inj hLength))

theorem keyBytes_lt_of_bytes_lt {one other : Tuple} (hOne : one.length = len) (hOther : other.length = len)
    (h : (createKey one).bytes < (createKey other).bytes) : keyBytes one < keyBytes other := by
  have hLengths := (fits_createKey hOne).length_bytes.trans (fits_createKey hOther).length_bytes.symm
  have hAppend := append_lt_append h hLengths
    ((keyBytes one).drop (comparedBytes len)) ((keyBytes other).drop (comparedBytes len))
  rw [bytes_createKey hOne, bytes_createKey hOther, compared, compared, take_append_drop,
    take_append_drop] at hAppend
  exact hAppend

theorem exactOrderedSet_of_separates (hTuples : ∀ tuple ∈ tuples, tuple.length = len)
    (hSeparates : Separates (compared len) tuples) : ExactOrderedSet tuples := by
  obtain ⟨tree, keys, hRun, hTree⟩ := (represents_nil len).insertAll hTuples
  rw [append_nil] at hTree
  have hKeys : ∀ key ∈ keys, ∃ tuple ∈ tuples, key = createKey tuple := by
    intro key hKey
    obtain ⟨tuple, hTuple, rfl⟩ := hTree.of_seen key hKey
    exact ⟨tuple, mem_reverse.mp hTuple, rfl⟩
  have hAnswers : answers ([].map (compared len)) (tuples.map (compared len)) = answers [] tuples := by
    refine (answers_map_iff fun _ hOne => absurd hOne not_mem_nil).mpr ?_
    rw [append_nil]
    exact hSeparates.subset fun _ => mem_reverse.mp
  obtain ⟨fuel, hVisit⟩ := hTree.holds.visit
  refine ⟨tree, fuel, keys.map Key.tuple, hAnswers ▸ hRun, hVisit, ?_, fun tuple => ?_⟩
  · refine pairwise_map.mpr (hTree.holds.sorted.imp_of_mem ?_)
    intro one other hOneKey hOtherKey hLt
    obtain ⟨one, hOne, rfl⟩ := hKeys one hOneKey
    obtain ⟨other, hOther, rfl⟩ := hKeys other hOtherKey
    exact keyBytes_lt_of_bytes_lt (hTuples one hOne) (hTuples other hOther) hLt
  · rw [mem_map]
    constructor
    · rintro ⟨key, hKey, rfl⟩
      obtain ⟨tuple, hTuple, rfl⟩ := hKeys key hKey
      exact hTuple
    · intro hTuple
      have hBytes := (hTree.bytes_iff _).mpr (mem_map_of_mem (mem_reverse.mpr hTuple))
      obtain ⟨key, hKey, hSame⟩ := mem_map.mp hBytes
      obtain ⟨other, hOther, rfl⟩ := hKeys key hKey
      rw [bytes_createKey (hTuples other hOther)] at hSame
      exact ⟨_, hKey, hSeparates other hOther tuple hTuple hSame⟩

theorem separates_of_exactOrderedSet (hTuples : ∀ tuple ∈ tuples, tuple.length = len) (h : ExactOrderedSet tuples) :
    Separates (compared len) tuples := by
  obtain ⟨tree, _, _, hExact, _⟩ := h
  obtain ⟨tree', keys, hRun, _⟩ := (represents_nil len).insertAll hTuples
  have hAnswers := congrArg Prod.snd (Option.some.inj (hRun.symm.trans hExact))
  have hSeparates := (answers_map_iff fun _ hOne => absurd hOne not_mem_nil).mp hAnswers
  rw [append_nil] at hSeparates
  exact hSeparates.subset fun _ => mem_reverse.mpr

theorem exactOrderedSet_iff {len : Nat} {tuples : List Tuple} (hTuples : ∀ tuple ∈ tuples, tuple.length = len) :
    ExactOrderedSet tuples ↔ ∀ one ∈ tuples, ∀ other ∈ tuples,
      (keyBytes one).take (4 * len % 2 ^ 32) = (keyBytes other).take (4 * len % 2 ^ 32) → one = other :=
  ⟨separates_of_exactOrderedSet hTuples, exactOrderedSet_of_separates hTuples⟩

theorem exactOrderedSet_pairs : ExactOrderedSet [[1, 2], [3, 2], [1, 2]] :=
  (@exactOrderedSet_iff 2 _ (by decide)).mpr (by decide)

theorem not_exactOrderedSet_replicate {len : Nat} (hLen : 0 < len) (hBytes : 4 * len % 2 ^ 32 = 0) :
    ¬ ExactOrderedSet [List.replicate len 0, List.replicate len 1] := by
  intro h
  have hTuples : ∀ tuple ∈ [List.replicate len (0 : BitVec 32), List.replicate len 1], tuple.length = len := by
    simp only [mem_cons, not_mem_nil, or_false]
    rintro tuple (rfl | rfl) <;> exact length_replicate
  have hNothing : ∀ tuple, compared len tuple = [] := by
    intro tuple
    rw [compared, comparedBytes, hBytes, take_zero]
  have hSame := separates_of_exactOrderedSet hTuples h _ mem_cons_self _
    (mem_cons_of_mem _ mem_cons_self) ((hNothing _).trans (hNothing _).symm)
  have hValue := congrArg head? hSame
  rw [head?_replicate, head?_replicate, if_neg (by omega), if_neg (by omega)] at hValue
  exact absurd (Option.some.inj hValue) (by decide)

/-- Of the keys of 2^30 values no byte is compared. -/
theorem not_exactOrderedSet_long :
    ¬ ExactOrderedSet [List.replicate 1073741824 0, List.replicate 1073741824 1] :=
  @not_exactOrderedSet_replicate 1073741824 (by decide) (by decide)

end KushDB.TupleIdxTable
