import KushDB.ColumnIndex.MemoryColumnIndex

/-! # Insertions into the column index in memory

The table holds one bucket for each key, and the buckets hold the lists of the map. This is kept by every insertion
that returns. An insertion does not return once the capacity of the table is 2^31, or when its bucket holds 2^30
tuples.
-/

namespace KushDB.ColumnIndex.MemoryColumnIndex

open KushDB.Execution Compile GroupBy Grouping List
open KushDB.Runtime (Vector)

variable {V : Type} {index : MemoryColumnIndex V} {calls : List (V × Int)} {ht : HashDirectory V (Vector Int)}

def bucketed (payload : Payload V (List Int)) : Payload V (Vector Int) :=
  ⟨payload.hash, payload.key, bucketOf payload.state⟩

structure Holds (index : MemoryColumnIndex V) (calls : List (V × Int)) (ht : HashDirectory V (Vector Int)) : Prop where
  represents : Represents index.type.single ht ((index.groups calls).map bucketed)
  load : 3 * (index.groups calls).length ≤ 2 * ht.capacity
  capacity : ht.capacity = 2 ^ 31 ↔ 2 ^ 31 < 3 * (index.groups calls).length
  lengths : ∀ payload ∈ index.groups calls, payload.state.length ≤ 2 ^ 30

/-- The end of a search, in terms of the lists. -/
theorem lookup_cases (h : Represents index.type.single ht ((index.groups calls).map bucketed)) (key : V) :
    (∃ idx, ht.lookup index.type.single key = some (.empty idx) ∧
      (∀ payload ∈ index.groups calls, index.type.eq payload.key key = false) ∧
      ∀ bucket, 3 * (index.groups calls).length ≤ 2 * ht.capacity →
        Represents index.type.single (ht.insert idx ⟨index.type.single.hash key, key, bucket⟩)
          ((index.groups calls).map bucketed ++ [⟨index.type.single.hash key, key, bucket⟩])) ∨
    ∃ number payload, (index.groups calls)[number]? = some payload ∧ index.type.eq payload.key key = true ∧
      ht.lookup index.type.single key =
        some (.payload (ht.blocks.computeBlockIdx number) (ht.blocks.computeBlockOffset number)) ∧
      ht.blocks.getPayload (ht.blocks.computeBlockIdx number) (ht.blocks.computeBlockOffset number) =
        some (bucketed payload) := by
  rcases h.lookup key with ⟨idx, hLookup, hNew, hInsert⟩ | ⟨number, payload, hPayload, hEq, hLookup⟩
  · refine Or.inl ⟨idx, hLookup, fun payload hMem => hNew (bucketed payload) (mem_map_of_mem hMem), fun bucket hRoom => ?_⟩
    exact hInsert bucket (by rwa [length_map])
  · have hRead := h.getPayload (List.getElem?_eq_some_iff.mp hPayload).1
    rw [hPayload] at hRead
    rw [getElem?_map, Option.map_eq_some_iff] at hPayload
    obtain ⟨list, hList, rfl⟩ := hPayload
    exact Or.inr ⟨number, list, hList, hEq, hLookup, hRead⟩

theorem length_groups_append (index : MemoryColumnIndex V) (calls : List (V × Int)) (call : V × Int) :
    (index.groups calls).length ≤ (index.groups (calls ++ [call])).length := by
  rw [groups_append]
  exact length_le_upsert call _

variable {call : V × Int}

theorem belongs_first (h : Represents index.type.single ht ((index.groups calls).map bucketed)) {number : Nat}
    {payload : Payload V (List Int)} (hPayload : (index.groups calls)[number]? = some payload)
    (hBelongs : index.belongs payload call = true) :
    ∀ earlier < number, ∀ other, (index.groups calls)[earlier]? = some other → index.belongs other call = false := by
  have hBucketed : ∀ {number : Nat} {payload : Payload V (List Int)}, (index.groups calls)[number]? = some payload →
      ((index.groups calls).map bucketed)[number]? = some (bucketed payload) := by
    intro number payload hAt
    rw [getElem?_map, hAt, Option.map_some]
  have hKey : index.type.single.eq (bucketed payload).key call.1 = true := hBelongs
  intro earlier hEarlier other hOther
  exact h.first (hBucketed hPayload) hKey earlier hEarlier (bucketed other) (hBucketed hOther)

/-- Storing a tuple, when the bucket of its key has room. -/
theorem Holds.store (h : Holds index calls ht) (call : V × Int)
    (hRoom : (index.tuplesOf calls call.1).length < 2 ^ 30) :
    ∃ next, index.store ht call.1 call.2 = some next ∧ next.capacity = ht.capacity ∧
      Represents index.type.single next ((index.groups (calls ++ [call])).map bucketed) ∧
      ∀ payload ∈ index.groups (calls ++ [call]), payload.state.length ≤ 2 ^ 30 := by
  rw [MemoryColumnIndex.store, groups_append]
  rcases lookup_cases h.represents call.1 with
    ⟨idx, hLookup, hNew, hInsert⟩ | ⟨number, payload, hPayload, hEq, hLookup, hRead⟩
  · have hNone : ∀ payload ∈ index.groups calls, index.belongs payload call = false := hNew
    rw [hLookup, upsert_of_none hNone, map_append]
    have hFirst : bucketInit.pushBack call.2 = some (bucketOf [call.2]) :=
      pushBack_bucketOf (by decide : ([] : List Int).length < 2 ^ 30) call.2
    simp only [Option.bind_some, hFirst, Option.map_some]
    refine ⟨_, rfl, rfl, hInsert _ h.load, ?_⟩
    intro payload hMem
    rcases mem_append.mp hMem with hOld | hLast
    · exact h.lengths payload hOld
    · rw [mem_singleton.mp hLast]
      exact (by decide : 1 ≤ 2 ^ 30)
  · have hState := state_eq (mem_of_getElem? hPayload) hEq
    have hPush := pushBack_bucketOf (by rwa [hState] : payload.state.length < 2 ^ 30) call.2
    rw [hLookup, upsert_of_first hPayload hEq (belongs_first h.represents hPayload hEq), map_set]
    simp only [Option.bind_some, hRead, bucketed, hPush, Option.map_some]
    have hBucketed : ((index.groups calls).map bucketed)[number]? = some (bucketed payload) := by
      rw [getElem?_map, hPayload, Option.map_some]
    refine ⟨_, rfl, rfl, h.represents.setState hBucketed _, ?_⟩
    intro other hOther
    rcases mem_or_eq_of_mem_set hOther with hOld | rfl
    · exact h.lengths other hOld
    · rw [addTuple, length_append, length_singleton, hState]
      exact hRoom

/-- One insertion that returns. -/
theorem Holds.insert (h : Holds index calls ht) (call : V × Int) (hFew : 3 * (index.groups calls).length ≤ 2 ^ 31)
    (hRoom : (index.tuplesOf calls call.1).length < 2 ^ 30) :
    ∃ next, index.insert ht call = some next ∧ Holds index (calls ++ [call]) next := by
  obtain ⟨stored, hStored, hSame, hRepresents, hLengths⟩ := h.store call hRoom
  have hSmall := h.represents.capacity_le fun hEq => absurd (h.capacity.mp hEq) (by omega)
  rw [← hSame] at hSmall
  obtain ⟨next, hNext, hAfter, hLoad, hCapacity⟩ := hRepresents.ensureEmptySlot hSmall
  have hLarge := hRepresents.capacity_eq hSmall
  rw [length_map] at hLoad hCapacity hLarge
  refine ⟨next, by rw [MemoryColumnIndex.insert, hStored, Option.bind_some, hNext], hAfter, hLoad, ?_, hLengths⟩
  constructor
  · intro hEq
    rw [hEq] at hCapacity
    split at hCapacity <;> omega
  · intro hMany
    have hEq := hLarge hMany
    rw [hCapacity, if_pos (by omega)]
    omega

/-! ## Insertions that do not return -/

theorem Holds.store_eq_none (h : Holds index calls ht) (call : V × Int)
    (hFull : 2 ^ 30 ≤ (index.tuplesOf calls call.1).length) : index.store ht call.1 call.2 = none := by
  rw [MemoryColumnIndex.store]
  rcases lookup_cases h.represents call.1 with
    ⟨idx, hLookup, hNew, hInsert⟩ | ⟨number, payload, hPayload, hEq, hLookup, hRead⟩
  · rw [tuplesOf_eq_nil hNew, length_nil] at hFull
    omega
  · have hMem := mem_of_getElem? hPayload
    have hLength : payload.state.length = 2 ^ 30 :=
      Nat.le_antisymm (h.lengths payload hMem) (by rwa [state_eq hMem hEq])
    rw [hLookup, Option.bind_some]
    simp only [hRead, Option.bind_some, bucketed, pushBack_bucketOf_full hLength, Option.map_none]

theorem Holds.insert_eq_none (h : Holds index calls ht) (call : V × Int)
    (hMany : 2 ^ 31 < 3 * (index.groups calls).length ∨ 2 ^ 30 ≤ (index.tuplesOf calls call.1).length) :
    index.insert ht call = none := by
  by_cases hFull : 2 ^ 30 ≤ (index.tuplesOf calls call.1).length
  · rw [MemoryColumnIndex.insert, h.store_eq_none call hFull, Option.bind_none]
  · have hMore : 2 ^ 31 < 3 * (index.groups calls).length := hMany.resolve_right hFull
    obtain ⟨stored, hStored, hSame, hRepresents, _⟩ := h.store call (by omega)
    have hLe := length_groups_append index calls call
    have hSome : (index.groups (calls ++ [call])).map bucketed ≠ [] := by
      intro hNil
      rw [map_eq_nil_iff.mp hNil, length_nil] at hLe
      omega
    rw [MemoryColumnIndex.insert, hStored, Option.bind_some]
    exact hRepresents.ensureEmptySlot_eq_none (hSame.trans (h.capacity.mpr hMore)) hSome

/-! ## All insertions -/

/-- No key has more tuples than its bucket can take, and the calls but the last have left room in the directory. -/
def Fits (index : MemoryColumnIndex V) (calls : List (V × Int)) : Prop :=
  3 * (index.groups calls.dropLast).length ≤ 2 ^ 31 ∧ ∀ key, (index.tuplesOf calls key).length ≤ 2 ^ 30

theorem insertAll_append (calls : List (V × Int)) (call : V × Int) :
    index.insertAll (calls ++ [call]) = (index.insertAll calls).bind fun ht => index.insert ht call := by
  rw [insertAll, foldlM_append]
  simp only [foldlM_cons, foldlM_nil, bind_pure]
  rfl

theorem holds_init (index : MemoryColumnIndex V) : Holds index [] index.init := by
  have hNil : index.groups [] = [] := by rw [groups, groupsOf]
  refine ⟨?_, ?_, ?_, ?_⟩ <;> rw [hNil]
  · exact represents_init index.type.single index.payloadSize_pos index.payloadSize_le
  · exact Nat.zero_le _
  · rw [length_nil]
    change 1024 = 2 ^ 31 ↔ 2 ^ 31 < 3 * 0
    decide
  · intro payload hMem
    cases hMem

theorem Fits.of_append (h : Fits index (calls ++ [call])) :
    Fits index calls ∧ 3 * (index.groups calls).length ≤ 2 ^ 31 := by
  obtain ⟨hFew, hLists⟩ := h
  rw [dropLast_concat] at hFew
  refine ⟨⟨?_, fun key => ?_⟩, hFew⟩
  · rcases eq_nil_or_concat calls with rfl | ⟨earlier, last, rfl⟩
    · exact hFew
    · have hLe := length_groups_append index earlier last
      rw [concat_eq_append] at hFew ⊢
      rw [dropLast_concat]
      omega
  · have hLe := hLists key
    rw [tuplesOf_append, length_append] at hLe
    omega

/-- A call that does not fit exceeds the directory or its own bucket. -/
theorem not_fits_append (h : Fits index calls) (hNot : ¬Fits index (calls ++ [call])) :
    2 ^ 31 < 3 * (index.groups calls).length ∨ 2 ^ 30 ≤ (index.tuplesOf calls call.1).length := by
  by_contra hBoth
  rw [not_or, not_lt, not_le] at hBoth
  refine hNot ⟨by rw [dropLast_concat]; exact hBoth.1, fun key => ?_⟩
  rw [tuplesOf_append, length_append]
  split
  · rename_i hEq
    rw [← tuplesOf_congr hEq, length_singleton]
    omega
  · rw [length_nil, Nat.add_zero]
    exact h.2 key

theorem insertAll_of_fits (h : Fits index calls) : ∃ ht, index.insertAll calls = some ht ∧ Holds index calls ht := by
  induction calls using List.reverseRecOn with
  | nil => exact ⟨_, rfl, holds_init index⟩
  | append_singleton calls call ih =>
    obtain ⟨hFits, hFew⟩ := h.of_append
    obtain ⟨ht, hRun, hHolds⟩ := ih hFits
    have hRoom : (index.tuplesOf calls call.1).length < 2 ^ 30 := by
      have hLe := h.2 call.1
      rw [tuplesOf_append, length_append] at hLe
      cases hSelf : index.type.eq call.1 call.1 with
      | false =>
        rw [tuplesOf_of_ne hSelf]
        decide
      | true =>
        rw [hSelf, if_pos rfl, length_singleton] at hLe
        exact hLe
    obtain ⟨next, hNext, hStep⟩ := hHolds.insert call hFew hRoom
    exact ⟨next, by rw [insertAll_append, hRun, Option.bind_some, hNext], hStep⟩

theorem insertAll_of_not_fits (h : ¬Fits index calls) : index.insertAll calls = none := by
  induction calls using List.reverseRecOn with
  | nil => exact absurd ⟨by rw [dropLast_nil, groups, groupsOf, length_nil]; decide, fun _ => Nat.zero_le _⟩ h
  | append_singleton calls call ih =>
    rw [insertAll_append]
    by_cases hFits : Fits index calls
    · obtain ⟨ht, hRun, hHolds⟩ := insertAll_of_fits hFits
      rw [hRun, Option.bind_some, hHolds.insert_eq_none call (not_fits_append hFits h)]
    · rw [ih hFits, Option.bind_none]

theorem Holds.getBucket (h : Holds index calls ht) (key : V) :
    (index.getBucket ht key).map (Option.map Vector.elements) = some (index.mapOf calls key) := by
  rw [MemoryColumnIndex.getBucket, mapOf]
  rcases lookup_cases h.represents key with
    ⟨idx, hLookup, hNew, _⟩ | ⟨number, payload, hPayload, hEq, hLookup, hRead⟩
  · rw [hLookup, if_pos (tuplesOf_eq_nil hNew)]
    rfl
  · have hMem := mem_of_getElem? hPayload
    rw [hLookup, ← state_eq hMem hEq, if_neg (state_ne_nil hMem), Option.bind_some]
    simp only [hRead, Option.map_some, bucketed, (pushAll_bucketInit (h.lengths payload hMem)).2.elements]

/-- The index refines the map exactly when the calls but the last have at most 2^31 / 3 different keys and no key has
more than 2^30 tuples. -/
theorem refinesMap_iff (index : MemoryColumnIndex V) (calls : List (V × Int)) :
    index.RefinesMap calls ↔
      3 * (index.groups calls.dropLast).length ≤ 2 ^ 31 ∧ ∀ key, (index.tuplesOf calls key).length ≤ 2 ^ 30 := by
  constructor
  · rintro ⟨ht, hRun, _⟩
    by_contra hNot
    rw [insertAll_of_not_fits hNot] at hRun
    cases hRun
  · intro hFits
    obtain ⟨ht, hRun, hHolds⟩ := insertAll_of_fits hFits
    exact ⟨ht, hRun, hHolds.getBucket⟩

/-- An index on numbers. -/
def numbers : MemoryColumnIndex Nat where
  type := KeyType.number
  payloadSize := 40
  payloadSize_pos := by decide
  payloadSize_le := by decide

/-- One key for all tuples, which come in ascending order. -/
def sameKey (count : Nat) : List (Nat × Int) := (List.range count).map fun tuple => (7, Int.ofNat tuple)

theorem sameKey_ascending (count : Nat) : (sameKey count).Pairwise fun left right => left.2 < right.2 := by
  rw [sameKey, pairwise_map]
  exact pairwise_lt_range.imp fun h => Int.ofNat_lt.mpr h

theorem length_tuplesOf_sameKey (count : Nat) : (numbers.tuplesOf (sameKey count) 7).length = count := by
  have hAll : ((sameKey count).filter fun call => numbers.type.eq call.1 7) = sameKey count := by
    refine filter_eq_self.mpr fun call hCall => ?_
    obtain ⟨tuple, _, rfl⟩ := mem_map.mp hCall
    rfl
  rw [tuplesOf, hAll, length_map, sameKey, length_map, length_range]

/-- The bucket of one key is full when the tuple 2^30 comes. -/
theorem not_refinesMap_sameKey : ((sameKey 1073741825).Pairwise fun left right => left.2 < right.2) ∧
    ¬numbers.RefinesMap (sameKey 1073741825) := by
  refine ⟨sameKey_ascending _, ?_⟩
  rintro ⟨ht, hRun, _⟩
  rw [insertAll_of_not_fits] at hRun
  · cases hRun
  · rintro ⟨_, hLists⟩
    have hLe := hLists 7
    rw [length_tuplesOf_sameKey] at hLe
    omega

end KushDB.ColumnIndex.MemoryColumnIndex
