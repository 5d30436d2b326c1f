import KushDB.GroupBy.Directory

/-! # What a paged table with a directory keeps

The table holds its payloads and finds the payload of a key. This holds across insertions and changes of a payload,
and building the directory anew gives it again, up to a capacity of 2^31.
-/

namespace KushDB.GroupBy

open KushDB.Execution Compile Probing List

section

variable {K S : Type} {type : KeyType K} {ht : HashDirectory K S} {groups : List (Payload K S)}

def hashAt (groups : List (Payload K S)) (number : Nat) : BitVec 64 := ((groups.map Payload.hash)[number]?).getD 0

/-- The table holds these payloads, in the order of their insertion, and finds them. -/
structure Represents (type : KeyType K) (ht : HashDirectory K S) (groups : List (Payload K S)) : Prop where
  stores : ht.blocks.Stores groups
  size : ht.size = groups.length
  length : ht.entries.length = ht.capacity
  power : ∃ doublings, 10 ≤ doublings ∧ doublings ≤ 31 ∧ ht.capacity = 2 ^ doublings
  mask : ht.mask = ht.capacity - 1
  load : 3 * groups.length ≤ 2 * ht.capacity + 3
  directory : ∃ slot, Directory ht.blocks (hashAt groups) groups.length ht.entries slot
  hashes : ∀ payload ∈ groups, payload.hash = type.hash payload.key
  distinct : groups.Pairwise fun left right => type.eq left.key right.key = false

theorem Represents.bounds (h : Represents type ht groups) :
    1024 ≤ ht.capacity ∧ ht.capacity ≤ 2 ^ 31 ∧ groups.length < ht.capacity := by
  obtain ⟨doublings, hLow, hHigh, hCapacity⟩ := h.power
  have hLe : 2 ^ 10 ≤ 2 ^ doublings := Nat.pow_le_pow_right (by decide) hLow
  have hGe : 2 ^ doublings ≤ 2 ^ 31 := Nat.pow_le_pow_right (by decide) hHigh
  have := h.load
  omega

theorem Represents.capacity_le (h : Represents type ht groups) (hNot : ht.capacity ≠ 2 ^ 31) : ht.capacity ≤ 2 ^ 30 := by
  obtain ⟨doublings, _, hHigh, hCapacity⟩ := h.power
  rw [hCapacity] at hNot ⊢
  refine Nat.pow_le_pow_right (by decide) ?_
  by_contra hLarge
  exact hNot (by rw [show doublings = 31 by omega])

/-- A table with more than 2^31 / 3 payloads has more than 2^29 entries. -/
theorem Represents.capacity_eq (h : Represents type ht groups) (hSmall : ht.capacity ≤ 2 ^ 30)
    (hMany : 2 ^ 31 < 3 * groups.length) : ht.capacity = 2 ^ 30 := by
  obtain ⟨doublings, _, _, hCapacity⟩ := h.power
  have hLoad := h.load
  have hLow : 29 < doublings := by
    by_contra hNot
    have : 2 ^ doublings ≤ 2 ^ 29 := Nat.pow_le_pow_right (by decide) (by omega)
    omega
  have : 2 ^ 30 ≤ 2 ^ doublings := Nat.pow_le_pow_right (by decide) hLow
  omega

variable {number : Nat} {payload : Payload K S}

/-- At most one payload has a key. -/
theorem Represents.first (h : Represents type ht groups) {key : K} (hPayload : groups[number]? = some payload)
    (hKey : type.eq payload.key key = true) :
    ∀ earlier < number, ∀ other, groups[earlier]? = some other → type.eq other.key key = false := by
  intro earlier hEarlier other hOther
  by_contra hBoth
  obtain ⟨hLeft, rfl⟩ := List.getElem?_eq_some_iff.mp hOther
  obtain ⟨hRight, rfl⟩ := List.getElem?_eq_some_iff.mp hPayload
  have hDistinct := pairwise_iff_getElem.mp h.distinct earlier number hLeft hRight hEarlier
  have hEq := type.eq_trans _ _ _ (eq_true_of_ne_false hBoth) (type.eq_symm _ _ hKey)
  rw [hDistinct] at hEq
  exact Bool.false_ne_true hEq

theorem hashAt_eq (h : groups[number]? = some payload) : hashAt groups number = payload.hash := by
  rw [hashAt, getElem?_map, h]
  rfl

theorem Represents.getPayload (h : Represents type ht groups) (hNumber : number < groups.length) :
    ht.blocks.getPayload (ht.blocks.computeBlockIdx number) (ht.blocks.computeBlockOffset number) =
      groups[number]? :=
  h.stores.payload number hNumber

theorem represents_init (type : KeyType K) {payloadSize : Nat} (hPos : 0 < payloadSize) (hLe : payloadSize ≤ blockSize) :
    Represents type (HashDirectory.init payloadSize hPos hLe : HashDirectory K S) [] where
  stores := AggregateHashTable.stores_init hPos hLe
  size := rfl
  length := length_replicate
  power := ⟨10, by decide, by decide, rfl⟩
  mask := rfl
  load := Nat.zero_le _
  directory := ⟨_, directory_empty _ _ 1024⟩
  hashes _ h := absurd h not_mem_nil
  distinct := List.Pairwise.nil

variable {α : Type} {list : List α} {idx : Nat} {slot : Nat → Option Nat}

theorem mapM_range_eq {read : Nat → Option α} (h : ∀ number < list.length, read number = list[number]?) :
    (List.range list.length).mapM read = some list := by
  induction list generalizing read with
  | nil => rfl
  | cons head tail ih =>
    rw [length_cons, range_succ_eq_map, mapM_cons, h 0 (Nat.succ_pos _), mapM_map,
      ih fun number hNumber => ?_]
    · rfl
    · exact (h (number + 1) (Nat.succ_lt_succ hNumber)).trans getElem?_cons_succ

section

variable (h : Represents type ht groups)
include h

theorem Represents.payloads : ht.payloads = some groups := by
  rw [HashDirectory.payloads, AggregateHashTable.places_eq h.stores, mapM_map]
  exact mapM_range_eq fun number hNumber => h.getPayload hNumber

/-! ## Building the directory anew -/

theorem reinsert_all {capacity doublings : Nat} (hPower : capacity = 2 ^ doublings) (hRoom : groups.length ≤ capacity)
    {count : Nat} (hCount : count ≤ groups.length) :
    ∃ entries slot, ((List.range count).map ht.blocks.placeOf).foldlM (ht.reinsert (capacity - 1))
        (List.replicate capacity 0) = some entries ∧
      entries.length = capacity ∧ Directory ht.blocks (hashAt groups) count entries slot := by
  induction count with
  | zero => exact ⟨_, _, rfl, length_replicate, directory_empty _ _ capacity⟩
  | succ count ih =>
    obtain ⟨entries, slot, hFold, hLength, hDirectory⟩ := ih (by omega)
    have hNumbers : count ≤ 2 ^ 31 := by
      have := h.bounds
      omega
    obtain ⟨payload, hPayload⟩ : ∃ payload, groups[count]? = some payload :=
      ⟨_, getElem?_eq_getElem (by omega)⟩
    obtain ⟨idx, hIdx, slot', hInserted⟩ :=
      hDirectory.emptySlot hNumbers (hLength.trans hPower) (congrArg (· - 1) hLength.symm) (by omega)
    refine ⟨_, slot', ?_, (length_set).trans hLength, hInserted⟩
    rw [range_succ, map_append, foldlM_append, hFold]
    rw [hashAt_eq hPayload] at hIdx
    simp only [map_cons, map_nil, foldlM_cons, foldlM_nil, bind_pure, Option.bind_eq_bind,
      Option.bind_some, HashDirectory.reinsert, AggregateHashTable.placeOf, h.getPayload (by omega : count < _),
      hPayload, hIdx, Option.map_some, entryOf, hashAt_eq hPayload]

theorem Represents.resize (hSmall : ht.capacity ≤ 2 ^ 30) :
    ∃ next, ht.resize = some next ∧ next.capacity = 2 * ht.capacity ∧ Represents type next groups := by
  obtain ⟨doublings, hLow, hHigh, hCapacity⟩ := h.power
  have hBounds := h.bounds
  have hDoubled : ht.capacity * 2 % 2 ^ 32 = 2 * ht.capacity := by
    rw [Nat.mul_comm]
    exact Nat.mod_eq_of_lt (by omega)
  have hMask : (2 * ht.capacity + 2 ^ 32 - 1) % 2 ^ 32 = 2 * ht.capacity - 1 := by omega
  have hPower : 2 * ht.capacity = 2 ^ (doublings + 1) := by rw [hCapacity, Nat.pow_succ, Nat.mul_comm]
  have hLess : doublings + 1 ≤ 31 := by
    by_contra hNot
    obtain rfl : doublings = 31 := by omega
    omega
  obtain ⟨entries, slot, hFold, hLength, hDirectory⟩ :=
    reinsert_all h hPower (by omega) (Nat.le_refl groups.length)
  refine ⟨{ ht with capacity := 2 * ht.capacity, mask := 2 * ht.capacity - 1, entries := entries }, ?_, rfl, ?_⟩
  · simp only [HashDirectory.resize, hDoubled, hMask]
    rw [AggregateHashTable.places_eq h.stores, hFold, Option.map_some]
  · have hLoad : 3 * groups.length ≤ 2 * (2 * ht.capacity) + 3 := by omega
    exact ⟨h.stores, h.size, hLength, ⟨doublings + 1, by omega, hLess, hPower⟩, rfl, hLoad, ⟨slot, hDirectory⟩,
      h.hashes, h.distinct⟩

/-- The capacity 2^32 is written as 0, and the first payload has no entry to go to. -/
theorem Represents.resize_eq_none (hLarge : ht.capacity = 2 ^ 31) (hSome : groups ≠ []) : ht.resize = none := by
  obtain ⟨payload, rest, rfl⟩ := exists_cons_of_ne_nil hSome
  have hPayload := h.getPayload (Nat.succ_pos _ : 0 < _)
  have hPlaces : ht.blocks.places = ht.blocks.placeOf 0 :: (List.range' 1 rest.length).map ht.blocks.placeOf := by
    rw [AggregateHashTable.places_eq h.stores, length_cons, range_eq_range', List.range'_succ, map_cons]
  simp only [HashDirectory.resize, hLarge, hPlaces, foldlM_cons, HashDirectory.reinsert]
  rw [AggregateHashTable.placeOf, hPayload]
  rfl

/-! ## Making room -/

theorem Represents.ensureEmptySlot (hSmall : ht.capacity ≤ 2 ^ 30) :
    ∃ next, ht.ensureEmptySlot = some next ∧ Represents type next groups ∧ 3 * groups.length ≤ 2 * next.capacity ∧
      next.capacity = if 2 * ht.capacity < 3 * groups.length then 2 * ht.capacity else ht.capacity := by
  have hBounds := h.bounds
  have hLoad := h.load
  have hSize : int32 ht.size = groups.length := by
    rw [h.size, int32_eq] <;> omega
  have hCapacity : int32 ht.capacity = ht.capacity := int32_eq (by omega) (by omega)
  rw [HashDirectory.ensureEmptySlot, hSize, hCapacity, if_neg (by omega)]
  by_cases hFull : 2 * ht.capacity < 3 * groups.length
  · obtain ⟨next, hNext, hNextCapacity, hRepresents⟩ := h.resize hSmall
    rw [if_pos (by omega), if_pos hFull]
    exact ⟨next, hNext, hRepresents, by omega, hNextCapacity⟩
  · rw [if_neg (by omega), if_neg hFull]
    exact ⟨ht, rfl, h, by omega, rfl⟩

/-- A capacity of 2^31 is read as a negative number, which every size exceeds. -/
theorem Represents.ensureEmptySlot_eq_none (hLarge : ht.capacity = 2 ^ 31) (hSome : groups ≠ []) :
    ht.ensureEmptySlot = none := by
  have hBounds := h.bounds
  have hLoad := h.load
  have hSize : int32 ht.size = groups.length := by
    rw [h.size, int32_eq] <;> omega
  have hCapacity : int32 ht.capacity = -(2 ^ 31) := by
    rw [hLarge]
    decide
  rw [HashDirectory.ensureEmptySlot, hSize, hCapacity, if_neg (by omega), if_pos (by omega),
    h.resize_eq_none hLarge hSome]

end

/-! ## Looking for a key -/

/-- The entry of a number, read by the generated code. -/
def foundAt (ht : HashDirectory K S) (slot : Nat → Option Nat) (idx : Nat) : Found :=
  match slot idx with
  | none => .empty idx
  | some number => .payload (ht.blocks.computeBlockIdx number) (ht.blocks.computeBlockOffset number)

theorem getEntry_eq (h : Represents type ht groups) (hIdx : idx < ht.entries.length) :
    ht.getEntry idx = ht.entries[idx]? := by
  have hBounds := h.bounds
  rw [h.length] at hIdx
  have hInt : int32 idx = idx := int32_eq (by omega) (by omega)
  rw [HashDirectory.getEntry, hInt]
  simp

theorem find_eq (h : Represents type ht groups)
    (hDirectory : Directory ht.blocks (hashAt groups) groups.length ht.entries slot) (salt : BitVec 16)
    (checkEq : K → Bool) (fuel : Nat) (hIdx : idx < ht.entries.length) :
    ht.find salt checkEq fuel idx =
      (search ht.entries.length (fun idx => (slot idx).all fun number =>
        saltOf (hashAt groups number) = salt && (groups[number]?).any fun payload => checkEq payload.key) fuel idx).map
      (foundAt ht slot) := by
  obtain ⟨doublings, _, _, hCapacity⟩ := h.power
  have hBounds := h.bounds
  induction fuel generalizing idx with
  | zero => rfl
  | succ fuel ih =>
    have hNext := ih (Nat.mod_lt (idx + 1) (by omega : 0 < ht.entries.length))
    rw [HashDirectory.find, search, getEntry_eq h hIdx, hDirectory.entry idx hIdx, Option.bind_some,
      and_mask (h.length.trans hCapacity) (h.mask.trans (congrArg (· - 1) h.length.symm)), hNext]
    cases hSlot : slot idx with
    | none =>
      simp only [Option.elim_none, getParts_zero, Option.all_none, if_true, Option.map_some, foundAt, hSlot]
    | some number =>
      have hNumber := hDirectory.slot_lt hIdx hSlot
      obtain ⟨payload, hPayload⟩ : ∃ payload, groups[number]? = some payload := ⟨_, getElem?_eq_getElem hNumber⟩
      have hRead := h.getPayload hNumber
      rw [hPayload] at hRead
      simp only [Option.elim_some, getParts_entryOf, blockIdx_ne_zero ht.blocks (by omega : number < 2 ^ 31), if_false,
        toNat_ofNat_lt (computeBlockIdx_lt ht.blocks (by omega : number < 2 ^ 31)),
        toNat_ofNat_lt (computeBlockOffset_lt ht.blocks number), hRead, Option.bind_some, Option.all_some, hPayload,
        Option.any_some]
      by_cases hSalt : saltOf (hashAt groups number) = salt
      · by_cases hKey : checkEq payload.key = true
        · simp [hSalt, hKey, foundAt, hSlot]
        · simp [hSalt, hKey]
      · simp [hSalt]

theorem hashAt_append (groups : List (Payload K S)) (payload : Payload K S) :
    (∀ number < groups.length, hashAt groups number = hashAt (groups ++ [payload]) number) ∧
      hashAt (groups ++ [payload]) groups.length = payload.hash := by
  constructor
  · intro number hNumber
    rw [hashAt, hashAt, map_append, getElem?_append_left (by rwa [length_map])]
  · exact hashAt_eq (by simp)

/-- A new payload is found by the entry at which the search for its key ended. -/
theorem Represents.insert (h : Represents type ht groups) (payload : Payload K S)
    (hHash : payload.hash = type.hash payload.key) (hNew : ∀ other ∈ groups, type.eq other.key payload.key = false)
    (hRoom : 3 * groups.length ≤ 2 * ht.capacity)
    (hDirectory : Directory ht.blocks (hashAt groups) groups.length ht.entries slot) {distance : Nat}
    (hFree : slot (place ht.entries.length (payload.hash.toNat % ht.entries.length) distance) = none)
    (hBefore : ∀ earlier < distance,
      slot (place ht.entries.length (payload.hash.toNat % ht.entries.length) earlier) ≠ none) :
    Represents type (ht.insert (place ht.entries.length (payload.hash.toNat % ht.entries.length) distance) payload)
      (groups ++ [payload]) := by
  have hBounds := h.bounds
  have hLength : (groups ++ [payload]).length = groups.length + 1 := by
    rw [length_append, length_singleton]
  obtain ⟨hSame, hLast⟩ := hashAt_append groups payload
  have hSize := AggregateHashTable.payloadSize_insert ht.blocks payload
  have hCongr := hDirectory.congr hSize hSame
  rw [← hLast] at hFree hBefore
  have hInserted := hCongr.insert (by rw [h.length]; omega) hFree hBefore
  have hEntry : constructEntry (saltOf payload.hash) (BitVec.ofNat 16 ht.blocks.nextPlace.2)
      (BitVec.ofNat 32 ht.blocks.nextPlace.1) = entryOf (ht.blocks.insert payload) (hashAt (groups ++ [payload]))
        groups.length := by
    rw [← entryOf_congr hSize rfl, entryOf, hLast, AggregateHashTable.nextPlace_eq h.stores]
    rfl
  rw [hLast, ← hEntry] at hInserted
  refine ⟨h.stores.insert payload, ?_, length_set.trans h.length, h.power, h.mask, ?_, ?_, ?_, ?_⟩
  · rw [hLength, HashDirectory.insert, h.size]
    exact Nat.mod_eq_of_lt (by omega)
  · rw [hLength]
    change 3 * (groups.length + 1) ≤ 2 * ht.capacity + 3
    omega
  · rw [hLength]
    exact ⟨_, hInserted⟩
  · intro other hOther
    rcases mem_append.mp hOther with hOld | hLast
    · exact h.hashes other hOld
    · rw [mem_singleton.mp hLast, hHash]
  · rw [pairwise_append]
    refine ⟨h.distinct, pairwise_singleton _ _, fun other hOther last hLast => ?_⟩
    rw [mem_singleton.mp hLast]
    exact hNew other hOther

/-- The search for a key ends at its payload, or at an entry for a new one. -/
theorem Represents.lookup (h : Represents type ht groups) (key : K) :
    (∃ idx, ht.lookup type key = some (.empty idx) ∧ (∀ other ∈ groups, type.eq other.key key = false) ∧
      ∀ state, 3 * groups.length ≤ 2 * ht.capacity →
        Represents type (ht.insert idx ⟨type.hash key, key, state⟩) (groups ++ [⟨type.hash key, key, state⟩])) ∨
    ∃ number payload, groups[number]? = some payload ∧ type.eq payload.key key = true ∧
      ht.lookup type key =
        some (.payload (ht.blocks.computeBlockIdx number) (ht.blocks.computeBlockOffset number)) := by
  obtain ⟨doublings, _, _, hCapacity⟩ := h.power
  have hBounds := h.bounds
  obtain ⟨slot, hDirectory⟩ := h.directory
  let wanted : Nat → Bool := fun number => saltOf (hashAt groups number) = saltOf (type.hash key) &&
    (groups[number]?).any fun payload => type.eq payload.key key
  have hWanted : ∀ number payload, groups[number]? = some payload →
      (wanted number = true ↔ type.eq payload.key key = true) := by
    intro number payload hPayload
    simp only [wanted, hPayload, Option.any_some, Bool.and_eq_true, decide_eq_true_eq, and_iff_right_iff_imp]
    intro hEq
    rw [hashAt_eq hPayload, h.hashes payload (mem_of_getElem? hPayload), type.hash_eq _ _ hEq]
  have hFirst : (type.hash key).toNat % ht.entries.length < ht.entries.length := Nat.mod_lt _ (by rw [h.length]; omega)
  have hSame : ∀ number < groups.length, wanted number = true →
      (hashAt groups number).toNat % ht.entries.length = (type.hash key).toNat % ht.entries.length := by
    intro number hNumber hHit
    have hPayload := getElem?_eq_getElem hNumber
    rw [hashAt_eq hPayload, h.hashes _ (getElem_mem hNumber), type.hash_eq _ _ ((hWanted _ _ hPayload).mp hHit)]
  have hStop : ∀ idx < ht.entries.length, (slot idx).all wanted = true ↔
      slot idx = none ∨ ∃ number, slot idx = some number ∧ wanted number = true := by
    intro idx _
    cases slot idx <;> simp
  obtain ⟨distance, hSearch, hBefore, hEnd⟩ :=
    hDirectory.indexes.search (by rw [h.length]; omega) hFirst hSame hStop
  have hLookup : ht.lookup type key = some (foundAt ht slot (place ht.entries.length
      ((type.hash key).toNat % ht.entries.length) distance)) := by
    rw [HashDirectory.lookup, and_mask (h.length.trans hCapacity) (h.mask.trans (congrArg (· - 1) h.length.symm)),
      find_eq h hDirectory _ _ _ hFirst]
    exact congrArg (Option.map (foundAt ht slot)) hSearch
  rw [hLookup, foundAt]
  rcases hEnd with ⟨hFree, hNone⟩ | ⟨number, hNumber, hSlot, hHit⟩
  · rw [hFree]
    have hNew : ∀ other ∈ groups, type.eq other.key key = false := by
      intro other hOther
      obtain ⟨number, hNumber, rfl⟩ := getElem_of_mem hOther
      have hMiss := hNone number hNumber
      rw [← Bool.not_eq_true, hWanted number _ (getElem?_eq_getElem hNumber)] at hMiss
      exact eq_false_of_ne_true hMiss
    exact Or.inl ⟨_, rfl, hNew, fun state hRoom =>
      h.insert ⟨type.hash key, key, state⟩ rfl hNew hRoom hDirectory hFree hBefore⟩
  · rw [hSlot]
    have hPayload := getElem?_eq_getElem hNumber
    exact Or.inr ⟨number, groups[number], hPayload, (hWanted number _ hPayload).mp hHit, rfl⟩

/-! ## Changing the state of a payload -/

theorem map_set_eq {β : Type} (f : α → β) {old : α} (hOld : list[number]? = some old) (new : α) (hSame : f new = f old) :
    (list.set number new).map f = list.map f := by
  have hNumber : number < list.length := (List.getElem?_eq_some_iff.mp hOld).1
  refine ext_getElem? fun other => ?_
  rw [getElem?_map, getElem?_map, getElem?_set]
  by_cases hEq : number = other
  · rw [if_pos hEq, if_pos (hEq ▸ hNumber), ← hEq, hOld, Option.map_some, Option.map_some, hSame]
  · rw [if_neg hEq]

theorem Represents.setState (h : Represents type ht groups) (hPayload : groups[number]? = some payload) (state : S) :
    Represents type (ht.setPayload (ht.blocks.computeBlockIdx number) (ht.blocks.computeBlockOffset number)
      { payload with state := state }) (groups.set number { payload with state := state }) := by
  have hNumber : number < groups.length := (List.getElem?_eq_some_iff.mp hPayload).1
  have hHashes : hashAt (groups.set number { payload with state := state }) = hashAt groups := by
    funext other
    rw [hashAt, hashAt, map_set_eq Payload.hash hPayload { payload with state := state } rfl]
  have hKeys : (groups.set number { payload with state := state }).map Payload.key = groups.map Payload.key :=
    map_set_eq Payload.key hPayload { payload with state := state } rfl
  have hMem : ∀ other ∈ groups.set number { payload with state := state }, ∃ old ∈ groups,
      other.hash = old.hash ∧ other.key = old.key := by
    intro other hOther
    rcases mem_or_eq_of_mem_set hOther with hOld | rfl
    · exact ⟨other, hOld, rfl, rfl⟩
    · exact ⟨payload, mem_of_getElem? hPayload, rfl, rfl⟩
  obtain ⟨slot, hDirectory⟩ := h.directory
  refine ⟨⟨fun other hOther => ?_, ?_⟩, ?_, h.length, h.power, h.mask, ?_, ⟨slot, ?_⟩, ?_, ?_⟩
  · rw [length_set] at hOther
    refine (AggregateHashTable.payloadAt_setPayload ht.blocks other number _).trans ?_
    rw [getElem?_set]
    split
    · rename_i hEq
      rw [if_pos hEq.symm]
    · rename_i hNe
      rw [if_neg (Ne.symm hNe), h.stores.payload other hOther]
  · rw [length_set]
    exact h.stores.blocks
  · rw [length_set]
    exact h.size
  · rw [length_set]
    exact h.load
  · rw [length_set, hHashes]
    exact hDirectory.congr rfl fun _ _ => rfl
  · intro other hOther
    obtain ⟨old, hOld, hHash, hKey⟩ := hMem other hOther
    rw [hHash, hKey]
    exact h.hashes old hOld
  · have hDistinct := h.distinct
    rw [← pairwise_map (R := fun left right => type.eq left right = false)] at hDistinct ⊢
    rwa [hKeys]

end

end KushDB.GroupBy
