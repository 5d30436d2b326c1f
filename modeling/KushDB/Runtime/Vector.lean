import KushDB.Execution.SplitPipeline

/-! # Growing vectors

Size and capacity are 32 bit integers. A full vector doubles its capacity, which wraps around to a negative number at
2^30. The memory that is then asked for cannot be had, unless the elements take no space.
-/

namespace KushDB.Runtime

open KushDB.Execution List

structure Vector (E : Type) where
  elementSize : Nat
  size : Int
  capacity : Int
  data : List E
deriving Repr

namespace Vector

variable {E : Type}

def create (elementSize : Nat) (initialCapacity : Int) : Vector E := ⟨elementSize, 0, initialCapacity, []⟩

/-- Fails when a negative number of bytes is asked for. -/
def grow (vec : Vector E) (newCapacity : Int) : Option (Vector E) :=
  if newCapacity * vec.elementSize < 0 then none else some { vec with capacity := newCapacity }

def pushBack (vec : Vector E) (element : E) : Option (Vector E) :=
  (if vec.size = vec.capacity then vec.grow (int32 (2 * vec.capacity)) else some vec).map fun vec =>
    { vec with size := int32 (vec.size + 1), data := vec.data ++ [element] }

/-- What a loop over the indices below the size reads. -/
def elements (vec : Vector E) : List E := vec.data.take vec.size.toNat

def pushAll (vec : Vector E) (added : List E) : Option (Vector E) := added.foldlM pushBack vec

/-! ## Elements that take space -/

/-- The vector holds these elements in memory it owns. -/
structure Holds (vec : Vector E) (stored : List E) : Prop where
  data : vec.data = stored
  size : vec.size = stored.length
  capacity : ∃ doublings ≤ 30, vec.capacity = 2 ^ doublings ∧ stored.length ≤ 2 ^ doublings

variable {stored : List E} {vec : Vector E}

theorem Holds.elements (h : Holds vec stored) : vec.elements = stored := by
  rw [Vector.elements, h.data, h.size, Int.toNat_natCast, take_length]

theorem holds_create (elementSize : Nat) {initialCapacity : Int}
    (h : ∃ doublings ≤ 30, initialCapacity = 2 ^ doublings) : Holds (create elementSize initialCapacity : Vector E) [] := by
  obtain ⟨doublings, hDoublings, hCapacity⟩ := h
  exact ⟨rfl, rfl, doublings, hDoublings, hCapacity, Nat.zero_le _⟩

theorem int32_double {doublings : Nat} (h : doublings < 30) : int32 (2 * 2 ^ doublings) = 2 ^ (doublings + 1) := by
  have hPow : (2 : Int) ^ (doublings + 1) ≤ 2 ^ 30 := pow_le_pow_right₀ (by decide) h
  have hPos : (0 : Int) < 2 ^ (doublings + 1) := pow_pos (by decide) _
  rw [mul_comm, ← pow_succ, int32_eq] <;> omega

theorem Holds.pushBack (h : Holds vec stored) (hRoom : stored.length < 2 ^ 30) (element : E) :
    ∃ next, vec.pushBack element = some next ∧ Holds next (stored ++ [element]) := by
  obtain ⟨doublings, hDoublings, hCapacity, hLength⟩ := h.capacity
  have hSize : int32 (vec.size + 1) = (stored ++ [element]).length := by
    rw [h.size, int32_eq, length_append, length_singleton] <;> omega
  by_cases hFull : vec.size = vec.capacity
  · have hEq : (stored.length : Int) = 2 ^ doublings := by rw [← h.size, hFull, hCapacity]
    have hLess : doublings < 30 := by
      by_contra hNot
      obtain rfl : doublings = 30 := by omega
      omega
    refine ⟨⟨vec.elementSize, int32 (vec.size + 1), 2 ^ (doublings + 1), vec.data ++ [element]⟩, ?_, ?_⟩
    · have hBytes : ¬(2 : Int) ^ (doublings + 1) * vec.elementSize < 0 := by
        rw [not_lt]
        positivity
      rw [Vector.pushBack, if_pos hFull, grow, hCapacity, int32_double hLess, if_neg hBytes]
      rfl
    · refine ⟨by rw [h.data], hSize, doublings + 1, hLess, rfl, ?_⟩
      rw [length_append, length_singleton, pow_succ]
      have : stored.length = 2 ^ doublings := by exact_mod_cast hEq
      have := Nat.one_le_two_pow (n := doublings)
      omega
  · refine ⟨⟨vec.elementSize, int32 (vec.size + 1), vec.capacity, vec.data ++ [element]⟩,
      by rw [Vector.pushBack, if_neg hFull, Option.map_some], by rw [h.data], hSize, doublings, hDoublings, hCapacity, ?_⟩
    have hNe : stored.length ≠ 2 ^ doublings := fun hEq => hFull (by rw [h.size, hCapacity, hEq]; norm_cast)
    rw [length_append, length_singleton]
    omega

theorem Holds.pushBack_full (h : Holds vec stored) (hFull : stored.length = 2 ^ 30) (hSpace : 0 < vec.elementSize)
    (element : E) : vec.pushBack element = none := by
  obtain ⟨doublings, hDoublings, hCapacity, hLength⟩ := h.capacity
  obtain rfl : doublings = 30 := by
    refine le_antisymm hDoublings (Nat.pow_le_pow_iff_right (a := 2) (by decide) |>.mp ?_)
    omega
  have hBytes : int32 (2 * 2 ^ 30) * vec.elementSize < 0 := by
    have : int32 (2 * 2 ^ 30) = -(2 ^ 31) := by decide
    rw [this]
    omega
  rw [Vector.pushBack, if_pos (by rw [h.size, hCapacity, hFull]; norm_cast), grow, hCapacity, if_pos hBytes]
  rfl

variable {next : Vector E}

theorem pushBack_elementSize {element : E} (h : vec.pushBack element = some next) :
    next.elementSize = vec.elementSize := by
  rw [pushBack, Option.map_eq_some_iff] at h
  obtain ⟨grown, hGrown, rfl⟩ := h
  split at hGrown
  · rw [grow] at hGrown
    split at hGrown <;> cases hGrown
    rfl
  · cases hGrown
    rfl

theorem pushAll_cons (vec : Vector E) (element : E) (added : List E) :
    vec.pushAll (element :: added) = (vec.pushBack element).bind fun next => next.pushAll added := rfl

theorem pushAll_append (vec : Vector E) (added : List E) (element : E) :
    vec.pushAll (added ++ [element]) = (vec.pushAll added).bind fun next => next.pushBack element := by
  rw [pushAll, foldlM_append]
  simp only [foldlM_cons, foldlM_nil, bind_pure]
  rfl

theorem pushAll_elementSize {added : List E} (h : vec.pushAll added = some next) :
    next.elementSize = vec.elementSize := by
  induction added generalizing vec with
  | nil =>
    cases h
    rfl
  | cons element added ih =>
    rw [pushAll_cons, Option.bind_eq_some_iff] at h
    obtain ⟨middle, hMiddle, hRest⟩ := h
    rw [ih hRest, pushBack_elementSize hMiddle]

theorem Holds.pushAll (h : Holds vec stored) (added : List E) (hRoom : (stored ++ added).length ≤ 2 ^ 30) :
    ∃ next, vec.pushAll added = some next ∧ Holds next (stored ++ added) := by
  induction added generalizing vec stored with
  | nil => exact ⟨vec, rfl, by rwa [append_nil]⟩
  | cons element added ih =>
    rw [length_append, length_cons] at hRoom
    obtain ⟨next, hNext, hHolds⟩ := h.pushBack (by omega) element
    rw [pushAll_cons, hNext, append_cons]
    exact ih hHolds (by rw [← append_cons, length_append, length_cons]; exact hRoom)

theorem Holds.pushAll_full (h : Holds vec stored) (added : List E) (hSpace : 0 < vec.elementSize)
    (hStored : stored.length ≤ 2 ^ 30) (hFull : 2 ^ 30 < (stored ++ added).length) : vec.pushAll added = none := by
  induction added generalizing vec stored with
  | nil =>
    rw [append_nil] at hFull
    omega
  | cons element added ih =>
    rw [pushAll_cons]
    by_cases hRoom : stored.length < 2 ^ 30
    · obtain ⟨next, hNext, hHolds⟩ := h.pushBack hRoom element
      rw [hNext]
      refine ih hHolds (pushBack_elementSize hNext ▸ hSpace) ?_ (by rwa [← append_cons])
      rw [length_append, length_singleton]
      omega
    · rw [h.pushBack_full (by omega) hSpace]
      rfl

/-! ## Elements that take no space -/

theorem pushBack_empty (hSpace : vec.elementSize = 0) (element : E) :
    ∃ capacity, vec.pushBack element =
      some ⟨vec.elementSize, int32 (vec.size + 1), capacity, vec.data ++ [element]⟩ := by
  have hGrow (capacity : Int) : vec.grow capacity = some { vec with capacity := capacity } := by
    rw [grow, hSpace, if_neg (by simp)]
  rw [pushBack]
  split
  · exact ⟨_, by rw [hGrow, Option.map_some]⟩
  · exact ⟨_, by rw [Option.map_some]⟩

/-- Nothing fails, but the size wraps around. -/
theorem pushAll_empty {vec : Vector E} (hSpace : vec.elementSize = 0) (hSize : int32 vec.size = vec.size)
    (added : List E) :
    ∃ next, vec.pushAll added = some next ∧ next.data = vec.data ++ added ∧
      next.size = int32 (vec.size + added.length) := by
  induction added generalizing vec with
  | nil => exact ⟨vec, rfl, by rw [append_nil], by simpa using hSize.symm⟩
  | cons element added ih =>
    obtain ⟨capacity, hNext⟩ := pushBack_empty hSpace element
    obtain ⟨last, hLast, hData, hLastSize⟩ :=
      @ih ⟨vec.elementSize, int32 (vec.size + 1), capacity, vec.data ++ [element]⟩ hSpace Int.bmod_bmod
    refine ⟨last, by rw [pushAll_cons, hNext, Option.bind_some, hLast], by simp [hData], ?_⟩
    rw [hLastSize, length_cons]
    unfold int32
    rw [Int.bmod_add_bmod]
    congr 1
    push_cast
    omega

end Vector

end KushDB.Runtime
