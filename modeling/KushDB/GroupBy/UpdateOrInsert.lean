import KushDB.GroupBy.DirectoryInvariant
import KushDB.Library.Grouping

/-! # Groups and their states

A row updates the payload of its keys, or a new payload is initialized with it. The table first makes sure that there
is an empty entry. Its payloads are then the groups of the rows, as long as the capacity can be doubled.
-/

namespace KushDB.GroupBy

open KushDB.Execution Compile Grouping List

/-- A grouping: the keys of a row, and what the aggregators keep in a payload. -/
structure Aggregation (Row V S : Type) where
  keys : Row → List (Option V)
  initial : Row → S
  update : S → Row → S
  payloadSize : Nat
  payloadSize_pos : 0 < payloadSize
  payloadSize_le : payloadSize ≤ blockSize

namespace Aggregation

variable {Row V S : Type} (type : KeyType V) (agg : Aggregation Row V S)

def newPayload (row : Row) : Payload (List (Option V)) S :=
  ⟨type.keys.hash (agg.keys row), agg.keys row, agg.initial row⟩

def updatePayload (payload : Payload (List (Option V)) S) (row : Row) : Payload (List (Option V)) S :=
  { payload with state := agg.update payload.state row }

def updateOrInsert (ht : HashDirectory (List (Option V)) S) (row : Row) :
    Option (HashDirectory (List (Option V)) S) :=
  ht.ensureEmptySlot.bind fun ht =>
    (ht.lookup type.keys (agg.keys row)).bind fun found =>
      match found with
      | .empty idx => some (ht.insert idx (agg.newPayload type row))
      | .payload blockIdx blockOffset =>
        (ht.blocks.getPayload blockIdx blockOffset).map fun payload =>
          ht.setPayload blockIdx blockOffset (agg.updatePayload payload row)

def updateOrInsertAll (rows : List Row) : Option (HashDirectory (List (Option V)) S) :=
  rows.foldlM (agg.updateOrInsert type) (HashDirectory.init agg.payloadSize agg.payloadSize_pos agg.payloadSize_le)

/-! ## The groups of the rows -/

def belongs (payload : Payload (List (Option V)) S) (row : Row) : Bool := type.keys.eq payload.key (agg.keys row)

/-- One payload for each key, initialized with the first row of that key and updated with the later ones in their
order. -/
def groups (rows : List Row) : List (Payload (List (Option V)) S) :=
  groupsOf (agg.belongs type) (agg.newPayload type) agg.updatePayload rows

/-- All calls return, and the table holds the groups. -/
def RefinesGroups (rows : List Row) : Prop :=
  ∃ ht, agg.updateOrInsertAll type rows = some ht ∧ ht.payloads = some (agg.groups type rows)

variable {type agg}

theorem groups_append (rows : List Row) (row : Row) :
    agg.groups type (rows ++ [row]) =
      upsert (agg.belongs type) (agg.newPayload type) agg.updatePayload row (agg.groups type rows) := by
  have hSame : ∀ (payload : Payload (List (Option V)) S) (row other : Row),
      agg.belongs type (agg.updatePayload payload row) other = agg.belongs type payload other := fun _ _ _ => rfl
  exact groupsOf_append hSame rows row

theorem length_groups_dropLast (type : KeyType V) (agg : Aggregation Row V S) (rows : List Row) :
    (agg.groups type rows.dropLast).length ≤ (agg.groups type rows).length := by
  induction rows using List.reverseRecOn with
  | nil => exact Nat.le_refl _
  | append_singleton rows row =>
    rw [dropLast_concat, groups_append]
    exact length_le_upsert row _

theorem updateOrInsertAll_append (rows : List Row) (row : Row) :
    agg.updateOrInsertAll type (rows ++ [row]) =
      (agg.updateOrInsertAll type rows).bind fun ht => agg.updateOrInsert type ht row := by
  rw [updateOrInsertAll, foldlM_append]
  simp only [foldlM_cons, foldlM_nil, bind_pure]
  rfl

variable {ht : HashDirectory (List (Option V)) S}

/-- One row, when the capacity can still be doubled. -/
theorem updateOrInsert_eq {payloads : List (Payload (List (Option V)) S)} (h : Represents type.keys ht payloads)
    (hSmall : ht.capacity ≤ 2 ^ 30) (row : Row) :
    ∃ next, agg.updateOrInsert type ht row = some next ∧
      Represents type.keys next (upsert (agg.belongs type) (agg.newPayload type) agg.updatePayload row payloads) ∧
      next.capacity = if 2 * ht.capacity < 3 * payloads.length then 2 * ht.capacity else ht.capacity := by
  obtain ⟨room, hRoom, hRepresents, hLoad, hCapacity⟩ := h.ensureEmptySlot hSmall
  rw [updateOrInsert, hRoom, Option.bind_some]
  rcases hRepresents.lookup (agg.keys row) with ⟨idx, hLookup, hNew, hInsert⟩ | ⟨number, payload, hPayload, hEq, hLookup⟩
  · have hNone : ∀ payload ∈ payloads, agg.belongs type payload row = false := hNew
    rw [hLookup, upsert_of_none hNone]
    exact ⟨_, rfl, hInsert (agg.initial row) hLoad, hCapacity⟩
  · have hNumber : number < payloads.length := (List.getElem?_eq_some_iff.mp hPayload).1
    have hFirst : ∀ earlier < number, ∀ other, payloads[earlier]? = some other → agg.belongs type other row = false :=
      h.first hPayload hEq
    rw [hLookup, upsert_of_first hPayload hEq hFirst]
    simp only [Option.bind_some, hRepresents.getPayload hNumber, hPayload, Option.map_some]
    exact ⟨_, rfl, hRepresents.setState hPayload (agg.update payload.state row), hCapacity⟩

/-! ## All rows -/

/-- The state after some rows. The capacity is 2^31 once the row before last has found more than 2^31 / 3 groups. -/
structure Holds (type : KeyType V) (agg : Aggregation Row V S) (rows : List Row)
    (ht : HashDirectory (List (Option V)) S) : Prop where
  represents : Represents type.keys ht (agg.groups type rows)
  capacity : ht.capacity = 2 ^ 31 ↔ 2 ^ 31 < 3 * (agg.groups type rows.dropLast).length

theorem Holds.step {rows : List Row} {ht : HashDirectory (List (Option V)) S} (h : Holds type agg rows ht)
    (hFew : 3 * (agg.groups type rows.dropLast).length ≤ 2 ^ 31) (row : Row) :
    ∃ next, agg.updateOrInsert type ht row = some next ∧ Holds type agg (rows ++ [row]) next := by
  have hSmall := h.represents.capacity_le fun hEq => absurd (h.capacity.mp hEq) (by omega)
  obtain ⟨next, hNext, hRepresents, hCapacity⟩ := updateOrInsert_eq h.represents hSmall row
  refine ⟨next, hNext, by rwa [groups_append], ?_⟩
  rw [dropLast_concat]
  constructor
  · intro hEq
    rw [hEq] at hCapacity
    split at hCapacity <;> omega
  · intro hMany
    have hLarge := h.represents.capacity_eq hSmall hMany
    rw [hCapacity, if_pos (by omega)]
    omega

theorem Holds.step_eq_none {rows : List Row} (h : Holds type agg rows ht)
    (hMany : 2 ^ 31 < 3 * (agg.groups type rows.dropLast).length) (row : Row) :
    agg.updateOrInsert type ht row = none := by
  have hSome : agg.groups type rows ≠ [] := by
    intro hNil
    have hLe := length_groups_dropLast type agg rows
    rw [hNil, length_nil] at hLe
    omega
  rw [updateOrInsert, h.represents.ensureEmptySlot_eq_none (h.capacity.mpr hMany) hSome, Option.bind_none]

theorem updateOrInsertAll_spec (type : KeyType V) (agg : Aggregation Row V S) (rows : List Row) :
    (3 * (agg.groups type rows.dropLast.dropLast).length ≤ 2 ^ 31 →
      ∃ ht, agg.updateOrInsertAll type rows = some ht ∧ Holds type agg rows ht) ∧
    (2 ^ 31 < 3 * (agg.groups type rows.dropLast.dropLast).length → agg.updateOrInsertAll type rows = none) := by
  induction rows using List.reverseRecOn with
  | nil =>
    have hNil : agg.groups type [] = [] := by rw [groups, groupsOf]
    refine ⟨fun _ => ⟨_, rfl, ?_, ?_⟩, fun h => ?_⟩
    · rw [hNil]
      exact represents_init type.keys agg.payloadSize_pos agg.payloadSize_le
    · rw [dropLast_nil, hNil, length_nil]
      change 1024 = 2 ^ 31 ↔ 2 ^ 31 < 3 * 0
      decide
    · rw [dropLast_nil, dropLast_nil, hNil, length_nil] at h
      exact absurd h (by decide)
  | append_singleton rows row ih =>
    rw [dropLast_concat, updateOrInsertAll_append]
    constructor
    · intro hFew
      have hLe := length_groups_dropLast type agg rows.dropLast
      obtain ⟨ht, hRun, hHolds⟩ := ih.1 (by omega)
      obtain ⟨next, hNext, hStep⟩ := hHolds.step hFew row
      exact ⟨next, by rw [hRun, Option.bind_some, hNext], hStep⟩
    · intro hMany
      by_cases hEarlier : 3 * (agg.groups type rows.dropLast.dropLast).length ≤ 2 ^ 31
      · obtain ⟨ht, hRun, hHolds⟩ := ih.1 hEarlier
        rw [hRun, Option.bind_some, hHolds.step_eq_none hMany row]
      · rw [ih.2 (by omega), Option.bind_none]

/-- The table refines the groups exactly when the rows but the last two have at most 2^31 / 3 different keys. -/
theorem refinesGroups_iff (type : KeyType V) (agg : Aggregation Row V S) (rows : List Row) :
    agg.RefinesGroups type rows ↔ 3 * (agg.groups type rows.dropLast.dropLast).length ≤ 2 ^ 31 := by
  constructor
  · rintro ⟨ht, hRun, _⟩
    by_contra hMany
    rw [(updateOrInsertAll_spec type agg rows).2 (by omega)] at hRun
    cases hRun
  · intro hFew
    obtain ⟨ht, hRun, hHolds⟩ := (updateOrInsertAll_spec type agg rows).1 hFew
    exact ⟨ht, hRun, hHolds.represents.payloads⟩

/-- How often each number occurs. -/
def countNumbers : Aggregation Nat Nat Nat where
  keys row := [some row]
  initial _ := 1
  update count _ := count + 1
  payloadSize := 24
  payloadSize_pos := by decide
  payloadSize_le := by decide

theorem groups_range (count : Nat) :
    (countNumbers.groups KeyType.number (List.range count)).length = count := by
  rw [groups, groupsOf_of_pairwise, length_map, length_range]
  refine List.Pairwise.imp_of_mem ?_ (nodup_range (n := count))
  intro left right _ _ hNe
  simpa [belongs, newPayload, countNumbers, KeyType.keys, KeyType.checkEq, KeyType.equal, KeyType.number] using hNe

theorem not_refinesGroups_of_lt {count : Nat} (hCount : 2 ^ 31 < 3 * count) :
    ¬countNumbers.RefinesGroups KeyType.number (List.range (count + 1 + 1)) := by
  rintro ⟨ht, hRun, _⟩
  have hNone := (updateOrInsertAll_spec KeyType.number countNumbers (List.range (count + 1 + 1))).2
  rw [range_succ, dropLast_concat, range_succ, dropLast_concat, groups_range] at hNone
  rw [range_succ, range_succ, hNone hCount] at hRun
  cases hRun

/-- With 715827883 groups the capacity becomes 2^31, and the second call after that does not return. -/
theorem not_refinesGroups_range : ¬countNumbers.RefinesGroups KeyType.number (List.range 715827885) :=
  @not_refinesGroups_of_lt 715827883 (by decide)

end Aggregation

end KushDB.GroupBy
