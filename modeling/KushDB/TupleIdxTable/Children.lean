import Mathlib.Data.List.OfFn
import Mathlib.Data.List.ReduceOption
import Mathlib.Data.List.Nodup
import Mathlib.Order.Fin.Basic

/-! # The four layouts of an inner node

An inner node finds its child for a key byte in one of four layouts. Nodes of 4 and of 16 children keep the bytes sorted
next to the children, nodes of 48 keep an index for every byte into an array of children, nodes of 256 keep a child for
every byte. A full layout is copied into the next larger one. A position is an offset into the sorted bytes for the two
small layouts and the byte itself for the two large ones; `none` stands for the position -1.

The children of a node are its slots in the order of the positions, which is the order of the bytes in every layout.
-/

namespace KushDB.TupleIdxTable

open List

abbrev Byte := Fin 256

def emptyMarker : Nat := 48

/-- Children are never removed, so the occupied cells of an array of children come first and the list holds these. -/
inductive Children (α : Type)
  | node4 (entries : List (Byte × α))
  | node16 (entries : List (Byte × α))
  | node48 (childIndex : Byte → Nat) (child : List α)
  | node256 (child : Byte → Option α)

namespace Children

variable {α : Type}

/-! ## Positions -/

def scan (used : Byte → Bool) : Nat → Nat → Option Nat
  | 0, _ => none
  | remaining + 1, pos => if used (Fin.ofNat 256 pos) then some pos else scan used remaining (pos + 1)

def nextUsed (used : Byte → Bool) (pos : Nat) : Option Nat :=
  scan used (256 - pos) pos

def nextEntry (count : Nat) : Option Nat → Option Nat
  | none => some 0
  | some pos => if pos + 1 < count then some (pos + 1) else none

def following : Option Nat → Nat
  | none => 0
  | some pos => pos + 1

def getChildPos (k : Byte) : Children α → Option Nat
  | node4 entries => entries.findIdx? fun entry => entry.1 = k
  | node16 entries => entries.findIdx? fun entry => entry.1 = k
  | node48 childIndex _ => if childIndex k = emptyMarker then none else some k
  | node256 child => if (child k).isSome then some k else none

def getNextPos (pos : Option Nat) : Children α → Option Nat
  | node4 entries => nextEntry entries.length pos
  | node16 entries => nextEntry entries.length pos
  | node48 childIndex _ => nextUsed (fun byte => childIndex byte ≠ emptyMarker) (following pos)
  | node256 child => nextUsed (fun byte => (child byte).isSome) (following pos)

/-- The position from which an iterator starts in the node. -/
def firstPos : Children α → Option Nat
  | node4 _ => some 0
  | node16 _ => some 0
  | node48 childIndex _ => nextUsed (fun byte => childIndex byte ≠ emptyMarker) 0
  | node256 child => nextUsed (fun byte => (child byte).isSome) 0

def getChild (pos : Nat) : Children α → Option α
  | node4 entries => entries[pos]?.map Prod.snd
  | node16 entries => entries[pos]?.map Prod.snd
  | node48 childIndex child =>
    if childIndex (Fin.ofNat 256 pos) = emptyMarker then none else child[childIndex (Fin.ofNat 256 pos)]?
  | node256 child => child (Fin.ofNat 256 pos)

/-- A write through the reference that `getChild` hands out. -/
def setChild (pos : Nat) (new : α) : Children α → Children α
  | node4 entries => node4 (entries.modify pos fun entry => (entry.1, new))
  | node16 entries => node16 (entries.modify pos fun entry => (entry.1, new))
  | node48 childIndex child => node48 childIndex (child.set (childIndex (Fin.ofNat 256 pos)) new)
  | node256 child => node256 (Function.update child (Fin.ofNat 256 pos) (some new))

/-! ## Insertion -/

def insertEntry (k : Byte) (new : α) : List (Byte × α) → List (Byte × α)
  | [] => [(k, new)]
  | entry :: entries => if entry.1 < k then entry :: insertEntry k new entries else (k, new) :: entry :: entries

def insert256 (k : Byte) (new : α) (child : Byte → Option α) : Children α :=
  node256 (Function.update child k (some new))

def insert48 (k : Byte) (new : α) (childIndex : Byte → Nat) (child : List α) : Children α :=
  if child.length < 48 then
    node48 (Function.update childIndex k child.length) (child ++ [new])
  else
    insert256 k new fun byte => if childIndex byte = emptyMarker then none else child[childIndex byte]?

/-- The indices of a node of 48 children made from the sorted entries of a smaller one. -/
def indexOf (entries : List (Byte × α)) (byte : Byte) : Nat :=
  (entries.findIdx? fun entry => entry.1 = byte).getD emptyMarker

def insert16 (k : Byte) (new : α) (entries : List (Byte × α)) : Children α :=
  if entries.length < 16 then
    node16 (insertEntry k new entries)
  else
    insert48 k new (indexOf entries) (entries.map Prod.snd)

def insert4 (k : Byte) (new : α) (entries : List (Byte × α)) : Children α :=
  if entries.length < 4 then node4 (insertEntry k new entries) else insert16 k new entries

def insertLeaf (k : Byte) (new : α) : Children α → Children α
  | node4 entries => insert4 k new entries
  | node16 entries => insert16 k new entries
  | node48 childIndex child => insert48 k new childIndex child
  | node256 child => insert256 k new child

/-! ## Slots -/

def slot48 (childIndex : Byte → Nat) (child : List α) (byte : Byte) : Option (Byte × α) :=
  if childIndex byte = emptyMarker then none else child[childIndex byte]?.map fun value => (byte, value)

def slot256 (child : Byte → Option α) (byte : Byte) : Option (Byte × α) :=
  (child byte).map fun value => (byte, value)

def slots : Children α → List (Option (Byte × α))
  | node4 entries => entries.map some
  | node16 entries => entries.map some
  | node48 childIndex child => List.ofFn (slot48 childIndex child)
  | node256 child => List.ofFn (slot256 child)

def toList (children : Children α) : List (Byte × α) :=
  children.slots.reduceOption

def Sorted (entries : List (Byte × α)) : Prop :=
  entries.Pairwise fun one other => one.1 < other.1

def WellFormed : Children α → Prop
  | node4 entries => entries.length ≤ 4 ∧ Sorted entries
  | node16 entries => entries.length ≤ 16 ∧ Sorted entries
  | node48 childIndex child => child.length ≤ 48 ∧
    (∀ byte, childIndex byte ≠ emptyMarker → childIndex byte < child.length) ∧
    ∀ one other, childIndex one ≠ emptyMarker → childIndex one = childIndex other → one = other
  | node256 _ => True

variable {childIndex : Byte → Nat} {entry : Byte × α} {child : Byte → Option α} {children : Children α} {pos : Nat}
  {entries : List (Byte × α)} {k : Byte} {new : α}

theorem slot48_eq_some {child : List α} {byte : Byte} :
    slot48 childIndex child byte = some entry ↔
      entry.1 = byte ∧ childIndex entry.1 ≠ emptyMarker ∧ child[childIndex entry.1]? = some entry.2 := by
  rw [slot48]
  constructor
  · intro h
    split at h
    · cases h
    · obtain ⟨value, hValue, rfl⟩ := Option.map_eq_some_iff.mp h
      exact ⟨rfl, by assumption, hValue⟩
  · rintro ⟨rfl, hUsed, hChild⟩
    rw [if_neg hUsed, hChild]
    rfl

theorem slot256_eq_some {byte : Byte} :
    slot256 child byte = some entry ↔ entry.1 = byte ∧ child entry.1 = some entry.2 := by
  rw [slot256]
  constructor
  · intro h
    obtain ⟨value, hValue, rfl⟩ := Option.map_eq_some_iff.mp h
    exact ⟨rfl, hValue⟩
  · rintro ⟨rfl, hChild⟩
    rw [hChild]
    rfl

theorem mem_toList : entry ∈ children.toList ↔ some entry ∈ children.slots :=
  reduceOption_mem_iff

theorem mem_of_slots (h : children.slots[pos]? = some (some entry)) : entry ∈ children.toList :=
  mem_toList.mpr (mem_of_getElem? h)

@[simp]
theorem mem_node4 : entry ∈ (node4 entries).toList ↔ entry ∈ entries := by
  simp [mem_toList, slots]

@[simp]
theorem mem_node16 : entry ∈ (node16 entries).toList ↔ entry ∈ entries := by
  simp [mem_toList, slots]

@[simp]
theorem mem_node48 {child : List α} :
    entry ∈ (node48 childIndex child).toList ↔
      childIndex entry.1 ≠ emptyMarker ∧ child[childIndex entry.1]? = some entry.2 := by
  rw [mem_toList, slots, mem_ofFn]
  simp only [slot48_eq_some, exists_eq_left']

@[simp]
theorem mem_node256 : entry ∈ (node256 child).toList ↔ child entry.1 = some entry.2 := by
  rw [mem_toList, slots, mem_ofFn]
  simp only [slot256_eq_some, exists_eq_left']

theorem sorted_ofFn {slot : Byte → Option (Byte × α)} (h : ∀ byte entry, slot byte = some entry → entry.1 = byte) :
    Sorted (List.ofFn slot).reduceOption := by
  refine pairwise_filterMap.mpr (pairwise_ofFn.mpr ?_)
  intro i j hij one hOne other hOther
  rw [h i one hOne, h j other hOther]
  exact hij

theorem sorted_toList (h : children.WellFormed) : Sorted children.toList := by
  cases children with
  | node4 entries => simpa [toList, slots, List.reduceOption] using h.2
  | node16 entries => simpa [toList, slots, List.reduceOption] using h.2
  | node48 childIndex child => exact sorted_ofFn fun _ _ hEntry => (slot48_eq_some.mp hEntry).1
  | node256 child => exact sorted_ofFn fun _ _ hEntry => (slot256_eq_some.mp hEntry).1

theorem Sorted.nodup (h : Sorted entries) : (entries.map Prod.fst).Nodup :=
  pairwise_map.mpr (h.imp fun hLt => ne_of_lt hLt)

theorem Sorted.unique (h : Sorted entries) {one other : Byte × α} (hOne : one ∈ entries) (hOther : other ∈ entries)
    (hByte : one.1 = other.1) : one = other :=
  inj_on_of_nodup_map h.nodup hOne hOther hByte

/-! ## Lookup -/

theorem notMem_of_findIdx (h : (entries.findIdx? fun entry => entry.1 = k) = none) (value : α) :
    (k, value) ∉ entries := by
  intro hMem
  simpa using findIdx?_eq_none_iff.mp h _ hMem

theorem getElem_of_findIdx (h : (entries.findIdx? fun entry => entry.1 = k) = some pos) :
    ∃ value, entries[pos]? = some (k, value) := by
  obtain ⟨hPos, hByte, _⟩ := findIdx?_eq_some_iff_getElem.mp h
  refine ⟨entries[pos].2, ?_⟩
  rw [getElem?_eq_getElem hPos, ← of_decide_eq_true hByte]

theorem notMem_of_getChildPos (h : children.getChildPos k = none) (value : α) : (k, value) ∉ children.toList := by
  cases children with
  | node4 entries => exact fun hMem => notMem_of_findIdx h value (mem_node4.mp hMem)
  | node16 entries => exact fun hMem => notMem_of_findIdx h value (mem_node16.mp hMem)
  | node48 childIndex child =>
    intro hMem
    rw [getChildPos, if_neg (mem_node48.mp hMem).1] at h
    cases h
  | node256 child =>
    intro hMem
    rw [getChildPos, mem_node256.mp hMem] at h
    cases h

theorem slots_entries : (entries.map some)[pos]? = some (some entry) ↔ entries[pos]? = some entry := by
  simp

theorem slots_ofFn (slot : Byte → Option (Byte × α)) (k : Byte) : (List.ofFn slot)[k.val]? = some (slot k) := by
  rw [List.getElem?_ofFn, dif_pos k.isLt]

theorem slots_of_getChildPos (hWell : children.WellFormed) (h : children.getChildPos k = some pos) :
    ∃ value, children.slots[pos]? = some (some (k, value)) := by
  cases children with
  | node4 entries =>
    obtain ⟨value, hValue⟩ := getElem_of_findIdx h
    exact ⟨value, slots_entries.mpr hValue⟩
  | node16 entries =>
    obtain ⟨value, hValue⟩ := getElem_of_findIdx h
    exact ⟨value, slots_entries.mpr hValue⟩
  | node48 childIndex child =>
    rw [getChildPos] at h
    split at h
    · cases h
    · rename_i hUsed
      cases h
      have hIndex := hWell.2.1 k hUsed
      refine ⟨child[childIndex k], ?_⟩
      rw [slots, slots_ofFn]
      exact congrArg some (slot48_eq_some.mpr ⟨rfl, hUsed, getElem?_eq_getElem hIndex⟩)
  | node256 child =>
    rw [getChildPos] at h
    split at h
    · rename_i hUsed
      cases h
      obtain ⟨value, hValue⟩ := Option.isSome_iff_exists.mp hUsed
      refine ⟨value, ?_⟩
      rw [slots, slots_ofFn]
      exact congrArg some (slot256_eq_some.mpr ⟨rfl, hValue⟩)
    · cases h

/-- In the layouts with a slot for every byte the slot of a child is at its byte. -/
theorem slot_at_byte {slot : Byte → Option (Byte × α)} (hSlot : ∀ byte entry, slot byte = some entry → entry.1 = byte)
    (h : (List.ofFn slot)[pos]? = some (some entry)) : Fin.ofNat 256 pos = entry.1 ∧ slot entry.1 = some entry := by
  rw [List.getElem?_ofFn] at h
  split at h
  · rename_i hPos
    have hEntry := Option.some.inj h
    rw [hSlot _ _ hEntry]
    exact ⟨Fin.ext (Nat.mod_eq_of_lt hPos), hEntry⟩
  · cases h

theorem slot_node48 {child : List α} (h : (node48 childIndex child).slots[pos]? = some (some entry)) :
    Fin.ofNat 256 pos = entry.1 ∧ childIndex entry.1 ≠ emptyMarker ∧ child[childIndex entry.1]? = some entry.2 := by
  obtain ⟨hPos, hSlot⟩ := slot_at_byte (fun _ _ hEntry => (slot48_eq_some.mp hEntry).1) h
  exact ⟨hPos, (slot48_eq_some.mp hSlot).2⟩

theorem slot_node256 (h : (node256 child).slots[pos]? = some (some entry)) :
    Fin.ofNat 256 pos = entry.1 ∧ child entry.1 = some entry.2 := by
  obtain ⟨hPos, hSlot⟩ := slot_at_byte (fun _ _ hEntry => (slot256_eq_some.mp hEntry).1) h
  exact ⟨hPos, (slot256_eq_some.mp hSlot).2⟩

theorem getChild_of_slots (h : children.slots[pos]? = some (some entry)) : children.getChild pos = some entry.2 := by
  cases children with
  | node4 entries => rw [getChild, slots_entries.mp h, Option.map_some]
  | node16 entries => rw [getChild, slots_entries.mp h, Option.map_some]
  | node48 childIndex child =>
    obtain ⟨hPos, hUsed, hChild⟩ := slot_node48 h
    rw [getChild, hPos, if_neg hUsed, hChild]
  | node256 child =>
    obtain ⟨hPos, hChild⟩ := slot_node256 h
    rw [getChild, hPos, hChild]

/-! ## Replacing a child -/

theorem sorted_modify (h : Sorted entries) (pos : Nat) (new : α) :
    Sorted (entries.modify pos fun entry => (entry.1, new)) := by
  have hBytes : (entries.modify pos fun entry => (entry.1, new)).map Prod.fst = entries.map Prod.fst := by
    refine ext_getElem? fun i => ?_
    rw [getElem?_map, getElem?_map, getElem?_modify]
    cases entries[i]? with
    | none => rfl
    | some entry =>
      simp only [Option.map_eq_map, Option.map_some]
      split <;> rfl
  have hSorted := pairwise_map.mpr h
  rw [← hBytes] at hSorted
  exact pairwise_map.mp hSorted

theorem mem_modify (h : Sorted entries) {old : Byte × α} (hOld : entries[pos]? = some old) :
    (entry ∈ entries.modify pos fun entry => (entry.1, new)) ↔
      entry = (old.1, new) ∨ entry ∈ entries ∧ entry.1 ≠ old.1 := by
  rw [mem_iff_getElem?]
  constructor
  · rintro ⟨i, hi⟩
    rw [getElem?_modify] at hi
    obtain ⟨other, hOther, rfl⟩ := Option.map_eq_some_iff.mp hi
    split
    · rename_i hSame
      subst hSame
      rw [hOld] at hOther
      cases hOther
      exact Or.inl rfl
    · rename_i hDifferent
      refine Or.inr ⟨mem_of_getElem? hOther, fun hByte => hDifferent ?_⟩
      obtain ⟨hPos, _⟩ := List.getElem?_eq_some_iff.mp hOld
      refine (getElem?_inj (by rwa [length_map]) h.nodup).mp ?_
      rw [getElem?_map, getElem?_map, hOld, hOther, Option.map_some, Option.map_some, hByte]
  · rintro (rfl | ⟨hMem, hByte⟩)
    · exact ⟨pos, by simp [hOld]⟩
    · obtain ⟨i, hi⟩ := mem_iff_getElem?.mp hMem
      refine ⟨i, ?_⟩
      have hDifferent : pos ≠ i := by
        rintro rfl
        rw [hOld] at hi
        cases hi
        exact hByte rfl
      simp [hi, hDifferent]

theorem update_eq_some :
    Function.update child k (some new) entry.1 = some entry.2 ↔
      entry = (k, new) ∨ child entry.1 = some entry.2 ∧ entry.1 ≠ k := by
  by_cases hByte : entry.1 = k
  · subst hByte
    rw [Function.update_self, Option.some.injEq]
    constructor
    · rintro rfl
      exact Or.inl rfl
    · rintro (h | ⟨_, hNe⟩)
      · exact (congrArg Prod.snd h).symm
      · exact absurd rfl hNe
  · rw [Function.update_of_ne hByte]
    constructor
    · exact fun h => Or.inr ⟨h, hByte⟩
    · rintro (rfl | ⟨h, _⟩)
      · exact absurd rfl hByte
      · exact h

theorem wellFormed_setChild (h : children.WellFormed) (pos : Nat) (new : α) :
    (children.setChild pos new).WellFormed := by
  cases children with
  | node4 entries => exact ⟨by rw [length_modify]; exact h.1, sorted_modify h.2 pos new⟩
  | node16 entries => exact ⟨by rw [length_modify]; exact h.1, sorted_modify h.2 pos new⟩
  | node48 childIndex child =>
    obtain ⟨hLength, hIndex, hInjective⟩ := h
    exact ⟨by rwa [length_set], fun byte hUsed => by rw [length_set]; exact hIndex byte hUsed, hInjective⟩
  | node256 child => exact trivial

theorem mem_setChild (h : children.WellFormed) {old : Byte × α} (hOld : children.slots[pos]? = some (some old)) :
    entry ∈ (children.setChild pos new).toList ↔
      entry = (old.1, new) ∨ entry ∈ children.toList ∧ entry.1 ≠ old.1 := by
  cases children with
  | node4 entries =>
    rw [setChild, mem_node4, mem_node4]
    exact mem_modify h.2 (slots_entries.mp hOld)
  | node16 entries =>
    rw [setChild, mem_node16, mem_node16]
    exact mem_modify h.2 (slots_entries.mp hOld)
  | node48 childIndex child =>
    obtain ⟨hPos, hUsed, hChild⟩ := slot_node48 hOld
    obtain ⟨_, hIndex, hInjective⟩ := h
    rw [setChild, mem_node48, mem_node48, hPos]
    by_cases hByte : entry.1 = old.1
    · have hBound := hIndex _ hUsed
      rw [hByte, getElem?_set_self hBound, Option.some.injEq]
      constructor
      · rintro ⟨_, rfl⟩
        exact Or.inl (Prod.ext hByte rfl)
      · rintro (rfl | ⟨_, hNe⟩)
        · exact ⟨hUsed, rfl⟩
        · exact absurd rfl hNe
    · have hDifferent : childIndex old.1 ≠ childIndex entry.1 := fun hEq => hByte (hInjective _ _ hUsed hEq).symm
      rw [getElem?_set_ne hDifferent]
      constructor
      · exact fun hMem => Or.inr ⟨hMem, hByte⟩
      · rintro (rfl | ⟨hMem, _⟩)
        · exact absurd rfl hByte
        · exact hMem
  | node256 child =>
    obtain ⟨hPos, hChild⟩ := slot_node256 hOld
    rw [setChild, mem_node256, mem_node256, hPos]
    exact update_eq_some

end Children

end KushDB.TupleIdxTable
