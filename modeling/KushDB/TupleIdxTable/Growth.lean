import KushDB.TupleIdxTable.Children

/-! # Insertion into an inner node

Inserting a child under a new byte adds this child and keeps all others, in every layout and through every growth to a
larger one. A scan over the positions meets the children in the order of their bytes.
-/

namespace KushDB.TupleIdxTable.Children

open List

variable {α : Type}

/-! ## Insertion -/

variable {entries : List (Byte × α)} {k : Byte} {children : Children α} {slots : List (Option (Byte × α))} {start : Nat}
variable {entry : Byte × α} {new : α} {before : List (Byte × α)} {child : List α} {childIndex : Byte → Nat}
  {pos : Option Nat}

theorem mem_insertEntry : entry ∈ insertEntry k new entries ↔ entry = (k, new) ∨ entry ∈ entries := by
  induction entries with
  | nil => simp [insertEntry]
  | cons first entries ih =>
    rw [insertEntry]
    split
    · rw [mem_cons, ih, mem_cons, or_left_comm]
    · exact mem_cons

theorem length_insertEntry (k : Byte) (new : α) (entries : List (Byte × α)) :
    (insertEntry k new entries).length = entries.length + 1 := by
  induction entries with
  | nil => rfl
  | cons first entries ih =>
    rw [insertEntry]
    split
    · rw [length_cons, ih, length_cons]
    · rfl

theorem sorted_insertEntry (h : Sorted entries) (hNew : ∀ value, (k, value) ∉ entries) :
    Sorted (insertEntry k new entries) := by
  induction h with
  | nil => exact pairwise_singleton _ _
  | @cons first entries hFirst hRest ih =>
    rw [insertEntry]
    split
    · rename_i hLt
      refine List.Pairwise.cons (fun entry hEntry => ?_) (ih fun value hMem => hNew value (mem_cons_of_mem _ hMem))
      rcases mem_insertEntry.mp hEntry with rfl | hEntry
      · exact hLt
      · exact hFirst entry hEntry
    · rename_i hLe
      have hNe : k ≠ first.1 := by
        rintro rfl
        exact hNew first.2 mem_cons_self
      have hBelow : k < first.1 := lt_of_le_of_ne (not_lt.mp hLe) hNe
      refine List.Pairwise.cons (fun entry hEntry => ?_) (List.Pairwise.cons hFirst hRest)
      rcases mem_cons.mp hEntry with rfl | hEntry
      · exact hBelow
      · exact hBelow.trans (hFirst entry hEntry)

/-- Adding a child: the children of `after` are those of `before` and the one new child. -/
def Adds (before : List (Byte × α)) (k : Byte) (new : α) (after : Children α) : Prop :=
  after.WellFormed ∧ ∀ entry, entry ∈ after.toList ↔ entry = (k, new) ∨ entry ∈ before

theorem adds_insert256 {child : Byte → Option α} (new : α)
    (hBefore : ∀ entry, entry ∈ before ↔ child entry.1 = some entry.2) (hNew : ∀ value, (k, value) ∉ before) :
    Adds before k new (insert256 k new child) := by
  refine ⟨trivial, fun entry => ?_⟩
  rw [insert256, mem_node256, update_eq_some, ← hBefore]
  constructor
  · rintro (h | ⟨h, _⟩)
    · exact Or.inl h
    · exact Or.inr h
  · rintro (h | h)
    · exact Or.inl h
    · refine Or.inr ⟨h, ?_⟩
      rintro rfl
      exact hNew entry.2 h

theorem adds_insert48 (new : α) (hWell : (node48 childIndex child).WellFormed)
    (hBefore : ∀ entry, entry ∈ before ↔ entry ∈ (node48 childIndex child).toList) (hNew : ∀ value, (k, value) ∉ before) :
    Adds before k new (insert48 k new childIndex child) := by
  obtain ⟨hLength, hIndex, hInjective⟩ := hWell
  have hFree : childIndex k = emptyMarker := by
    by_contra hUsed
    have hBound := hIndex k hUsed
    exact hNew child[childIndex k] ((hBefore _).mpr (mem_node48.mpr ⟨hUsed, getElem?_eq_getElem hBound⟩))
  rw [insert48]
  split
  · rename_i hRoom
    have hMarker : child.length ≠ emptyMarker := ne_of_lt hRoom
    refine ⟨⟨?_, ?_, ?_⟩, fun entry => ?_⟩
    · rw [length_append]
      exact hRoom
    · intro byte hUsed
      rw [length_append, length_singleton]
      by_cases hByte : byte = k
      · subst hByte
        rw [Function.update_self]
        exact Nat.lt_succ_self _
      · rw [Function.update_of_ne hByte] at hUsed ⊢
        exact Nat.lt_succ_of_lt (hIndex byte hUsed)
    · intro one other hUsed hEq
      by_cases hOne : one = k
      · by_cases hOther : other = k
        · rw [hOne, hOther]
        · rw [hOne, Function.update_self, Function.update_of_ne hOther] at hEq
          have hBound := hIndex other (hEq ▸ hMarker)
          omega
      · rw [Function.update_of_ne hOne] at hUsed hEq
        by_cases hOther : other = k
        · rw [hOther, Function.update_self] at hEq
          have hBound := hIndex one hUsed
          omega
        · rw [Function.update_of_ne hOther] at hEq
          exact hInjective one other hUsed hEq
    · rw [mem_node48, hBefore, mem_node48]
      by_cases hByte : entry.1 = k
      · rw [hByte, Function.update_self, getElem?_concat_length, Option.some.injEq]
        constructor
        · rintro ⟨_, rfl⟩
          exact Or.inl (Prod.ext hByte rfl)
        · rintro (rfl | ⟨hUsed, _⟩)
          · exact ⟨hMarker, rfl⟩
          · exact absurd hFree hUsed
      · rw [Function.update_of_ne hByte]
        constructor
        · rintro ⟨hUsed, hChild⟩
          rw [getElem?_append_left (hIndex _ hUsed)] at hChild
          exact Or.inr ⟨hUsed, hChild⟩
        · rintro (rfl | ⟨hUsed, hChild⟩)
          · exact absurd rfl hByte
          · rw [getElem?_append_left (hIndex _ hUsed)]
            exact ⟨hUsed, hChild⟩
  · refine adds_insert256 new (fun entry => ?_) hNew
    rw [hBefore, mem_node48]
    split
    · rename_i hEmpty
      exact iff_of_false (fun h => h.1 hEmpty) (by simp)
    · rename_i hUsed
      exact and_iff_right hUsed

theorem indexOf_spec (entries : List (Byte × α)) (byte : Byte) :
    (indexOf entries byte = emptyMarker ∧ ∀ value, (byte, value) ∉ entries) ∨
      ∃ value, entries[indexOf entries byte]? = some (byte, value) := by
  rw [indexOf]
  cases h : entries.findIdx? fun entry => entry.1 = byte with
  | none => exact Or.inl ⟨rfl, notMem_of_findIdx h⟩
  | some pos => exact Or.inr (getElem_of_findIdx h)

theorem getElem_indexOf {byte : Byte} (h : indexOf entries byte ≠ emptyMarker) :
    ∃ value, entries[indexOf entries byte]? = some (byte, value) := by
  rcases indexOf_spec entries byte with hFree | hUsed
  · exact absurd hFree.1 h
  · exact hUsed

theorem wellFormed_indexOf (hLength : entries.length ≤ 16) :
    (node48 (indexOf entries) (entries.map Prod.snd)).WellFormed := by
  refine ⟨?_, fun byte hUsed => ?_, fun one other hUsed hEq => ?_⟩
  · rw [length_map]
    omega
  · obtain ⟨value, hValue⟩ := getElem_indexOf hUsed
    rw [length_map]
    exact (List.getElem?_eq_some_iff.mp hValue).1
  · obtain ⟨value, hValue⟩ := getElem_indexOf hUsed
    obtain ⟨value', hValue'⟩ := getElem_indexOf (hEq ▸ hUsed)
    rw [← hEq, hValue] at hValue'
    exact congrArg Prod.fst (Option.some.inj hValue')

theorem mem_indexOf (hLength : entries.length ≤ 16) (hSorted : Sorted entries) (entry : Byte × α) :
    entry ∈ entries ↔ entry ∈ (node48 (indexOf entries) (entries.map Prod.snd)).toList := by
  rw [mem_node48, getElem?_map]
  constructor
  · intro hMem
    rcases indexOf_spec entries entry.1 with hFree | ⟨value, hValue⟩
    · exact absurd hMem (hFree.2 entry.2)
    · have hSame := hSorted.unique (mem_of_getElem? hValue) hMem rfl
      have hBound := (List.getElem?_eq_some_iff.mp hValue).1
      rw [hValue, hSame]
      refine ⟨fun hEq => ?_, rfl⟩
      rw [hEq, emptyMarker] at hBound
      omega
  · rintro ⟨hUsed, hChild⟩
    obtain ⟨value, hValue⟩ := getElem_indexOf hUsed
    rw [hValue, Option.map_some, Option.some.injEq] at hChild
    subst hChild
    exact mem_of_getElem? hValue

theorem adds_insert16 (new : α) (hLength : entries.length ≤ 16) (hSorted : Sorted entries)
    (hNew : ∀ value, (k, value) ∉ entries) : Adds entries k new (insert16 k new entries) := by
  rw [insert16]
  split
  · rename_i hRoom
    refine ⟨⟨?_, sorted_insertEntry hSorted hNew⟩, fun entry => mem_node16.trans mem_insertEntry⟩
    rw [length_insertEntry]
    exact hRoom
  · exact adds_insert48 new (wellFormed_indexOf hLength) (mem_indexOf hLength hSorted) hNew

theorem adds_insert4 (new : α) (hLength : entries.length ≤ 4) (hSorted : Sorted entries)
    (hNew : ∀ value, (k, value) ∉ entries) : Adds entries k new (insert4 k new entries) := by
  rw [insert4]
  split
  · rename_i hRoom
    refine ⟨⟨?_, sorted_insertEntry hSorted hNew⟩, fun entry => mem_node4.trans mem_insertEntry⟩
    rw [length_insertEntry]
    exact hRoom
  · exact adds_insert16 new (by omega) hSorted hNew

theorem adds_insertLeaf (h : children.WellFormed) (new : α) (hNew : ∀ value, (k, value) ∉ children.toList) :
    Adds children.toList k new (children.insertLeaf k new) := by
  cases children with
  | node4 entries =>
    obtain ⟨hWell, hMem⟩ := adds_insert4 new h.1 h.2 fun value hValue => hNew value (mem_node4.mpr hValue)
    exact ⟨hWell, fun entry => by rw [mem_node4]; exact hMem entry⟩
  | node16 entries =>
    obtain ⟨hWell, hMem⟩ := adds_insert16 new h.1 h.2 fun value hValue => hNew value (mem_node16.mpr hValue)
    exact ⟨hWell, fun entry => by rw [mem_node16]; exact hMem entry⟩
  | node48 childIndex child => exact adds_insert48 new h (fun _ => Iff.rfl) hNew
  | node256 child => exact adds_insert256 new (fun _ => mem_node256) hNew

/-! ## Following positions -/

/-- The children from a position on. -/
def childrenFrom (children : Children α) (pos : Nat) : List (Byte × α) :=
  (children.slots.drop pos).reduceOption

/-- What the next position after `pos` is: the one of the first of the remaining children, if any remains. -/
def Continues (slots : List (Option (Byte × α))) (start : Nat) : Option Nat → Prop
  | none => (slots.drop start).reduceOption = []
  | some next => ∃ entry, slots[next]? = some (some entry) ∧
    (slots.drop start).reduceOption = entry :: (slots.drop (next + 1)).reduceOption

theorem reduceOption_drop {slot : Option (Byte × α)} (h : slots[start]? = some slot) :
    (slots.drop start).reduceOption = (slot :: slots.drop (start + 1)).reduceOption := by
  obtain ⟨hStart, rfl⟩ := List.getElem?_eq_some_iff.mp h
  rw [drop_eq_getElem_cons hStart]

theorem continues_some (h : slots[start]? = some (some entry)) : Continues slots start (some start) :=
  ⟨entry, h, by rw [reduceOption_drop h, reduceOption_cons_of_some]⟩

theorem Continues.skip {next : Option Nat} (h : slots[start]? = some none) (hNext : Continues slots (start + 1) next) :
    Continues slots start next := by
  have hDrop : (slots.drop start).reduceOption = (slots.drop (start + 1)).reduceOption := by
    rw [reduceOption_drop h, reduceOption_cons_of_none]
  cases next with
  | none => exact hDrop.trans hNext
  | some next =>
    obtain ⟨entry, hEntry, hRest⟩ := hNext
    exact ⟨entry, hEntry, hDrop.trans hRest⟩

theorem continues_scan {slot : Byte → Option (Byte × α)} {used : Byte → Bool}
    (hUsed : ∀ byte, used byte = (slot byte).isSome) {remaining pos : Nat} (h : remaining = 256 - pos) :
    Continues (List.ofFn slot) pos (scan used remaining pos) := by
  induction remaining generalizing pos with
  | zero =>
    have hEnd : (List.ofFn slot).length ≤ pos := by
      rw [length_ofFn]
      omega
    change ((List.ofFn slot).drop pos).reduceOption = []
    rw [drop_eq_nil_of_le hEnd, reduceOption_nil]
  | succ remaining ih =>
    have hPos : pos < 256 := by omega
    have hSlot := slots_ofFn slot (Fin.ofNat 256 pos)
    rw [Fin.val_ofNat, Nat.mod_eq_of_lt hPos] at hSlot
    rw [scan, hUsed]
    cases hEntry : slot (Fin.ofNat 256 pos) with
    | none => exact Continues.skip (hEntry ▸ hSlot) (ih (by omega))
    | some entry => exact continues_some (hEntry ▸ hSlot)

theorem continues_nextEntry (h : entries ≠ []) (pos : Option Nat) :
    Continues (entries.map some) (following pos) (nextEntry entries.length pos) := by
  cases pos with
  | none =>
    have hFirst : 0 < entries.length := length_pos_iff.mpr h
    exact continues_some (slots_entries.mpr (getElem?_eq_getElem hFirst))
  | some pos =>
    rw [nextEntry]
    split
    · rename_i hNext
      exact continues_some (slots_entries.mpr (getElem?_eq_getElem hNext))
    · rename_i hEnd
      have hLength : (entries.map some).length ≤ pos + 1 := by
        rw [length_map]
        omega
      change ((entries.map some).drop (pos + 1)).reduceOption = []
      rw [drop_eq_nil_of_le hLength, reduceOption_nil]

theorem isSome_slot48 (h : (node48 childIndex child).WellFormed) (byte : Byte) :
    decide (childIndex byte ≠ emptyMarker) = (slot48 childIndex child byte).isSome := by
  rw [slot48]
  split
  · rename_i hEmpty
    simp [hEmpty]
  · rename_i hUsed
    simp [hUsed, h.2.1 byte hUsed]

theorem isSome_slot256 (child : Byte → Option α) (byte : Byte) :
    (child byte).isSome = (slot256 child byte).isSome := by
  rw [slot256, Option.isSome_map]

theorem continues_getNextPos (h : children.WellFormed) (hNonempty : children.toList ≠ []) (pos : Option Nat) :
    Continues children.slots (following pos) (children.getNextPos pos) := by
  cases children with
  | node4 entries =>
    exact continues_nextEntry (fun hNil => hNonempty (by rw [hNil]; rfl)) pos
  | node16 entries =>
    exact continues_nextEntry (fun hNil => hNonempty (by rw [hNil]; rfl)) pos
  | node48 childIndex child => exact continues_scan (isSome_slot48 h) rfl
  | node256 child => exact continues_scan (isSome_slot256 child) rfl

theorem firstPos_eq (children : Children α) : children.firstPos = children.getNextPos none := by
  cases children <;> rfl

section

variable (h : children.WellFormed) (hNonempty : children.toList ≠ [])
include h hNonempty

theorem getNextPos_eq_none (hNext : children.getNextPos pos = none) : children.childrenFrom (following pos) = [] := by
  have hContinues := continues_getNextPos h hNonempty pos
  rw [hNext] at hContinues
  exact hContinues

theorem getNextPos_eq_some {next : Nat} (hNext : children.getNextPos pos = some next) :
    ∃ entry, children.getChild next = some entry.2 ∧ entry ∈ children.toList ∧
      children.childrenFrom (following pos) = entry :: children.childrenFrom (next + 1) := by
  have hContinues := continues_getNextPos h hNonempty pos
  rw [hNext] at hContinues
  obtain ⟨entry, hEntry, hRest⟩ := hContinues
  exact ⟨entry, getChild_of_slots hEntry, mem_of_slots hEntry, hRest⟩

theorem firstPos_spec :
    ∃ first entry, children.firstPos = some first ∧ children.getChild first = some entry.2 ∧
      entry ∈ children.toList ∧ children.toList = entry :: children.childrenFrom (first + 1) := by
  rw [firstPos_eq]
  cases hFirst : children.getNextPos none with
  | none => exact absurd (getNextPos_eq_none h hNonempty hFirst) hNonempty
  | some first =>
    obtain ⟨entry, hChild, hMem, hRest⟩ := getNextPos_eq_some h hNonempty hFirst
    exact ⟨first, entry, rfl, hChild, hMem, hRest⟩

end

end KushDB.TupleIdxTable.Children
