import KushDB.TupleIdxTable.Growth
import KushDB.TupleIdxTable.Tree

/-! # Insertion into the radix tree

A tree holds a list of keys if every node is reached over bytes that its keys start with. The keys are then listed in
the order of their bytes, and no two of them have the same. An insertion answers whether the bytes of the key are new
and adds the key if they are.
-/

namespace KushDB.TupleIdxTable

open List

/-! ## Keys -/

/-- The bytes that take part in comparisons. -/
def Key.bytes (key : Key) : List Byte :=
  key.data.take key.length

structure Key.Fits (length : Nat) (key : Key) : Prop where
  length_eq : key.length = length
  length_le : length ≤ key.data.length

variable {key : Key} {length : Nat} {byte newByte oldByte : Byte} {path compressed : List Byte} {keys before : List Key}
  {node : Node} {children : Children Node}

theorem Key.Fits.length_bytes (h : key.Fits length) : key.bytes.length = length := by
  rw [Key.bytes, length_take, h.length_eq, Nat.min_eq_left h.length_le]

theorem Key.data_of_isPrefix (h : path ++ [byte] <+: key.bytes) : key.data[path.length]? = some byte := by
  obtain ⟨rest, hRest⟩ := h.trans <| take_prefix _ _
  rw [← hRest, append_assoc, getElem?_append_right (Nat.le_refl _), Nat.sub_self]
  rfl

theorem Key.drop_of_isPrefix {extra : List Byte} (h : path ++ extra <+: key.bytes) :
    (key.data.drop path.length).take extra.length = extra := by
  obtain ⟨rest, hRest⟩ := h.trans <| take_prefix _ _
  rw [← hRest, append_assoc, drop_left, take_left]

theorem Key.Fits.next (h : key.Fits length) (hPath : path <+: key.bytes) (hLength : path.length < length) :
    ∃ byte, path ++ [byte] <+: key.bytes := by
  obtain ⟨rest, hRest⟩ := hPath
  cases rest with
  | nil =>
    rw [append_nil] at hRest
    rw [hRest, h.length_bytes] at hLength
    omega
  | cons byte rest => exact ⟨byte, rest, by rw [append_assoc]; exact hRest⟩

theorem Key.Fits.eq_of_isPrefix (h : key.Fits length) (hPath : path <+: key.bytes) (hLength : path.length = length) :
    path = key.bytes :=
  hPath.eq_of_length (hLength.trans h.length_bytes.symm)

theorem Key.Fits.length_path (h : key.Fits length) (hPath : path <+: key.bytes) : path.length ≤ length :=
  h.length_bytes ▸ hPath.length_le

/-! ## Comparisons -/

variable {existing : Key} {fuel pos : Nat} {keysOf : Byte → List Key} {a b : Byte} {old child : Node}

theorem leafMismatch_spec (hExisting : existing.Fits length) (hKey : key.Fits length) (hOld : path <+: existing.bytes)
    (hNew : path <+: key.bytes) (hFuel : length < path.length + fuel) :
    (leafMismatch existing key fuel path.length = some none ∧ existing.bytes = key.bytes) ∨
      ∃ extra one other, leafMismatch existing key fuel path.length = some (some (path ++ extra).length) ∧
        path ++ extra ++ [one] <+: existing.bytes ∧ path ++ extra ++ [other] <+: key.bytes ∧ one ≠ other := by
  have hPath := hExisting.length_path hOld
  induction fuel generalizing path with
  | zero => omega
  | succ fuel ih =>
    rw [leafMismatch, hExisting.length_eq, hKey.length_eq]
    split
    · rename_i hEnd
      refine Or.inl ⟨rfl, ?_⟩
      rw [← hExisting.eq_of_isPrefix hOld hEnd.1, ← hKey.eq_of_isPrefix hNew hEnd.1]
    · rename_i hInside
      have hLt : path.length < length := by omega
      obtain ⟨one, hOne⟩ := hExisting.next hOld hLt
      obtain ⟨other, hOther⟩ := hKey.next hNew hLt
      rw [Key.data_of_isPrefix hOne, Key.data_of_isPrefix hOther]
      simp only [Option.bind_eq_bind, Option.bind_some]
      split
      · rename_i hSame
        subst hSame
        have hNext := ih hOne hOther (by rw [length_append]; simpa [Nat.add_assoc, Nat.add_comm] using hFuel)
          (hExisting.length_path hOne)
        rw [length_append, length_singleton] at hNext
        rcases hNext with hEqual | ⟨extra, one', other', hResult, hRest⟩
        · exact Or.inl hEqual
        · refine Or.inr ⟨one :: extra, one', other', ?_, ?_⟩
          · rw [hResult, append_assoc]
            rfl
          · rw [append_assoc path] at hRest
            exact hRest
      · rename_i hDifferent
        exact Or.inr ⟨[], one, other, by rw [append_nil], by rw [append_nil]; exact ⟨hOne, hOther, hDifferent⟩⟩

theorem prefixMismatch_spec (hKey : key.Fits length) (hPath : path <+: key.bytes)
    (hLength : (path ++ compressed).length < length) :
    (prefixMismatch key path.length compressed = some compressed.length ∧ path ++ compressed <+: key.bytes) ∨
      ∃ shared old rest new, compressed = shared ++ old :: rest ∧
        prefixMismatch key path.length compressed = some shared.length ∧
        path ++ shared ++ [new] <+: key.bytes ∧ new ≠ old := by
  induction compressed generalizing path with
  | nil => exact Or.inl ⟨rfl, by rwa [append_nil]⟩
  | cons byte compressed ih =>
    have hLt : path.length < length := by
      rw [length_append] at hLength
      omega
    obtain ⟨other, hOther⟩ := hKey.next hPath hLt
    rw [prefixMismatch, Key.data_of_isPrefix hOther]
    simp only [Option.bind_eq_bind, Option.bind_some]
    split
    · rename_i hDifferent
      exact Or.inr ⟨[], byte, compressed, other, rfl, rfl, by rwa [append_nil], hDifferent⟩
    · rename_i hSame
      rw [not_not] at hSame
      subst hSame
      have hNext := ih hOther (by rw [append_assoc]; exact hLength)
      rw [length_append, length_singleton] at hNext
      rcases hNext with ⟨hResult, hRest⟩ | ⟨shared, old, rest, new, rfl, hResult, hRest, hNew⟩
      · refine Or.inl ⟨by rw [hResult]; rfl, ?_⟩
        rw [append_assoc] at hRest
        exact hRest
      · refine Or.inr ⟨other :: shared, old, rest, new, rfl, by rw [hResult]; rfl, ?_, hNew⟩
        rw [append_assoc path] at hRest
        exact hRest

/-! ## The keys of a tree -/

inductive Holds (length : Nat) : List Byte → Node → List Key → Prop
  | leaf {path : List Byte} {key : Key} (hPath : path <+: key.bytes) (hFits : key.Fits length) :
    Holds length path (.leaf key) [key]
  | inner {path compressed : List Byte} {children : Children Node} (keysOf : Byte → List Key)
    (hWell : children.WellFormed) (hNonempty : children.toList ≠ [])
    (hChildren : ∀ entry ∈ children.toList, Holds length (path ++ compressed ++ [entry.1]) entry.2 (keysOf entry.1)) :
    Holds length path (.inner compressed children) (children.toList.flatMap fun entry => keysOf entry.1)

theorem Holds.isPrefix (h : Holds length path node keys) : ∀ key ∈ keys, path <+: key.bytes ∧ key.Fits length := by
  induction h with
  | leaf hPath hFits => simpa using ⟨hPath, hFits⟩
  | inner keysOf hWell hNonempty hChildren ih =>
    intro key hKey
    obtain ⟨entry, hEntry, hKey⟩ := mem_flatMap.mp hKey
    obtain ⟨hPath, hFits⟩ := ih entry hEntry key hKey
    rw [append_assoc] at hPath
    exact ⟨(prefix_append _ _).trans hPath, hFits⟩

theorem Holds.length_le (h : Holds length path node keys) : path.length ≤ length := by
  induction h with
  | leaf hPath hFits => exact hFits.length_path hPath
  | inner keysOf hWell hNonempty hChildren ih =>
    obtain ⟨entry, hEntry⟩ := exists_mem_of_ne_nil _ hNonempty
    have hEntry := ih entry hEntry
    simp only [length_append] at hEntry
    omega

theorem Holds.length_inner (hNonempty : children.toList ≠ [])
    (hChildren : ∀ entry ∈ children.toList, Holds length (path ++ compressed ++ [entry.1]) entry.2 (keysOf entry.1)) :
    (path ++ compressed).length < length := by
  obtain ⟨entry, hEntry⟩ := exists_mem_of_ne_nil _ hNonempty
  have hEntry := (hChildren entry hEntry).length_le
  rw [length_append, length_singleton] at hEntry
  exact hEntry

theorem lt_of_isPrefix {one other : List Byte} (hOne : path ++ [a] <+: one) (hOther : path ++ [b] <+: other) (h : a < b) :
    one < other := by
  obtain ⟨rest, rfl⟩ := hOne
  obtain ⟨rest', rfl⟩ := hOther
  rw [append_assoc, append_assoc]
  exact append_left_lt (List.Lex.rel h)

theorem Holds.sorted (h : Holds length path node keys) : keys.Pairwise fun one other => one.bytes < other.bytes := by
  induction h with
  | leaf hPath hFits => exact pairwise_singleton _ _
  | inner keysOf hWell hNonempty hChildren ih =>
    refine pairwise_flatMap.mpr ⟨ih, (Children.sorted_toList hWell).imp_of_mem ?_⟩
    intro one other hOne hOther hLt a ha b hb
    exact lt_of_isPrefix ((hChildren one hOne).isPrefix a ha).1 ((hChildren other hOther).isPrefix b hb).1 hLt

/-! ## Insertion -/

/-- An inner node whose children hold keys, by the key lists of the bytes. -/
theorem exists_holds_inner (path compressed : List Byte) (keysOf : Byte → List Key) (hWell : children.WellFormed)
    (hNonempty : children.toList ≠ [])
    (hChildren : ∀ entry ∈ children.toList, Holds length (path ++ compressed ++ [entry.1]) entry.2 (keysOf entry.1)) :
    ∃ keys, Holds length path (.inner compressed children) keys ∧
      ∀ key, key ∈ keys ↔ ∃ entry ∈ children.toList, key ∈ keysOf entry.1 :=
  ⟨_, Holds.inner keysOf hWell hNonempty hChildren, fun _ => mem_flatMap⟩

/-- A child added under a new byte. -/
theorem holds_adds (path compressed : List Byte) {before : List (Byte × Node)} (keysOf : Byte → List Key) {k : Byte}
    {new : Node} {after : Children Node} (hAdds : Children.Adds before k new after)
    (hFree : ∀ child, (k, child) ∉ before)
    (hBefore : ∀ entry ∈ before, Holds length (path ++ compressed ++ [entry.1]) entry.2 (keysOf entry.1))
    (hNew : Holds length (path ++ compressed ++ [k]) new keys) :
    ∃ all, Holds length path (.inner compressed after) all ∧
      ∀ key, key ∈ all ↔ (∃ entry ∈ before, key ∈ keysOf entry.1) ∨ key ∈ keys := by
  obtain ⟨hWell, hMem⟩ := hAdds
  have hOther : ∀ entry ∈ before, Function.update keysOf k keys entry.1 = keysOf entry.1 := by
    intro entry hEntry
    refine Function.update_of_ne ?_ _ _
    rintro rfl
    exact hFree entry.2 hEntry
  have hNonempty : after.toList ≠ [] := ne_nil_of_mem ((hMem (k, new)).mpr (Or.inl rfl))
  obtain ⟨all, hHolds, hAll⟩ := exists_holds_inner path compressed (Function.update keysOf k keys)
    hWell hNonempty (by
      intro entry hEntry
      rcases (hMem entry).mp hEntry with rfl | hEntry
      · rw [Function.update_self]
        exact hNew
      · rw [hOther entry hEntry]
        exact hBefore entry hEntry)
  refine ⟨all, hHolds, fun key => (hAll key).trans ?_⟩
  constructor
  · rintro ⟨entry, hEntry, hKey⟩
    rcases (hMem entry).mp hEntry with rfl | hEntry
    · rw [Function.update_self] at hKey
      exact Or.inr hKey
    · rw [hOther entry hEntry] at hKey
      exact Or.inl ⟨entry, hEntry, hKey⟩
  · rintro (⟨entry, hEntry, hKey⟩ | hKey)
    · exact ⟨entry, (hMem entry).mpr (Or.inr hEntry), by rwa [hOther entry hEntry]⟩
    · exact ⟨(k, new), (hMem _).mpr (Or.inl rfl), by rwa [Function.update_self]⟩

theorem holds_branch (hOld : Holds length (path ++ compressed ++ [oldByte]) old before) (hFits : key.Fits length)
    (hPath : path ++ compressed ++ [newByte] <+: key.bytes) (hBytes : newByte ≠ oldByte) :
    ∃ keys, Holds length path (branch compressed oldByte old newByte key) keys ∧
      ∀ other, other ∈ keys ↔ other ∈ before ∨ other = key := by
  have hFirst : Children.Adds [] oldByte old ((Children.node4 []).insertLeaf oldByte old) :=
    Children.adds_insert4 old (Nat.zero_le _) List.Pairwise.nil fun _ => not_mem_nil
  have hMem : ∀ entry, entry ∈ ((Children.node4 []).insertLeaf oldByte old).toList ↔ entry = (oldByte, old) := by
    intro entry
    rw [hFirst.2 entry]
    simp
  have hFree : ∀ child, (newByte, child) ∉ ((Children.node4 []).insertLeaf oldByte old).toList := by
    intro child hChild
    exact hBytes (congrArg Prod.fst ((hMem _).mp hChild))
  obtain ⟨all, hHolds, hAll⟩ := holds_adds path compressed (fun _ => before)
    (Children.adds_insertLeaf hFirst.1 (.leaf key) hFree) hFree
    (by
      intro entry hEntry
      rw [(hMem entry).mp hEntry]
      exact hOld)
    (Holds.leaf hPath hFits)
  refine ⟨all, hHolds, fun other => (hAll other).trans ?_⟩
  rw [mem_singleton]
  constructor
  · rintro (⟨_, _, hOther⟩ | hOther)
    · exact Or.inl hOther
    · exact Or.inr hOther
  · rintro (hOther | hOther)
    · exact Or.inl ⟨_, (hMem _).mpr rfl, hOther⟩
    · exact Or.inr hOther

/-- The result of an insertion of the key below a node that holds the keys `before`. -/
def Inserted (length : Nat) (path : List Byte) (key : Key) (before : List Key) (result : Option (Node × Bool)) : Prop :=
  ∃ node keys added, result = some (node, added) ∧ Holds length path node keys ∧
    (added = true ↔ ∀ old ∈ before, old.bytes ≠ key.bytes) ∧
    ∀ other, other ∈ keys ↔ other ∈ before ∨ added = true ∧ other = key

theorem byte_eq_of_isPrefix {bytes : List Byte} (ha : path ++ [a] <+: bytes) (hb : path ++ [b] <+: bytes) : a = b := by
  obtain ⟨rest, rfl⟩ := ha
  obtain ⟨rest', hRest⟩ := hb
  rw [append_assoc, append_assoc] at hRest
  exact (List.cons.inj (append_cancel_left hRest)).1.symm

theorem inserted_of_holds (hHolds : Holds length path node keys) (hNew : ∀ old ∈ before, old.bytes ≠ key.bytes)
    (hKeys : ∀ other, other ∈ keys ↔ other ∈ before ∨ other = key) :
    Inserted length path key before (some (node, true)) :=
  ⟨node, keys, true, rfl, hHolds, iff_of_true rfl hNew, fun other => by rw [hKeys other, and_iff_right rfl]⟩

theorem inserted_branch (hOld : Holds length (path ++ compressed ++ [oldByte]) old before) (hFits : key.Fits length)
    (hPath : path ++ compressed ++ [newByte] <+: key.bytes) (hBytes : newByte ≠ oldByte) :
    Inserted length path key before (some (branch compressed oldByte old newByte key, true)) := by
  obtain ⟨keys, hHolds, hKeys⟩ := holds_branch hOld hFits hPath hBytes
  refine inserted_of_holds hHolds (fun one hOne hSame => hBytes ?_) hKeys
  have hOneBytes := (hOld.isPrefix one hOne).1
  rw [hSame] at hOneBytes
  exact byte_eq_of_isPrefix hPath hOneBytes

theorem inserted_leaf (hExisting : existing.Fits length) (hKey : key.Fits length) (hOld : path <+: existing.bytes)
    (hNew : path <+: key.bytes) (fuel : Nat) :
    Inserted length path key [existing] (insertImpl key (fuel + 1) (some (.leaf existing)) path.length) := by
  rw [insertImpl]
  have hFuel : length < path.length + (existing.data.length + 1) := by
    have hLength := hExisting.length_le
    omega
  rcases leafMismatch_spec hExisting hKey hOld hNew hFuel with ⟨hResult, hSame⟩ | ⟨extra, one, other, hResult, hRest⟩
  · rw [hResult]
    refine ⟨.leaf existing, [existing], false, rfl, Holds.leaf hOld hExisting, ?_, by simp⟩
    exact iff_of_false Bool.false_ne_true fun hAll => hAll existing mem_cons_self hSame
  · obtain ⟨hOne, hOther, hDifferent⟩ := hRest
    have hExtra : (key.data.drop path.length).take ((path ++ extra).length - path.length) = extra := by
      rw [length_append, Nat.add_sub_cancel_left]
      exact Key.drop_of_isPrefix ((prefix_append _ _).trans hOther)
    rw [hResult]
    simp only [Option.bind_eq_bind, Option.bind_some]
    rw [Key.data_of_isPrefix hOne, Key.data_of_isPrefix hOther, hExtra]
    exact inserted_branch (Holds.leaf hOne hExisting) hKey hOther hDifferent.symm

theorem inserted_split {shared rest : List Byte}
    (h : Holds length path (.inner (shared ++ oldByte :: rest) children) before) (hKey : key.Fits length)
    (hPath : path ++ shared ++ [newByte] <+: key.bytes) (hBytes : newByte ≠ oldByte) :
    Inserted length path key before (some (branch shared oldByte (.inner rest children) newByte key, true)) := by
  cases h with
  | inner keysOf hWell hNonempty hChildren =>
    refine inserted_branch (Holds.inner keysOf hWell hNonempty fun entry hEntry => ?_) hKey hPath hBytes
    have hEntry := hChildren entry hEntry
    rw [append_cons shared, ← append_assoc path, ← append_assoc path] at hEntry
    exact hEntry

theorem inserted_newChild (h : Holds length path (.inner compressed children) before) (hKey : key.Fits length)
    (hPath : path ++ compressed ++ [byte] <+: key.bytes) (hFree : ∀ child, (byte, child) ∉ children.toList) :
    Inserted length path key before (some (.inner compressed (children.insertLeaf byte (.leaf key)), true)) := by
  cases h with
  | inner keysOf hWell hNonempty hChildren =>
    obtain ⟨all, hHolds, hAll⟩ := holds_adds path compressed keysOf
      (Children.adds_insertLeaf hWell (.leaf key) hFree) hFree hChildren (Holds.leaf hPath hKey)
    refine inserted_of_holds hHolds (fun old hOld hSame => ?_) fun other => ?_
    · obtain ⟨entry, hEntry, hOld⟩ := mem_flatMap.mp hOld
      have hOldBytes := ((hChildren entry hEntry).isPrefix old hOld).1
      rw [hSame] at hOldBytes
      have hByte := byte_eq_of_isPrefix hPath hOldBytes
      subst hByte
      exact hFree entry.2 hEntry
    · rw [hAll other, mem_flatMap, mem_singleton]

/-- Replacing the child of a byte adds it to the children of the other bytes. -/
theorem adds_setChild (hWell : children.WellFormed) (hSlot : children.slots[pos]? = some (some (byte, child)))
    (new : Node) :
    Children.Adds (children.toList.filter fun entry => entry.1 ≠ byte) byte new (children.setChild pos new) := by
  refine ⟨Children.wellFormed_setChild hWell pos new, fun entry => ?_⟩
  rw [Children.mem_setChild hWell hSlot, mem_filter, decide_eq_true_iff]

theorem inserted_child (hWell : children.WellFormed)
    (hChildren : ∀ entry ∈ children.toList, Holds length (path ++ compressed ++ [entry.1]) entry.2 (keysOf entry.1))
    (hPath : path ++ compressed ++ [byte] <+: key.bytes) (hSlot : children.slots[pos]? = some (some (byte, child)))
    {result : Option (Node × Bool)} (hResult : Inserted length (path ++ compressed ++ [byte]) key (keysOf byte) result) :
    Inserted length path key (children.toList.flatMap fun entry => keysOf entry.1)
      (result.bind fun (new, added) => some (.inner compressed (children.setChild pos new), added)) := by
  obtain ⟨new, keys, added, rfl, hHolds, hAdded, hKeys⟩ := hResult
  have hMem := Children.mem_of_slots hSlot
  obtain ⟨all, hAllHolds, hAll⟩ := holds_adds path compressed keysOf (adds_setChild hWell hSlot new) (by simp)
    (fun entry hEntry => hChildren entry (mem_filter.mp hEntry).1) hHolds
  refine ⟨_, all, added, rfl, hAllHolds, hAdded.trans ?_, fun other => (hAll other).trans ?_⟩
  · constructor
    · intro hNew old hOld hSame
      obtain ⟨entry, hEntry, hOld⟩ := mem_flatMap.mp hOld
      have hOldBytes := ((hChildren entry hEntry).isPrefix old hOld).1
      rw [hSame] at hOldBytes
      have hByte := byte_eq_of_isPrefix hPath hOldBytes
      exact hNew old (hByte ▸ hOld) hSame
    · intro hNew old hOld
      exact hNew old (mem_flatMap.mpr ⟨_, hMem, hOld⟩)
  · rw [hKeys other, mem_flatMap]
    constructor
    · rintro (⟨entry, hEntry, hOther⟩ | hOther | hOther)
      · exact Or.inl ⟨entry, (mem_filter.mp hEntry).1, hOther⟩
      · exact Or.inl ⟨_, hMem, hOther⟩
      · exact Or.inr hOther
    · rintro (⟨entry, hEntry, hOther⟩ | hOther)
      · by_cases hByte : entry.1 = byte
        · exact Or.inr (Or.inl (hByte ▸ hOther))
        · exact Or.inl ⟨entry, mem_filter.mpr ⟨hEntry, decide_eq_true hByte⟩, hOther⟩
      · exact Or.inr (Or.inr hOther)

theorem inserted_insertImpl (h : Holds length path node before) (hKey : key.Fits length) (hPath : path <+: key.bytes)
    (hFuel : length < path.length + fuel) :
    Inserted length path key before (insertImpl key fuel (some node) path.length) := by
  induction h generalizing fuel with
  | leaf hOld hExisting =>
    have hLength := hExisting.length_path hOld
    obtain ⟨fuel, rfl⟩ := Nat.exists_eq_add_one_of_ne_zero (show fuel ≠ 0 by omega)
    exact inserted_leaf hExisting hKey hOld hPath fuel
  | @inner path compressed children keysOf hWell hNonempty hChildren ih =>
    have hLength := Holds.length_inner hNonempty hChildren
    rw [length_append] at hLength
    obtain ⟨fuel, rfl⟩ := Nat.exists_eq_add_one_of_ne_zero (show fuel ≠ 0 by omega)
    rw [insertImpl]
    rcases prefixMismatch_spec hKey hPath (Holds.length_inner hNonempty hChildren) with
      ⟨hResult, hShared⟩ | ⟨shared, old, rest, new, rfl, hResult, hNew, hBytes⟩
    · obtain ⟨byte, hByte⟩ := hKey.next hShared (Holds.length_inner hNonempty hChildren)
      have hData := Key.data_of_isPrefix hByte
      rw [length_append] at hData
      rw [hResult]
      simp only [Option.bind_eq_bind, Option.bind_some, ne_eq, not_true_eq_false, if_false, hData]
      cases hPos : children.getChildPos byte with
      | none =>
        exact inserted_newChild (Holds.inner keysOf hWell hNonempty hChildren) hKey hByte
          (Children.notMem_of_getChildPos hPos)
      | some pos =>
        obtain ⟨child, hSlot⟩ := Children.slots_of_getChildPos hWell hPos
        have hRemaining : length < (path ++ compressed ++ [byte]).length + fuel := by
          simp only [length_append, length_singleton]
          omega
        have hChild := ih (byte, child) (Children.mem_of_slots hSlot) hByte hRemaining
        simp only [length_append, length_singleton] at hChild
        simp only [Children.getChild_of_slots hSlot, Option.bind_some]
        exact inserted_child hWell hChildren hByte hSlot hChild
    · have hData := Key.data_of_isPrefix hNew
      rw [length_append] at hData
      rw [hResult]
      simp only [Option.bind_eq_bind, Option.bind_some, hData]
      rw [if_pos (by simp)]
      have hOld : (shared ++ old :: rest)[shared.length]? = some old := by simp
      have hDrop : (shared ++ old :: rest).drop (shared.length + 1) = rest := by simp
      rw [hOld, hDrop, take_left]
      exact inserted_split (Holds.inner keysOf hWell hNonempty hChildren) hKey hNew hBytes

end KushDB.TupleIdxTable
