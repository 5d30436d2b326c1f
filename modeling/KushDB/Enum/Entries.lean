import KushDB.Enum.Serialize

/-! # The entries of a dictionary and their strings

Put in the order of their numbers, the items are those the loader has numbered, as long as the numbers are not negative.
Each is written behind the ones before, so that all of them can be read in the end.
-/

namespace KushDB.Enum

open KushDB.Bytes KushDB.Execution KushDB.Runtime List

variable {keys : List (List Byte)} {order : List (List Byte × Int)}

/-! ## The order of the keys -/

theorem getElem?_numbered (hCount : keys.length ≤ 2 ^ 31) (id : Nat) :
    (numbered keys)[id]? = keys[id]?.map fun key => (key, (id : Int)) := by
  rw [numbered, getElem?_mapIdx]
  by_cases hId : id < keys.length
  · rw [getElem?_eq_getElem hId, Option.map_some, Option.map_some, int32_eq (by omega) (by omega)]
  · rw [getElem?_eq_none (by omega), Option.map_none, Option.map_none]

/-- The vector after these items have been put into it. -/
def filled (keys : List (List Byte)) (done : List (List Byte × Int)) : List (Option (List Byte × Int)) :=
  (numbered keys).map fun item => if item ∈ done then some item else none

theorem filled_append (hCount : keys.length ≤ 2 ^ 31) (done : List (List Byte × Int)) {id : Nat}
    (hId : id < keys.length) :
    filled keys (done ++ [(keys[id], (id : Int))]) = (filled keys done).set id (some (keys[id], (id : Int))) := by
  refine ext_getElem? fun other => ?_
  rw [filled, filled, getElem?_set, length_map, length_numbered, getElem?_map, getElem?_map,
    getElem?_numbered hCount]
  by_cases hEq : id = other
  · subst hEq
    rw [if_pos rfl, if_pos hId, getElem?_eq_getElem hId]
    simp
  · rw [if_neg hEq, Option.map_map, Option.map_map]
    refine congrFun (congrArg Option.map (funext fun key => ?_)) _
    have hNe : (key, (other : Int)) ≠ (keys[id], (id : Int)) := fun h => hEq (Int.ofNat_inj.mp (congrArg Prod.snd h)).symm
    simp only [Function.comp_apply, mem_append, mem_singleton, hNe, or_false]

theorem mapM_map_some {α : Type} (list : List α) : (list.map some).mapM id = some list := by
  induction list with
  | nil => rfl
  | cons head tail ih =>
    rw [map_cons, mapM_cons, ih]
    rfl

theorem keysInOrder_eq (hCount : keys.length ≤ 2 ^ 31) (hOrder : order.Perm (numbered keys)) :
    keysInOrder order = some (numbered keys) := by
  have hLength : order.length = keys.length := hOrder.length_eq.trans (length_numbered keys)
  have hStep : ∀ done, done <+: order → done.foldlM (fun keys item =>
      if 0 ≤ item.2 ∧ item.2 < (order.length : Int) then some (keys.set item.2.toNat (some item)) else none)
      (List.replicate order.length none) = some (filled keys done) := by
    intro done
    induction done using List.reverseRecOn with
    | nil =>
      intro _
      rw [foldlM_nil, filled, hLength, ← length_numbered keys]
      simp
    | append_singleton done item ih =>
      intro hPrefix
      obtain ⟨id, hId, rfl⟩ := mem_numbered.mp
        (hOrder.subset (hPrefix.subset (mem_append_right done (mem_singleton_self item))))
      have hInt : int32 id = id := int32_eq (by omega) (by omega)
      rw [foldlM_append, ih ((prefix_append _ _).trans hPrefix), hInt, filled_append hCount done hId]
      simp only [Option.bind_eq_bind, Option.bind_some, foldlM_cons, foldlM_nil, bind_pure]
      rw [if_pos (by omega), Int.toNat_natCast]
  have hAll : filled keys order = (numbered keys).map some := by
    refine map_congr_left fun item hItem => if_pos (hOrder.symm.subset hItem)
  rw [keysInOrder, hStep order (prefix_refl order), hAll]
  exact mapM_map_some (numbered keys)

theorem foldlM_eq_none {α σ : Type} {step : σ → α → Option σ} {list : List α} {item : α} (hMem : item ∈ list)
    (hFail : ∀ state, step state item = none) (state : σ) : list.foldlM step state = none := by
  induction list generalizing state with
  | nil => cases hMem
  | cons head tail ih =>
    rw [foldlM_cons, Option.bind_eq_bind]
    rcases mem_cons.mp hMem with rfl | hTail
    · rw [hFail, Option.bind_none]
    · cases step state head with
      | none => rfl
      | some next => exact ih hTail next

/-- The number 2^31 is stored as a negative one, which is no index. -/
theorem keysInOrder_eq_none (hCount : 2 ^ 31 < keys.length) (hOrder : order.Perm (numbered keys)) :
    keysInOrder order = none := by
  have hMem : (keys[2 ^ 31], int32 ((2 ^ 31 : Nat) : Int)) ∈ order :=
    hOrder.symm.subset (mem_numbered.mpr ⟨2 ^ 31, hCount, rfl⟩)
  have hNegative : int32 ((2 ^ 31 : Nat) : Int) < 0 := by decide
  rw [keysInOrder, foldlM_eq_none hMem fun keys => if_neg fun h => by omega]
  rfl

/-! ## Writing the entries -/

structure EntryAt (file : File) (entry offset : Nat) (key : List Byte) (id : Nat) : Prop where
  strOffset : file.readNat entry 8 = some offset
  strLen : file.readNat (entry + 8) 4 = some key.length
  value : file.readNat (entry + 12) 4 = some id
  str : file.read offset key.length = some key

theorem EntryAt.changes {file next : File} {entry offset first last id : Nat} {key : List Byte}
    (h : EntryAt file entry offset key id) (hChanges : file.Changes next first last)
    (hEntry : entry + 16 ≤ first ∨ last ≤ entry) (hString : offset + key.length ≤ first ∨ last ≤ offset) :
    EntryAt next entry offset key id where
  strOffset := by rw [hChanges.readNat (by omega), h.strOffset]
  strLen := by rw [hChanges.readNat (by omega), h.strLen]
  value := by rw [hChanges.readNat (by omega), h.value]
  str := by rw [hChanges.read _ _ hString, h.str]

theorem writeEntry_spec {file : File} {bits offset id : Nat} {key : List Byte}
    (hBefore : entryOffset bits + id * 16 + 16 ≤ offset) (hLength : offset + key.length + 1 ≤ file.length)
    (hFile : file.length ≤ 2 ^ 64) (hKey : key.length < 2 ^ 31) (hId : id < 2 ^ 31) :
    ∃ middle next, writeEntry bits (file, offset) (key, (id : Int)) = some (next, offset + key.length + 1) ∧
      file.Changes middle (entryOffset bits + id * 16) (entryOffset bits + id * 16 + 16) ∧
      middle.Changes next offset (offset + key.length + 1) ∧
      EntryAt next (entryOffset bits + id * 16) offset key id := by
  generalize hEntry : entryOffset bits + id * 16 = entry at *
  obtain ⟨first, hFirst, hFirstChanges, hOffset⟩ :=
    File.writeNat_spec (by omega : entry + 8 ≤ file.length) (by omega : offset < 256 ^ 8)
  have hFirstLength := hFirstChanges.length
  obtain ⟨second, hSecond, hSecondChanges, hStrLen⟩ :=
    File.writeNat_spec (by omega : entry + 8 + 4 ≤ first.length) (by omega : key.length < 256 ^ 4)
  have hSecondLength := hSecondChanges.length
  obtain ⟨third, hThird, hThirdChanges, hValue⟩ :=
    File.writeNat_spec (by omega : entry + 12 + 4 ≤ second.length) (by omega : id < 256 ^ 4)
  have hThirdLength := hThirdChanges.length
  have hBytes : (key ++ [0]).length = key.length + 1 := by rw [length_append, length_singleton]
  obtain ⟨next, hNext, hNextChanges, hString⟩ := File.write_spec (by omega : offset + (key ++ [0]).length ≤ third.length)
  rw [hBytes, ← Nat.add_assoc] at hNextChanges
  have hKeyRead := File.read_part hString (by omega : 0 + key.length ≤ (key ++ [0]).length)
  rw [Nat.add_zero, drop_zero, take_left'  rfl] at hKeyRead
  refine ⟨third, next, ?_, ?_, hNextChanges, ?_, ?_, ?_, hKeyRead⟩
  · simp only [writeEntry, Int.toNat_natCast, hEntry, hFirst, hSecond, hThird, hNext, Option.bind_eq_bind,
      Option.bind_some]
  · exact ((hFirstChanges.mono (Nat.le_refl _) (by omega)).trans
      (hSecondChanges.mono (by omega) (by omega))).trans (hThirdChanges.mono (by omega) (by omega))
  · rw [hNextChanges.readNat (by omega), hThirdChanges.readNat (by omega), hSecondChanges.readNat (by omega), hOffset]
  · rw [hNextChanges.readNat (by omega), hThirdChanges.readNat (by omega), hStrLen]
  · rw [hNextChanges.readNat (by omega), hValue]

/-- The length of these strings in the file. -/
def stringsLength (keys : List (List Byte)) : Nat := (keys.map fun key => key.length + 1).sum

theorem stringsLength_append (left right : List (List Byte)) :
    stringsLength (left ++ right) = stringsLength left + stringsLength right := by
  rw [stringsLength, map_append, sum_append]
  rfl

theorem stringsLength_singleton (key : List Byte) : stringsLength [key] = key.length + 1 := rfl

theorem stringsLength_take {id : Nat} (h : id < keys.length) :
    stringsLength (keys.take id) + (keys[id].length + 1) ≤ stringsLength keys := by
  have hSplit := take_append_drop (id + 1) keys
  rw [take_add_one, getElem?_eq_getElem h, Option.toList_some] at hSplit
  have hLength := congrArg stringsLength hSplit
  rw [stringsLength_append, stringsLength_append, stringsLength_singleton] at hLength
  omega

/-- All entries, and where their strings are. -/
theorem writeEntries_spec {file : File} {bits start : Nat} (hEntries : entryOffset bits + keys.length * 16 ≤ start)
    (hLength : start + stringsLength keys ≤ file.length) (hFile : file.length ≤ 2 ^ 64)
    (hKeys : ∀ key ∈ keys, key.length < 2 ^ 31) (hCount : keys.length ≤ 2 ^ 31) :
    ∃ next, (numbered keys).foldlM (writeEntry bits) (file, start) = some (next, start + stringsLength keys) ∧
      file.Changes next (entryOffset bits) (start + stringsLength keys) ∧
      ∀ id (h : id < keys.length),
        EntryAt next (entryOffset bits + id * 16) (start + stringsLength (keys.take id)) keys[id] id := by
  induction keys using List.reverseRecOn with
  | nil => exact ⟨file, rfl, File.Changes.refl _ _ _, fun id h => absurd h (Nat.not_lt_zero _)⟩
  | append_singleton keys key ih =>
    rw [length_append, length_singleton] at hEntries hCount
    rw [stringsLength_append, stringsLength_singleton] at hLength
    obtain ⟨before, hBefore, hChanges, hRead⟩ := ih (by omega) (by omega)
      (fun other hOther => hKeys other (mem_append_left _ hOther)) (by omega)
    have hSame := hChanges.length
    obtain ⟨middle, next, hNext, hMiddle, hString, hEntry⟩ :=
      writeEntry_spec (by omega : entryOffset bits + keys.length * 16 + 16 ≤ start + stringsLength keys)
        (by omega : start + stringsLength keys + key.length + 1 ≤ before.length) (by omega)
        (hKeys key (mem_append_right _ (mem_singleton_self key))) (by omega)
    refine ⟨next, ?_, ?_, ?_⟩
    · rw [numbered_append, foldlM_append, hBefore, int32_eq (by omega) (by omega)]
      simp only [Option.bind_eq_bind, Option.bind_some, foldlM_cons, foldlM_nil, bind_pure, hNext]
      rw [stringsLength_append, stringsLength_singleton, Nat.add_assoc, Nat.add_assoc]
    · rw [stringsLength_append, stringsLength_singleton]
      exact ((hChanges.mono (Nat.le_refl _) (by omega)).trans (hMiddle.mono (by omega) (by omega))).trans
        (hString.mono (by omega) (by omega))
    · intro id hId
      rw [length_append, length_singleton] at hId
      by_cases hLast : id = keys.length
      · subst hLast
        rw [take_left' rfl, getElem_append_right (Nat.le_refl _)]
        simpa using hEntry
      · have hOld : id < keys.length := by omega
        have hTake := stringsLength_take hOld
        rw [take_append_of_le_length hOld.le, getElem_append_left hOld]
        exact ((hRead id hOld).changes hMiddle (by omega) (by omega)).changes hString (by omega) (by omega)

end KushDB.Enum
