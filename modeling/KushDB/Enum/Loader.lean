import KushDB.Execution.SplitPipeline
import KushDB.Library.Bytes

/-! # Loading an enum column

Strings are taken out of their quotes. The dictionary gives every new string the next number, which is stored in 32
bits. The dictionary is an unordered map; the list of its items here is in the order of their insertion.
-/

namespace KushDB.Enum

open KushDB.Bytes KushDB.Execution List

/-! ## Quotes -/

def quotes : Byte := 34

def backslash : Byte := 92

/-- What stands between an opening quote and the closing one. After a backslash the next byte is taken as it is. -/
def unquote : Bool → List Byte → List Byte
  | _, [] => []
  | true, byte :: rest => byte :: unquote false rest
  | false, byte :: rest =>
    if byte = backslash then unquote true rest
    else if byte = quotes then []
    else byte :: unquote false rest

def parseString (s : List Byte) : List Byte :=
  if s = [] then s
  else if 2 ≤ s.length ∧ s.head? = some quotes ∧ s.getLast? = some quotes then unquote false s.tail
  else unquote false (s ++ [quotes])

theorem length_unquote_le (escaped : Bool) (s : List Byte) : (unquote escaped s).length ≤ s.length := by
  induction s generalizing escaped with
  | nil => cases escaped <;> exact Nat.le_refl _
  | cons byte rest ih =>
    have hTrue := ih true
    have hFalse := ih false
    cases escaped with
    | true =>
      rw [unquote, length_cons, length_cons]
      omega
    | false =>
      rw [unquote]
      split
      · rw [length_cons]
        omega
      · split
        · exact Nat.zero_le _
        · rw [length_cons, length_cons]
          omega

/-- A closing quote that is taken as it is makes up for its backslash. -/
theorem length_unquote_append_le (escaped : Bool) (s : List Byte) :
    (unquote escaped (s ++ [quotes])).length ≤ s.length + escaped.toNat := by
  induction s generalizing escaped with
  | nil => cases escaped <;> decide
  | cons byte rest ih =>
    have hTrue := ih true
    have hFalse := ih false
    rw [Bool.toNat_true] at hTrue
    rw [Bool.toNat_false] at hFalse
    rw [cons_append]
    cases escaped with
    | true =>
      rw [unquote, length_cons, length_cons, Bool.toNat_true]
      omega
    | false =>
      rw [unquote, Bool.toNat_false]
      split
      · rw [length_cons]
        omega
      · split
        · exact Nat.zero_le _
        · rw [length_cons, length_cons]
          omega

theorem length_parseString_le (s : List Byte) : (parseString s).length ≤ s.length := by
  rw [parseString]
  split
  · exact Nat.le_refl _
  · split
    · exact (length_unquote_le false _).trans (by rw [length_tail]; omega)
    · exact length_unquote_append_le false s

/-! ## The dictionary -/

/-- The number of a string. -/
def lookup (dictionary : List (List Byte × Int)) (key : List Byte) : Option Int :=
  (dictionary.find? fun item => item.1 = key).map Prod.snd

structure EnumColumn where
  values : List Int
  nulls : List Bool
  dictionary : List (List Byte × Int)
deriving Repr

namespace EnumColumn

def init : EnumColumn := ⟨[], [], []⟩

def appendKey (column : EnumColumn) (parsed : List Byte) : EnumColumn :=
  let dictionary :=
    if (lookup column.dictionary parsed).isNone then
      column.dictionary ++ [(parsed, int32 column.dictionary.length)]
    else column.dictionary
  { column with values := column.values ++ (lookup dictionary parsed).toList, dictionary := dictionary }

def appendNullEnum (column : EnumColumn) (data : List Byte) : EnumColumn :=
  let parsed := parseString data
  let column := { column with nulls := column.nulls ++ [parsed.isEmpty] }
  if parsed.isEmpty then { column with values := column.values ++ [-1] } else column.appendKey parsed

def appendNotNullEnum (column : EnumColumn) (data : List Byte) : EnumColumn := column.appendKey (parseString data)

def load (nullable : Bool) (data : List (List Byte)) : EnumColumn :=
  data.foldl (if nullable then appendNullEnum else appendNotNullEnum) init

end EnumColumn

/-- The strings that get a number: empty ones are NULL in a column that may be. -/
def strings (nullable : Bool) (data : List (List Byte)) : List (List Byte) :=
  (data.map parseString).filter fun parsed => !(nullable && parsed.isEmpty)

/-- Different strings in the order of their first appearance. -/
def keys (nullable : Bool) (data : List (List Byte)) : List (List Byte) := (strings nullable data).eraseDups

/-- The items of a dictionary, with their numbers. -/
def numbered (keys : List (List Byte)) : List (List Byte × Int) := keys.mapIdx fun id key => (key, int32 id)

theorem mem_numbered {keys : List (List Byte)} {item : List Byte × Int} :
    item ∈ numbered keys ↔ ∃ (id : Nat) (h : id < keys.length), item = (keys[id], int32 id) := by
  rw [numbered, mem_mapIdx]
  exact ⟨fun ⟨id, h, hEq⟩ => ⟨id, h, hEq.symm⟩, fun ⟨id, h, hEq⟩ => ⟨id, h, hEq.symm⟩⟩

theorem lookup_numbered_isNone (keys : List (List Byte)) (key : List Byte) :
    (lookup (numbered keys) key).isNone = true ↔ key ∉ keys := by
  rw [lookup, Option.isNone_map, Option.isNone_iff_eq_none, find?_eq_none]
  constructor
  · intro h hMem
    obtain ⟨id, hId, rfl⟩ := getElem_of_mem hMem
    exact h _ (mem_numbered.mpr ⟨id, hId, rfl⟩) (decide_eq_true rfl)
  · intro h item hItem hEq
    obtain ⟨id, hId, rfl⟩ := mem_numbered.mp hItem
    exact h (of_decide_eq_true hEq ▸ getElem_mem hId)

theorem numbered_append (keys : List (List Byte)) (key : List Byte) :
    numbered (keys ++ [key]) = numbered keys ++ [(key, int32 keys.length)] := by
  rw [numbered, mapIdx_append]
  simp [numbered]

theorem length_numbered (keys : List (List Byte)) : (numbered keys).length = keys.length := length_mapIdx

theorem eraseDups_append_singleton (seen : List (List Byte)) (parsed : List Byte) :
    (seen ++ [parsed]).eraseDups = if parsed ∈ seen then seen.eraseDups else seen.eraseDups ++ [parsed] := by
  rw [eraseDups_append, List.removeAll]
  split <;> rename_i h <;> simp [h, eraseDups_cons]

theorem dictionary_appendKey {column : EnumColumn} {seen : List (List Byte)}
    (h : column.dictionary = numbered seen.eraseDups) (parsed : List Byte) :
    (column.appendKey parsed).dictionary = numbered (seen ++ [parsed]).eraseDups := by
  have hNew := lookup_numbered_isNone seen.eraseDups parsed
  rw [mem_eraseDups] at hNew
  simp only [EnumColumn.appendKey, h, hNew, length_numbered]
  rw [eraseDups_append_singleton]
  by_cases hSeen : parsed ∈ seen
  · rw [if_neg (not_not_intro hSeen), if_pos hSeen]
  · rw [if_pos hSeen, if_neg hSeen, numbered_append]

/-- The loader numbers the strings in the order of their first appearance. -/
theorem dictionary_load (nullable : Bool) (data : List (List Byte)) :
    (EnumColumn.load nullable data).dictionary = numbered (keys nullable data) := by
  induction data using List.reverseRecOn with
  | nil => rfl
  | append_singleton data last ih =>
    rw [EnumColumn.load, foldl_append, foldl_cons, foldl_nil, ← EnumColumn.load, keys, strings,
      map_append, filter_append, map_singleton]
    cases nullable with
    | false => exact dictionary_appendKey ih (parseString last)
    | true =>
      rw [if_pos rfl, EnumColumn.appendNullEnum]
      by_cases hEmpty : (parseString last).isEmpty = true
      · simp only [hEmpty, if_true]
        rw [filter_cons_of_neg (by simp [hEmpty]), filter_nil, append_nil]
        exact ih
      · rw [if_neg hEmpty, filter_cons_of_pos (by simp [hEmpty]), filter_nil]
        exact dictionary_appendKey ih (parseString last)

theorem nodup_eraseDups (list : List (List Byte)) : list.eraseDups.Nodup := by
  induction list using List.reverseRecOn with
  | nil => exact nodup_nil
  | append_singleton list last ih =>
    rw [eraseDups_append_singleton]
    split
    · exact ih
    · rename_i hNew
      refine nodup_append.mpr ⟨ih, nodup_singleton _, fun key hKey other hOther hEq => hNew ?_⟩
      rw [← mem_singleton.mp hOther, ← hEq]
      exact mem_eraseDups.mp hKey

theorem eraseDups_of_nodup {list : List (List Byte)} (h : list.Nodup) : list.eraseDups = list := by
  induction list using List.reverseRecOn with
  | nil => rfl
  | append_singleton list last ih =>
    obtain ⟨hList, _, hDisjoint⟩ := nodup_append.mp h
    have hNew : last ∉ list := fun hMem => hDisjoint last hMem last (mem_singleton_self last) rfl
    rw [eraseDups_append_singleton, if_neg hNew, ih hList]

theorem length_of_mem_keys {nullable : Bool} {data : List (List Byte)} {bound : Nat}
    (h : ∀ s ∈ data, s.length < bound) {key : List Byte} (hKey : key ∈ keys nullable data) : key.length < bound := by
  rw [keys, mem_eraseDups, strings] at hKey
  obtain ⟨s, hMem, rfl⟩ := mem_map.mp (mem_filter.mp hKey).1
  exact (length_parseString_le s).trans_lt (h s hMem)

end KushDB.Enum
