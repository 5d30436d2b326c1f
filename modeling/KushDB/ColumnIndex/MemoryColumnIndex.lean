import KushDB.GroupBy.DirectoryInvariant
import KushDB.Library.Grouping
import KushDB.Runtime.Vector

/-! # The column index in memory

The table of the groups is used once more, with a growing bucket of tuple indexes as the state of a key. Room for the
next key is made after a tuple has been inserted. Looking for a key gives the tuples that were inserted for it, as long
as the capacity of the table and those of the buckets can be doubled.
-/

namespace KushDB.ColumnIndex

open KushDB.Execution Compile GroupBy Grouping List
open KushDB.Runtime (Vector)

/-! ## Buckets -/

def bucketInit : Vector Int := Vector.create 4 4

/-- The bucket that holds these tuples. -/
def bucketOf (tuples : List Int) : Vector Int := (bucketInit.pushAll tuples).getD bucketInit

theorem holds_bucketInit : bucketInit.Holds [] := Vector.holds_create 4 ⟨2, by decide, rfl⟩

variable {tuples : List Int}

theorem pushAll_bucketInit (h : tuples.length ≤ 2 ^ 30) :
    bucketInit.pushAll tuples = some (bucketOf tuples) ∧ (bucketOf tuples).Holds tuples := by
  obtain ⟨bucket, hBucket, hHolds⟩ := holds_bucketInit.pushAll tuples h
  have hEq : bucketOf tuples = bucket := by rw [bucketOf, hBucket, Option.getD_some]
  rw [hEq]
  exact ⟨hBucket, hHolds⟩

theorem pushBack_bucketOf (h : tuples.length < 2 ^ 30) (tuple : Int) :
    (bucketOf tuples).pushBack tuple = some (bucketOf (tuples ++ [tuple])) := by
  have hAll := Vector.pushAll_append bucketInit tuples tuple
  rw [(pushAll_bucketInit h.le).1, Option.bind_some] at hAll
  rw [← hAll]
  refine (pushAll_bucketInit ?_).1
  rw [length_append, length_singleton]
  exact h

theorem pushBack_bucketOf_full (h : tuples.length = 2 ^ 30) (tuple : Int) :
    (bucketOf tuples).pushBack tuple = none := by
  obtain ⟨hAll, hHolds⟩ := pushAll_bucketInit h.le
  refine hHolds.pushBack_full h ?_ tuple
  rw [Vector.pushAll_elementSize hAll]
  decide

/-! ## The index -/

structure MemoryColumnIndex (V : Type) where
  type : KeyType V
  payloadSize : Nat
  payloadSize_pos : 0 < payloadSize
  payloadSize_le : payloadSize ≤ blockSize

namespace MemoryColumnIndex

variable {V : Type} (index : MemoryColumnIndex V)

def init : HashDirectory V (Vector Int) :=
  HashDirectory.init index.payloadSize index.payloadSize_pos index.payloadSize_le

/-- The tuple goes to the bucket of its key, or to a new one. -/
def store (ht : HashDirectory V (Vector Int)) (key : V) (tuple : Int) : Option (HashDirectory V (Vector Int)) :=
  (ht.lookup index.type.single key).bind fun found =>
    match found with
    | .empty idx =>
      (bucketInit.pushBack tuple).map fun bucket => ht.insert idx ⟨index.type.single.hash key, key, bucket⟩
    | .payload blockIdx blockOffset =>
      (ht.blocks.getPayload blockIdx blockOffset).bind fun payload =>
        (payload.state.pushBack tuple).map fun bucket =>
          ht.setPayload blockIdx blockOffset { payload with state := bucket }

def insert (ht : HashDirectory V (Vector Int)) (call : V × Int) : Option (HashDirectory V (Vector Int)) :=
  (index.store ht call.1 call.2).bind HashDirectory.ensureEmptySlot

def insertAll (calls : List (V × Int)) : Option (HashDirectory V (Vector Int)) :=
  calls.foldlM index.insert index.init

/-- A bucket without data, one that does not exist, is `none`. -/
def getBucket (ht : HashDirectory V (Vector Int)) (key : V) : Option (Option (Vector Int)) :=
  (ht.lookup index.type.single key).bind fun found =>
    match found with
    | .empty _ => some none
    | .payload blockIdx blockOffset =>
      (ht.blocks.getPayload blockIdx blockOffset).map fun payload => some payload.state

/-! ## The map from keys to tuples -/

/-- The tuples inserted for a key, in their order. -/
def tuplesOf (calls : List (V × Int)) (key : V) : List Int :=
  (calls.filter fun call => index.type.eq call.1 key).map Prod.snd

/-- Keys that were never inserted are not in the map. -/
def mapOf (calls : List (V × Int)) (key : V) : Option (List Int) :=
  if index.tuplesOf calls key = [] then none else some (index.tuplesOf calls key)

/-- All calls return, and every bucket found afterwards is that of the map. -/
def RefinesMap (calls : List (V × Int)) : Prop :=
  ∃ ht, index.insertAll calls = some ht ∧
    ∀ key, (index.getBucket ht key).map (Option.map Vector.elements) = some (index.mapOf calls key)

/-! ## One list for each key -/

def newPayload (call : V × Int) : Payload V (List Int) := ⟨index.type.single.hash call.1, call.1, [call.2]⟩

def addTuple (payload : Payload V (List Int)) (call : V × Int) : Payload V (List Int) :=
  { payload with state := payload.state ++ [call.2] }

def belongs (payload : Payload V (List Int)) (call : V × Int) : Bool := index.type.eq payload.key call.1

def groups (calls : List (V × Int)) : List (Payload V (List Int)) :=
  groupsOf index.belongs index.newPayload addTuple calls

theorem foldl_addTuple (payload : Payload V (List Int)) (calls : List (V × Int)) :
    calls.foldl addTuple payload = { payload with state := payload.state ++ calls.map Prod.snd } := by
  induction calls generalizing payload with
  | nil => rw [foldl_nil, map_nil, append_nil]
  | cons call calls ih => rw [foldl_cons, ih, addTuple, append_assoc, map_cons, singleton_append]

variable {index} {calls : List (V × Int)}

theorem groups_append (calls : List (V × Int)) (call : V × Int) :
    index.groups (calls ++ [call]) = upsert index.belongs index.newPayload addTuple call (index.groups calls) := by
  have hSame : ∀ (payload : Payload V (List Int)) (call other : V × Int),
      index.belongs (addTuple payload call) other = index.belongs payload other := fun _ _ _ => rfl
  exact groupsOf_append hSame calls call

theorem tuplesOf_append (calls : List (V × Int)) (call : V × Int) (key : V) :
    index.tuplesOf (calls ++ [call]) key =
      index.tuplesOf calls key ++ if index.type.eq call.1 key then [call.2] else [] := by
  rw [tuplesOf, filter_append, map_append]
  refine congrArg _ ?_
  cases hEq : index.type.eq call.1 key <;> simp [hEq]

theorem tuplesOf_congr {left right : V} (h : index.type.eq left right = true) (calls : List (V × Int)) :
    index.tuplesOf calls left = index.tuplesOf calls right := by
  rw [tuplesOf, tuplesOf]
  refine congrArg _ (filter_congr fun call _ => Bool.eq_iff_iff.mpr ⟨fun hLeft => ?_, fun hRight => ?_⟩)
  · exact index.type.eq_trans _ _ _ hLeft h
  · exact index.type.eq_trans _ _ _ hRight (index.type.eq_symm _ _ h)

variable {key : V}

/-- A key that is not equal to itself has no tuples. -/
theorem tuplesOf_of_ne (h : index.type.eq key key = false) (calls : List (V × Int)) :
    index.tuplesOf calls key = [] := by
  rw [tuplesOf, map_eq_nil_iff, filter_eq_nil_iff]
  intro call _ hKey
  rw [index.type.eq_trans _ _ _ (index.type.eq_symm _ _ hKey) hKey] at h
  cases h

theorem belongs_symm (left right : V × Int) (h : index.belongs (index.newPayload left) right = true) :
    index.belongs (index.newPayload right) left = true :=
  index.type.eq_symm _ _ h

theorem belongs_trans (left middle right : V × Int) (hLeft : index.belongs (index.newPayload left) middle = true)
    (hRight : index.belongs (index.newPayload middle) right = true) :
    index.belongs (index.newPayload left) right = true :=
  index.type.eq_trans _ _ _ hLeft hRight

variable {payload : Payload V (List Int)}

/-- The state of a payload is the list of its key. -/
theorem state_eq (h : payload ∈ index.groups calls) (hKey : index.type.eq payload.key key = true) :
    payload.state = index.tuplesOf calls key := by
  obtain ⟨first, _, later, rfl, hFilter⟩ := mem_groupsOf belongs_symm belongs_trans h
  rw [foldl_addTuple] at hKey ⊢
  have hSelf : index.type.eq first.1 first.1 = true :=
    index.type.eq_trans _ _ _ hKey (index.type.eq_symm _ _ hKey)
  rw [← tuplesOf_congr hKey, tuplesOf]
  have hClass : (calls.filter fun call => index.type.eq call.1 first.1) =
      calls.filter (index.belongs (index.newPayload first)) :=
    filter_congr fun call _ => Bool.eq_iff_iff.mpr ⟨index.type.eq_symm _ _, index.type.eq_symm _ _⟩
  exact (congrArg (List.map Prod.snd) (hClass.trans (hFilter hSelf))).symm

theorem state_ne_nil (h : payload ∈ index.groups calls) : payload.state ≠ [] := by
  obtain ⟨first, _, later, rfl, _⟩ := mem_groupsOf belongs_symm belongs_trans h
  rw [foldl_addTuple]
  exact cons_ne_nil _ _

/-- A key of no payload was never inserted. -/
theorem tuplesOf_eq_nil (h : ∀ payload ∈ index.groups calls, index.type.eq payload.key key = false) :
    index.tuplesOf calls key = [] := by
  rw [tuplesOf, map_eq_nil_iff, filter_eq_nil_iff]
  intro call hCall hKey
  have hGroup : ∃ (first : V × Int) (later : List (V × Int)), later.foldl addTuple (index.newPayload first) ∈
      index.groups calls ∧ (call = first ∨ index.type.eq first.1 call.1 = true) := exists_mem_groupsOf hCall
  obtain ⟨first, later, hMem, hFirst⟩ := hGroup
  have hNone : index.type.eq first.1 key = false := by
    have hPayload := h _ hMem
    rwa [foldl_addTuple] at hPayload
  have hSome : index.type.eq first.1 key = true := by
    rcases hFirst with rfl | hSame
    · exact hKey
    · exact index.type.eq_trans _ _ _ hSame hKey
  rw [hNone] at hSome
  cases hSome

end MemoryColumnIndex

end KushDB.ColumnIndex
