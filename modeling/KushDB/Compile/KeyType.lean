import Mathlib.Data.List.Basic

/-! # Equality and hashes of key values

Keys are compared with `==` of their type. A double that is not a number is not equal to itself, so equality need not
be reflexive. Nothing is known about the hashes but that equal values have equal ones. NULL is `none`.
-/

namespace KushDB.Compile

structure KeyType (V : Type) where
  eq : V → V → Bool
  hash : V → BitVec 64
  eq_symm : ∀ left right, eq left right = true → eq right left = true
  eq_trans : ∀ left middle right, eq left middle = true → eq middle right = true → eq left right = true
  hash_eq : ∀ left right, eq left right = true → hash left = hash right

namespace KeyType

variable {V : Type} (type : KeyType V)

/-- Two NULL keys are equal. -/
def equal : Option V → Option V → Bool
  | none, none => true
  | some left, some right => type.eq left right
  | _, _ => false

/-- A NULL key is hashed as 0. -/
def hashOf : Option V → BitVec 64
  | none => 0
  | some value => type.hash value

def checkEq : List (Option V) → List (Option V) → Bool
  | [], [] => true
  | left :: lefts, right :: rights => type.equal left right && checkEq lefts rights
  | _, _ => false

variable {left right : Option V} {lefts rights : List (Option V)}

theorem equal_symm (h : type.equal left right = true) : type.equal right left = true := by
  cases left <;> cases right
  · exact h
  · cases h
  · cases h
  · exact type.eq_symm _ _ h

theorem equal_trans {middle : Option V} (hLeft : type.equal left middle = true)
    (hRight : type.equal middle right = true) : type.equal left right = true := by
  cases left <;> cases middle <;> cases right
  any_goals first | exact hRight | cases hLeft | cases hRight
  exact type.eq_trans _ _ _ hLeft hRight

theorem hashOf_eq (h : type.equal left right = true) : type.hashOf left = type.hashOf right := by
  cases left <;> cases right
  · rfl
  · cases h
  · cases h
  · exact type.hash_eq _ _ h

theorem map_hashOf_eq (h : type.checkEq lefts rights = true) : lefts.map type.hashOf = rights.map type.hashOf := by
  induction lefts generalizing rights with
  | nil =>
    cases rights with
    | nil => rfl
    | cons => cases h
  | cons left lefts ih =>
    cases rights with
    | nil => cases h
    | cons right rights =>
      rw [checkEq, Bool.and_eq_true] at h
      rw [List.map_cons, List.map_cons, type.hashOf_eq h.1, ih h.2]

theorem checkEq_symm (h : type.checkEq lefts rights = true) : type.checkEq rights lefts = true := by
  induction lefts generalizing rights with
  | nil =>
    cases rights with
    | nil => rfl
    | cons => cases h
  | cons left lefts ih =>
    cases rights with
    | nil => cases h
    | cons right rights =>
      rw [checkEq, Bool.and_eq_true] at h ⊢
      exact ⟨type.equal_symm h.1, ih h.2⟩

theorem checkEq_trans {middles : List (Option V)} (hLeft : type.checkEq lefts middles = true)
    (hRight : type.checkEq middles rights = true) : type.checkEq lefts rights = true := by
  induction lefts generalizing middles rights with
  | nil =>
    cases middles with
    | nil => exact hRight
    | cons => cases hLeft
  | cons left lefts ih =>
    cases middles with
    | nil => cases hLeft
    | cons middle middles =>
      cases rights with
      | nil => cases hRight
      | cons right rights =>
        rw [checkEq, Bool.and_eq_true] at hLeft hRight ⊢
        exact ⟨type.equal_trans hLeft.1 hRight.1, ih hLeft.2 hRight.2⟩

def mixHash (hash keyHash : BitVec 64) : BitVec 64 :=
  let magic := 0xc6a4a7935bd1e995
  let keyHash := keyHash * magic
  let keyHash := keyHash ^^^ (keyHash >>> 47)
  let keyHash := keyHash * magic
  (hash ^^^ keyHash) * magic + 0xe6546b64

/-- The keys of a group, compared one after the other. -/
def keys : KeyType (List (Option V)) where
  eq := type.checkEq
  hash keys := (keys.map type.hashOf).foldl mixHash 0
  eq_symm _ _ := type.checkEq_symm
  eq_trans _ _ _ := type.checkEq_trans
  hash_eq _ _ h := by rw [type.map_hashOf_eq h]

/-- The key of an index. -/
def single : KeyType V where
  eq := type.eq
  hash key := mixHash 0 (type.hash key)
  eq_symm := type.eq_symm
  eq_trans := type.eq_trans
  hash_eq _ _ h := by rw [type.hash_eq _ _ h]

def number : KeyType Nat where
  eq left right := left = right
  hash := BitVec.ofNat 64
  eq_symm left right h := by simpa using (of_decide_eq_true h).symm
  eq_trans left middle right hLeft hRight := by simpa using (of_decide_eq_true hLeft).trans (of_decide_eq_true hRight)
  hash_eq left right h := congrArg _ (of_decide_eq_true h)

end KeyType

end KushDB.Compile
