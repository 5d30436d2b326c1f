import Mathlib.Algebra.GroupWithZero.Nat
import Mathlib.Logic.Function.Basic
import Mathlib.Logic.Relation

/-! # Union-find

`Find` puts the nodes on its way directly below the root, and `Union` puts one root below another. Whatever was called
before, two nodes have the same root exactly if the pairs that were united connect them.
-/

namespace KushDB.Util

open Function

/-- The fuel bounds the depth of the recursion. -/
def find : Nat → (Nat → Nat) → Nat → Option (Nat × (Nat → Nat))
  | 0, _, _ => none
  | fuel + 1, parent, i =>
    if parent i = i then some (i, parent)
    else (find fuel parent (parent i)).map fun found => (found.1, update found.2 i found.1)

def union (fuel : Nat) (parent : Nat → Nat) (x y : Nat) : Option (Nat → Nat) := do
  let xset ← find fuel parent x
  let yset ← find fuel xset.2 y
  return if xset.1 = yset.1 then yset.2 else update yset.2 xset.1 yset.1

inductive Call
  | find (i : Nat)
  | union (x y : Nat)

def Call.run (fuel : Nat) (parent : Nat → Nat) : Call → Option (Nat → Nat)
  | .find i => (Util.find fuel parent i).map Prod.snd
  | .union x y => Util.union fuel parent x y

/-- The roots after a call. -/
def Call.merge (root : Nat → Nat) : Call → Nat → Nat
  | .find _ => root
  | .union x y => fun i => if root i = root x then root y else root i

/-- The parents lead to the nodes that `root` names, and the rank falls on the way. -/
structure Forest (parent root rank : Nat → Nat) : Prop where
  top : ∀ i, parent (root i) = root i
  rooted : ∀ i, parent i = i → root i = i
  up : ∀ i, parent i ≠ i → root (parent i) = root i ∧ rank (parent i) < rank i

section

variable {parent root rank : Nat → Nat} {fuel : Nat}
variable {i bound : Nat}

section

variable (h : Forest parent root rank)
include h

theorem Forest.compress (hLower : rank (root i) < rank i) : Forest (update parent i (root i)) root rank := by
  obtain ⟨hTop, hRooted, hUp⟩ := h
  constructor <;> grind [update_apply]

/-- The tree that is put below another one has its ranks raised above that one's. -/
theorem Forest.link {x y : Nat} (hApart : root x ≠ root y) :
    Forest (update parent (root x) (root y)) (Call.merge root (.union x y)) fun i =>
      if root i = root x then rank i + rank (root y) + 1 else rank i := by
  obtain ⟨hTop, hRooted, hUp⟩ := h
  have hIdem : ∀ i, root (root i) = root i := fun i => hRooted _ (hTop i)
  constructor <;> grind [update_apply, Call.merge]

theorem Forest.find_spec (hFuel : rank i < fuel) :
    ∃ next, find fuel parent i = some (root i, next) ∧ Forest next root rank ∧ rank (root i) ≤ rank i := by
  induction fuel generalizing i with
  | zero => cases hFuel
  | succ fuel ih =>
    rw [find]
    split
    case isTrue hTop =>
      rw [h.rooted i hTop]
      exact ⟨parent, rfl, h, Nat.le_refl _⟩
    case isFalse hParent =>
      obtain ⟨hSame, hLower⟩ := h.up i hParent
      obtain ⟨next, hFind, hNext, hRank⟩ := @ih (parent i) (by omega)
      rw [hSame] at hFind hRank
      rw [hFind]
      exact ⟨_, rfl, hNext.compress (by omega), by omega⟩

/-- What a call does with fuel for the highest rank. -/
theorem Forest.run (hRank : ∀ i, rank i < bound) (hFuel : bound ≤ fuel) (call : Call) :
    ∃ next rank', call.run fuel parent = some next ∧ Forest next (call.merge root) rank' ∧
      ∀ i, rank' i < bound * 2 := by
  have hEnough : ∀ i, rank i < fuel := fun i => Nat.lt_of_lt_of_le (hRank i) hFuel
  have hDouble : ∀ i, rank i < bound * 2 := fun i => Nat.lt_of_lt_of_le (hRank i) (Nat.le_mul_of_pos_right _ Nat.two_pos)
  cases call with
  | find i =>
    obtain ⟨next, hFind, hNext, -⟩ := h.find_spec (hEnough i)
    exact ⟨next, rank, by rw [Call.run, hFind]; rfl, hNext, hDouble⟩
  | union x y =>
    obtain ⟨middle, hX, hMiddle, -⟩ := h.find_spec (hEnough x)
    obtain ⟨next, hY, hNext, -⟩ := hMiddle.find_spec (hEnough y)
    have hRun : Call.run fuel parent (.union x y) =
        some (if root x = root y then next else update next (root x) (root y)) := by
      simp [Call.run, union, hX, hY]
    rw [hRun]
    split
    case isTrue hSame =>
      have hMerge : Call.merge root (.union x y) = root := by
        funext i
        grind [Call.merge]
      exact ⟨next, rank, rfl, hMerge.symm ▸ hNext, hDouble⟩
    case isFalse hApart =>
      refine ⟨_, _, rfl, hNext.link hApart, fun i => ?_⟩
      have hI := hRank i
      have hRoot := hRank (root y)
      split <;> omega

theorem Forest.runs (hRank : ∀ i, rank i < bound) {calls : List Call} (hFuel : bound * 2 ^ calls.length ≤ fuel) :
    ∃ next rank', calls.foldlM (Call.run fuel) parent = some next ∧ Forest next (calls.foldl Call.merge root) rank' ∧
      ∀ i, rank' i < fuel := by
  induction calls generalizing parent root rank bound with
  | nil => exact ⟨parent, rank, rfl, h, fun i => Nat.lt_of_lt_of_le (hRank i) (by simpa using hFuel)⟩
  | cons call calls ih =>
    rw [List.length_cons, Nat.pow_succ'] at hFuel
    have hOne := Nat.le_mul_of_pos_right bound (Nat.mul_pos Nat.two_pos (Nat.two_pow_pos calls.length))
    obtain ⟨next, rank', hRun, hNext, hRank'⟩ := h.run hRank (Nat.le_trans hOne hFuel) call
    rw [List.foldlM_cons, hRun]
    exact ih hNext hRank' (Nat.mul_assoc bound 2 _ ▸ hFuel)

end

end

/-! ## The roots and the united pairs -/

variable {i j : Nat} {root : Nat → Nat} {calls : List Call}

theorem merge_congr (calls : List Call) (h : root i = root j) :
    calls.foldl Call.merge root i = calls.foldl Call.merge root j := by
  induction calls generalizing root with
  | nil => exact h
  | cons call calls ih =>
    apply ih
    cases call with
    | find _ => exact h
    | union x y => simp only [Call.merge, h]

theorem merge_united {x y : Nat} (h : .union x y ∈ calls) :
    calls.foldl Call.merge root x = calls.foldl Call.merge root y := by
  obtain ⟨before, after, rfl⟩ := List.append_of_mem h
  rw [List.foldl_append, List.foldl_cons]
  apply merge_congr
  simp [Call.merge]

theorem connected_merge {calls done : List Call} {root : Nat → Nat} (h : ∀ call ∈ calls, call ∈ done)
    (hRoot : ∀ i, Relation.EqvGen (fun x y => .union x y ∈ done) i (root i)) (i : Nat) :
    Relation.EqvGen (fun x y => .union x y ∈ done) i (calls.foldl Call.merge root i) := by
  induction calls generalizing root with
  | nil => exact hRoot i
  | cons call calls ih =>
    refine ih (fun other hIn => h other (List.mem_cons_of_mem _ hIn)) fun j => ?_
    cases call with
    | find _ => exact hRoot j
    | union x y =>
      dsimp only [Call.merge]
      split
      case isTrue hSame =>
        have hX := (hSame ▸ hRoot j).trans _ _ _ (hRoot x).symm
        exact hX.trans _ _ _ ((Relation.EqvGen.rel x y (h _ List.mem_cons_self)).trans _ _ _ (hRoot y))
      case isFalse => exact hRoot j

theorem merge_eq_iff :
    calls.foldl Call.merge id i = calls.foldl Call.merge id j ↔
      Relation.EqvGen (fun x y => .union x y ∈ calls) i j := by
  constructor
  · intro hSame
    have hRoot := @connected_merge calls calls id (fun _ h => h) .refl
    exact (hSame ▸ hRoot i).trans _ _ _ (hRoot j).symm
  · intro hConnected
    induction hConnected with
    | rel x y h => exact merge_united h
    | refl => rfl
    | symm _ _ _ ih => exact ih.symm
    | trans _ _ _ _ _ ihFirst ihSecond => exact ihFirst.trans ihSecond

/-- After any calls, two nodes are found below the same root exactly if the united pairs connect them. -/
theorem find_eq_iff_connected (calls : List Call) (more i j : Nat) :
    ∃ parent iset jset next last, calls.foldlM (Call.run (2 ^ calls.length + more)) id = some parent ∧
      find (2 ^ calls.length + more) parent i = some (iset, next) ∧
      find (2 ^ calls.length + more) next j = some (jset, last) ∧
      (iset = jset ↔ Relation.EqvGen (fun x y => .union x y ∈ calls) i j) := by
  have hStart : Forest id id fun _ => 0 := ⟨fun _ => rfl, fun _ _ => rfl, fun _ h => absurd rfl h⟩
  have hFuel : 1 * 2 ^ calls.length ≤ 2 ^ calls.length + more := by omega
  obtain ⟨parent, rank, hRun, hForest, hRank⟩ := hStart.runs (fun _ => Nat.zero_lt_one) hFuel
  obtain ⟨next, hI, hNext, -⟩ := hForest.find_spec (hRank i)
  obtain ⟨last, hJ, -⟩ := hNext.find_spec (hRank j)
  exact ⟨parent, _, _, next, last, hRun, hI, hJ, merge_eq_iff⟩

end KushDB.Util
