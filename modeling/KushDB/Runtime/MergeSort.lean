import KushDB.Library.WeakOrder
import KushDB.Runtime.Vector

/-! # Sorting a vector

The sort splits the range between two indices in half, sorts the halves in place, and merges copies of them back into
the vector. Of two elements of which neither is less than the other, the one of the right half comes first.
-/

namespace KushDB.Runtime.Vector

open List

variable {E : Type}

/-- The loops of a merge: the rests of the two copies, and where the next element goes. -/
def mergeInto (comp : E → E → Bool) : List E → List E → Nat → List E → List E
  | left :: v1, right :: v2, k, data =>
    if comp left right then mergeInto comp v1 (right :: v2) (k + 1) (data.set k left)
    else mergeInto comp (left :: v1) v2 (k + 1) (data.set k right)
  | left :: v1, [], k, data => mergeInto comp v1 [] (k + 1) (data.set k left)
  | [], right :: v2, k, data => mergeInto comp [] v2 (k + 1) (data.set k right)
  | [], [], _, data => data
termination_by left right => left.length + right.length

def merge (comp : E → E → Bool) (data : List E) (l m r : Int) : List E :=
  let n1 := m - l + 1
  let n2 := r - m
  let v1 := (data.drop l.toNat).take n1.toNat
  let v2 := (data.drop (m + 1).toNat).take n2.toNat
  mergeInto comp v1 v2 l.toNat data

def mergeSort (comp : E → E → Bool) (data : List E) (l r : Int) : List E :=
  if l ≥ r then data
  else
    let m := l + (r - l) / 2
    let data := mergeSort comp data l m
    let data := mergeSort comp data (m + 1) r
    merge comp data l m r
termination_by (r - l).toNat
decreasing_by all_goals omega

def sort (comp : E → E → Bool) (vec : Vector E) : Vector E :=
  { vec with data := mergeSort comp vec.data 0 (vec.size - 1) }

/-! ## Merging -/

variable {comp : E → E → Bool}

theorem set_append_cons (front : List E) (old new : E) (back : List E) :
    (front ++ old :: back).set front.length new = (front ++ [new]) ++ back := by
  rw [set_append_right _ _ (Nat.le_refl _), Nat.sub_self, set_cons_zero, append_assoc,
    singleton_append]

/-- The merge replaces the elements between the front and the back. -/
theorem mergeInto_eq {left right middle : List E} (front back : List E)
    (h : left.length + right.length = middle.length) :
    mergeInto comp left right front.length (front ++ middle ++ back) = front ++ left.merge right comp ++ back := by
  induction middle generalizing left right front with
  | nil =>
    obtain ⟨rfl, rfl⟩ : left = [] ∧ right = [] := by simpa using h
    simp [mergeInto]
  | cons old middle ih =>
    -- one element is written in place of the first, and the rest is as before
    have hStep : ∀ (new : E) (left right : List E), left.length + right.length = middle.length →
        mergeInto comp left right (front.length + 1) ((front ++ old :: middle ++ back).set front.length new) =
          front ++ new :: left.merge right comp ++ back := by
      intro new left right hLength
      have hRest := ih (front ++ [new]) hLength
      rw [length_append, length_singleton] at hRest
      rw [append_assoc, cons_append, set_append_cons, ← append_assoc, hRest]
      simp
    cases left with
    | nil =>
      cases right with
      | nil => simp at h
      | cons first right =>
        rw [mergeInto, hStep first [] right (by simpa using h)]
        simp
    | cons first left =>
      cases right with
      | nil =>
        rw [mergeInto, hStep first left [] (by simpa using h)]
        simp
      | cons second right =>
        simp only [length_cons] at h
        rw [mergeInto, cons_merge_cons]
        split
        case isTrue => exact hStep first left (second :: right) (by rw [length_cons]; omega)
        case isFalse => exact hStep second (first :: left) right (by rw [length_cons]; omega)

/-- Neither of two elements in this order has to be moved. -/
def InOrder (comp : E → E → Bool) (first second : E) : Prop := comp second first = false

variable {valid : E → Prop} {left right : List E}

theorem InOrder.trans (hComp : WeakOrderOn valid comp) {first second third : E} (hFirst : valid first)
    (hSecond : valid second) (hThird : valid third) (h : InOrder comp first second) (hNext : InOrder comp second third) :
    InOrder comp first third :=
  hComp.not_greater_trans hFirst hSecond hThird h hNext

theorem pairwise_merge (hComp : WeakOrderOn valid comp) (hLeft : left.Pairwise (InOrder comp))
    (hRight : right.Pairwise (InOrder comp)) (hLeftValid : ∀ element ∈ left, valid element)
    (hRightValid : ∀ element ∈ right, valid element) : (left.merge right comp).Pairwise (InOrder comp) := by
  induction left generalizing right with
  | nil => simpa using hRight
  | cons first left ihLeft =>
    induction right with
    | nil => simpa using hLeft
    | cons second right ihRight =>
      have hFirst := hLeftValid first mem_cons_self
      have hSecond := hRightValid second mem_cons_self
      rw [cons_merge_cons]
      split
      case isTrue hLess =>
        have hOrder : InOrder comp first second := hComp.asymm hFirst hSecond hLess
        refine pairwise_cons.mpr ⟨fun element hMem => ?_, ?_⟩
        · rcases mem_merge.mp hMem with hOld | hOther
          · exact rel_of_pairwise_cons hLeft hOld
          · rcases mem_cons.mp hOther with rfl | hLater
            · exact hOrder
            · exact hOrder.trans hComp hFirst hSecond (hRightValid element (mem_cons_of_mem _ hLater))
                (rel_of_pairwise_cons hRight hLater)
        · exact ihLeft hLeft.of_cons hRight (fun element h => hLeftValid element (mem_cons_of_mem _ h)) hRightValid
      case isFalse hLess =>
        have hOrder : InOrder comp second first := Bool.eq_false_iff.mpr hLess
        refine pairwise_cons.mpr ⟨fun element hMem => ?_, ?_⟩
        · rcases mem_merge.mp hMem with hOther | hOld
          · rcases mem_cons.mp hOther with rfl | hLater
            · exact hOrder
            · exact hOrder.trans hComp hSecond hFirst (hLeftValid element (mem_cons_of_mem _ hLater))
                (rel_of_pairwise_cons hLeft hLater)
          · exact rel_of_pairwise_cons hRight hOld
        · exact ihRight hRight.of_cons (fun element h => hRightValid element (mem_cons_of_mem _ h))

/-! ## Sorting -/

/-- A permutation, in order wherever the comparison is a strict weak order. -/
structure SortsTo (comp : E → E → Bool) (elements sorted : List E) : Prop where
  perm : sorted.Perm elements
  pairwise : ∀ valid : E → Prop, WeakOrderOn valid comp → (∀ element ∈ elements, valid element) →
    sorted.Pairwise (InOrder comp)

theorem SortsTo.merge {sortedLeft sortedRight : List E} (hLeft : SortsTo comp left sortedLeft)
    (hRight : SortsTo comp right sortedRight) : SortsTo comp (left ++ right) (sortedLeft.merge sortedRight comp) where
  perm := (merge_perm_append comp).trans (hLeft.perm.append hRight.perm)
  pairwise valid hComp hValid := by
    rw [forall_mem_append] at hValid
    apply pairwise_merge hComp (hLeft.pairwise valid hComp hValid.1) (hRight.pairwise valid hComp hValid.2)
    · exact fun element hMem => hValid.1 element (hLeft.perm.mem_iff.mp hMem)
    · exact fun element hMem => hValid.2 element (hRight.perm.mem_iff.mp hMem)

/-- Merging two neighbouring parts of the data. -/
theorem merge_eq (front left right back : List E) :
    merge comp (front ++ left ++ right ++ back) front.length (front.length + left.length - 1)
      (front.length + left.length + right.length - 1) = front ++ left.merge right comp ++ back := by
  have hFirst : ((front.length : Int) + left.length - 1 - front.length + 1).toNat = left.length := by omega
  have hSecond : ((front.length : Int) + left.length + right.length - 1 - (front.length + left.length - 1)).toNat =
      right.length := by omega
  have hMiddle : ((front.length : Int) + left.length - 1 + 1).toNat = (front ++ left).length := by
    rw [length_append]
    omega
  have hLeft : ((front ++ left ++ right ++ back).drop front.length).take left.length = left := by
    rw [append_assoc, append_assoc, drop_left' rfl, take_left' rfl]
  have hRight : ((front ++ left ++ right ++ back).drop (front ++ left).length).take right.length = right := by
    rw [append_assoc, drop_left' rfl, take_left' rfl]
  have hInto := @mergeInto_eq E comp left right (left ++ right) front back length_append.symm
  rw [← append_assoc] at hInto
  rw [merge, hFirst, hSecond, hMiddle, Int.toNat_natCast, hLeft, hRight, hInto]

theorem mergeSort_sortsTo (comp : E → E → Bool) (front middle back : List E) :
    ∃ sorted, mergeSort comp (front ++ middle ++ back) front.length (front.length + middle.length - 1) =
      front ++ sorted ++ back ∧ SortsTo comp middle sorted := by
  induction hTotal : middle.length using Nat.strong_induction_on generalizing front middle back with
  | h total ih =>
    subst hTotal
    rw [mergeSort]
    split
    case isTrue hShort =>
      refine ⟨middle, rfl, List.Perm.refl _, fun _ _ _ => ?_⟩
      match middle, hShort with
      | [], _ => exact List.Pairwise.nil
      | [element], _ => exact pairwise_singleton _ _
      | first :: second :: rest, hShort =>
        simp only [length_cons] at hShort
        omega
    case isFalse hLong =>
      obtain ⟨left, right, rfl, hHalf⟩ : ∃ left right, middle = left ++ right ∧
          left.length = (middle.length - 1) / 2 + 1 := by
        refine ⟨middle.take ((middle.length - 1) / 2 + 1), middle.drop ((middle.length - 1) / 2 + 1),
          (take_append_drop _ _).symm, ?_⟩
        rw [length_take]
        omega
      rw [length_append] at hLong hHalf ih ⊢
      obtain ⟨sortedLeft, hLeft, hSortsLeft⟩ := ih left.length (by omega) front left (right ++ back) rfl
      obtain ⟨sortedRight, hRight, hSortsRight⟩ := ih right.length (by omega) (front ++ sortedLeft) right back rfl
      have hLeftLength := hSortsLeft.perm.length_eq
      have hRightLength := hSortsRight.perm.length_eq
      have hMiddle : (front.length : Int) + ((front.length : Int) + (left.length + right.length : Nat) - 1 - front.length) / 2 =
          front.length + left.length - 1 := by omega
      have hNext : (front.length : Int) + left.length - 1 + 1 = (front ++ sortedLeft).length := by
        rw [length_append, hLeftLength]
        omega
      have hLast : (front.length : Int) + (left.length + right.length : Nat) - 1 =
          (front ++ sortedLeft).length + right.length - 1 := by
        rw [length_append, hLeftLength]
        omega
      refine ⟨sortedLeft.merge sortedRight comp, ?_, hSortsLeft.merge hSortsRight⟩
      have hStart : front ++ (left ++ right) ++ back = front ++ left ++ (right ++ back) := by simp only [append_assoc]
      dsimp only
      rw [hMiddle, hNext, hStart, hLeft, hLast, ← append_assoc, hRight]
      have hMerge := @merge_eq E comp front sortedLeft sortedRight back
      rw [hLeftLength, hRightLength] at hMerge
      rw [length_append, hLeftLength, Int.natCast_add]
      exact hMerge

theorem Holds.sort {vec : Vector E} {stored : List E} (h : vec.Holds stored) (comp : E → E → Bool) :
    ∃ sorted, (vec.sort comp).Holds sorted ∧ SortsTo comp stored sorted := by
  obtain ⟨sorted, hSort, hSorts⟩ := mergeSort_sortsTo comp [] stored []
  have hLength := hSorts.perm.length_eq
  refine ⟨sorted, ⟨?_, ?_, ?_⟩, hSorts⟩
  · rw [Vector.sort, h.data, h.size]
    simpa using hSort
  · rw [hLength]
    exact h.size
  · rw [hLength]
    exact h.capacity

end KushDB.Runtime.Vector
