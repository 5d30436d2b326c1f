import Mathlib.Logic.Relation
import KushDB.Library.While

/-! # Two fingers on a tree

A tree is given by the parent of each vertex and by labels that rise on the way to the root. Two fingers move up, always
the one with the lower label, until they meet: in the lowest vertex above both.
-/

namespace KushDB.Fingers

open KushDB.While Relation

variable {α : Type}

def climb (parent : α → Option α) (label : α → Int) (rounds : Nat) (target finger : α) : Option α :=
  whileLoop (fun finger => decide (label finger < label target)) parent rounds finger

def intersect [DecidableEq α] (parent : α → Option α) (label : α → Int) (rounds : Nat) (finger1 finger2 : α) :
    Option α :=
  (whileLoop (fun fingers => decide (fingers.1 ≠ fingers.2))
    (fun fingers => do
      let finger1 ← climb parent label rounds fingers.2 fingers.1
      let finger2 ← climb parent label rounds finger1 fingers.2
      some (finger1, finger2))
    rounds (finger1, finger2)).map Prod.fst

def Up (parent : α → Option α) (root v u : α) : Prop := v ≠ root ∧ parent v = some u

abbrev Ancestor (parent : α → Option α) (root : α) : α → α → Prop := ReflTransGen (Up parent root)

/-- The known vertices are a tree, and the labels tell them apart. -/
structure Rooted (parent : α → Option α) (label : α → Int) (root : α) (known : α → Prop) : Prop where
  root_known : known root
  up : ∀ v, known v → v ≠ root → ∃ u, parent v = some u ∧ known u ∧ label v < label u
  label_inj : ∀ v w, known v → known w → label v = label w → v = w
  label_nonneg : ∀ v, known v → 0 ≤ label v
  label_le : ∀ v, known v → label v ≤ label root

variable {parent : α → Option α} {label : α → Int} {root : α} {known : α → Prop}
variable {u v w : α}

theorem Up.unique (hFirst : Up parent root v u) (hSecond : Up parent root v w) : u = w :=
  Option.some.inj (hFirst.2.symm.trans hSecond.2)

theorem Ancestor.of_up (hUp : Up parent root v u) (h : Ancestor parent root v w) (hNe : w ≠ v) :
    Ancestor parent root u w := by
  rcases h.cases_head with rfl | ⟨next, hNext, hRest⟩
  · exact absurd rfl hNe
  · exact hUp.unique hNext ▸ hRest

theorem Ancestor.of_root (h : Ancestor parent root root w) : w = root := by
  rcases h.cases_head with rfl | ⟨next, hNext, -⟩
  · rfl
  · exact absurd rfl hNext.1

section

variable (h : Rooted parent label root known)
include h

theorem Rooted.up_known (hUp : Up parent root v u) (hKnown : known v) : known u ∧ label v < label u := by
  obtain ⟨other, hParent, hOther, hLess⟩ := h.up v hKnown hUp.1
  exact hUp.unique ⟨hUp.1, hParent⟩ ▸ ⟨hOther, hLess⟩

theorem Rooted.ancestor_known (hAncestor : Ancestor parent root v w) (hKnown : known v) :
    known w ∧ label v ≤ label w := by
  induction hAncestor with
  | refl => exact ⟨hKnown, Int.le_refl _⟩
  | tail _ hUp ih =>
    obtain ⟨hNext, hLess⟩ := h.up_known hUp ih.1
    exact ⟨hNext, Int.le_trans ih.2 (Int.le_of_lt hLess)⟩

theorem Rooted.ancestor_lt (hAncestor : Ancestor parent root v w) (hKnown : known v) (hNe : w ≠ v) :
    label v < label w := by
  obtain ⟨hOther, hLe⟩ := h.ancestor_known hAncestor hKnown
  have hDiffer : label v ≠ label w := fun hEq => hNe (h.label_inj v w hKnown hOther hEq).symm
  omega

theorem Rooted.ancestor_antisymm (hKnown : known v) (hFirst : Ancestor parent root v w)
    (hSecond : Ancestor parent root w v) : v = w := by
  obtain ⟨hOther, hLe⟩ := h.ancestor_known hFirst hKnown
  exact h.label_inj v w hKnown hOther (Int.le_antisymm hLe (h.ancestor_known hSecond hOther).2)

end

/-- Two trees that differ in the parent of one vertex have the same ancestors up to this vertex. -/
theorem Ancestor.of_agree {other : α → Option α} {b : α} (hAgree : ∀ u, u ≠ b → parent u = other u)
    (h : Ancestor parent root v w) :
    Ancestor other root v w ∨
      Ancestor parent root v b ∧ Ancestor other root v b ∧ Ancestor parent root b w ∧ w ≠ b := by
  induction h using ReflTransGen.head_induction_on with
  | refl => exact .inl .refl
  | @head v u hUp hRest ih =>
    by_cases hHere : v = b
    · subst hHere
      by_cases hEnd : w = v
      · exact .inl (hEnd ▸ .refl)
      · exact .inr ⟨.refl, .refl, hRest.head hUp, hEnd⟩
    · have hOther : Up other root v u := ⟨hUp.1, (hAgree v hHere).symm.trans hUp.2⟩
      rcases ih with hSame | ⟨hFirst, hSecond, hBehind⟩
      · exact .inl (hSame.head hOther)
      · exact .inr ⟨hFirst.head hUp, hSecond.head hOther, hBehind⟩

variable {rounds : Nat}

/-- The finger stops at the first ancestor whose label is not below that of the target. -/
theorem Rooted.climb_spec (h : Rooted parent label root known) {target finger : α} (hTarget : known target)
    (hFinger : known finger) (hRounds : (label root).toNat < rounds) :
    ∃ u, climb parent label rounds target finger = some u ∧ known u ∧ Ancestor parent root finger u ∧
      label target ≤ label u ∧
      ∀ w, Ancestor parent root finger w → label target ≤ label w → Ancestor parent root u w := by
  apply whileLoop_rule
    (fun u => known u ∧ Ancestor parent root finger u ∧
      ∀ w, Ancestor parent root finger w → label target ≤ label w → Ancestor parent root u w)
    (fun u => (label root - label u).toNat)
  · rintro u ⟨hKnown, hAncestor, hAbove⟩ hTest
    have hLess : label u < label target := of_decide_eq_true hTest
    have hTop := h.label_le target hTarget
    have hNe : u ≠ root := by
      rintro rfl
      omega
    obtain ⟨next, hParent, hNext, hRise⟩ := h.up u hKnown hNe
    have hBound := h.label_le next hNext
    refine ⟨next, hParent, ⟨hNext, hAncestor.tail ⟨hNe, hParent⟩, fun w hw hLabel => ?_⟩, by omega⟩
    apply (hAbove w hw hLabel).of_up ⟨hNe, hParent⟩
    rintro rfl
    omega
  · rintro u ⟨hKnown, hAncestor, hAbove⟩ hTest
    exact ⟨hKnown, hAncestor, Int.not_lt.mp (of_decide_eq_false hTest), hAbove⟩
  · exact ⟨hFinger, .refl, fun w hw _ => hw⟩
  · have hNonneg := h.label_nonneg finger hFinger
    omega

variable [DecidableEq α]

/-- The fingers meet in a common ancestor that has all others above it. -/
theorem Rooted.intersect_spec (h : Rooted parent label root known) {finger1 finger2 : α} (hFirst : known finger1)
    (hSecond : known finger2) (hRounds : 2 * (label root).toNat < rounds) :
    ∃ u, intersect parent label rounds finger1 finger2 = some u ∧ known u ∧
      ∀ w, Ancestor parent root u w ↔ Ancestor parent root finger1 w ∧ Ancestor parent root finger2 w := by
  have hLoop := @whileLoop_rule (α × α) (fun fingers => decide (fingers.1 ≠ fingers.2))
    (fun fingers => do
      let finger1 ← climb parent label rounds fingers.2 fingers.1
      let finger2 ← climb parent label rounds finger1 fingers.2
      some (finger1, finger2))
    (fun fingers => known fingers.1 ∧ ∀ w, Ancestor parent root fingers.1 w ↔
      Ancestor parent root finger1 w ∧ Ancestor parent root finger2 w)
    rounds (finger1, finger2)
    (fun fingers => known fingers.1 ∧ known fingers.2 ∧
      ∀ w, Ancestor parent root fingers.1 w ∧ Ancestor parent root fingers.2 w ↔
        Ancestor parent root finger1 w ∧ Ancestor parent root finger2 w)
    (fun fingers => (label root - label fingers.1).toNat + (label root - label fingers.2).toNat)
  have hEnough : (label root).toNat < rounds := by omega
  obtain ⟨⟨u, v⟩, hEnd, hKnown, hCommon⟩ := hLoop
    (by
      rintro ⟨u, v⟩ ⟨hU, hV, hCommon⟩ hTest
      have hNe : u ≠ v := of_decide_eq_true hTest
      dsimp only at hU hV hCommon ⊢
      obtain ⟨u', hClimb, hU', hUp, hAbove, hKeepU⟩ := h.climb_spec hV hU hEnough
      obtain ⟨v', hClimb', hV', hUp', hAbove', hKeepV⟩ := h.climb_spec hU' hV hEnough
      refine ⟨(u', v'), by rw [hClimb, Option.bind_eq_bind, Option.bind_some, hClimb']; rfl, ⟨hU', hV', ?_⟩, ?_⟩
      · intro w
        rw [← hCommon]
        constructor
        · exact fun hw => ⟨hUp.trans hw.1, hUp'.trans hw.2⟩
        · rintro ⟨hw, hw'⟩
          have hLeft := hKeepU w hw (h.ancestor_known hw' hV).2
          exact ⟨hLeft, hKeepV w hw' (h.ancestor_known hLeft hU').2⟩
      · have hDiffer : label u ≠ label v := fun hEq => hNe (h.label_inj u v hU hV hEq)
        have hRiseU := (h.ancestor_known hUp hU).2
        have hRiseV := (h.ancestor_known hUp' hV).2
        have hTopU := h.label_le u' hU'
        have hTopV := h.label_le v' hV'
        dsimp only
        omega)
    (by
      rintro ⟨u, v⟩ ⟨hU, hV, hCommon⟩ hTest
      obtain rfl : u = v := by simpa using hTest
      exact ⟨hU, fun w => (and_self_iff).symm.trans (hCommon w)⟩)
    ⟨hFirst, hSecond, fun w => Iff.rfl⟩
    (by
      have hNonnegFirst := h.label_nonneg finger1 hFirst
      have hNonnegSecond := h.label_nonneg finger2 hSecond
      dsimp only
      omega)
  exact ⟨u, by rw [intersect, hEnd]; rfl, hKnown, hCommon⟩

end KushDB.Fingers
