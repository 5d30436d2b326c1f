import Mathlib.Order.Lattice
import Mathlib.Logic.Basic
import Mathlib.Order.Defs.LinearOrder

/-! # Comparison functions

A comparison function as a sort needs it, on the elements that satisfy a given property: it is a strict weak order
there. Keys are compared one after the other, each in its own direction, and a missing key is greater than every other.
-/

namespace KushDB

variable {α β : Type}

/-- The comparison is a strict weak order on the elements with the property. -/
structure WeakOrderOn (valid : α → Prop) (less : α → α → Bool) : Prop where
  irrefl : ∀ a, valid a → less a a = false
  trans : ∀ a b c, valid a → valid b → valid c → less a b = true → less b c = true → less a c = true
  between : ∀ a b c, valid a → valid b → valid c → less a c = true → less a b = true ∨ less b c = true

namespace WeakOrderOn

variable {valid : α → Prop} {less : α → α → Bool}
variable {a b : α}

theorem asymm (h : WeakOrderOn valid less) (hA : valid a) (hB : valid b) (hLess : less a b = true) :
    less b a = false := by
  rw [← Bool.not_eq_true]
  intro hBack
  have hSelf := h.trans a b a hA hB hA hLess hBack
  rw [h.irrefl a hA] at hSelf
  exact absurd hSelf (by simp)

/-- Not being greater is transitive. -/
theorem not_greater_trans (h : WeakOrderOn valid less) {c : α} (hA : valid a) (hB : valid b) (hC : valid c)
    (hAB : less b a = false) (hBC : less c b = false) : less c a = false := by
  rw [← Bool.not_eq_true]
  intro hLess
  rcases h.between c b a hC hB hA hLess with hCB | hBA
  · rw [hBC] at hCB
    exact absurd hCB (by simp)
  · rw [hAB] at hBA
    exact absurd hBA (by simp)

theorem of_lt [LinearOrder β] (key : α → β) : WeakOrderOn valid fun a b => decide (key a < key b) where
  irrefl a _ := decide_eq_false (lt_irrefl (key a))
  trans a b c _ _ _ hAB hBC := decide_eq_true (lt_trans (of_decide_eq_true hAB) (of_decide_eq_true hBC))
  between a b c _ _ _ hAC := by
    rcases lt_or_ge (key a) (key b) with hLt | hGe
    · exact Or.inl (decide_eq_true hLt)
    · exact Or.inr (decide_eq_true (lt_of_le_of_lt hGe (of_decide_eq_true hAC)))

theorem of_false : WeakOrderOn valid fun _ _ => false where
  irrefl _ _ := rfl
  trans _ _ _ _ _ _ h := absurd h (by simp)
  between _ _ _ _ _ _ h := absurd h (by simp)

theorem comap (h : WeakOrderOn valid less) (key : β → α) :
    WeakOrderOn (fun b => valid (key b)) fun a b => less (key a) (key b) where
  irrefl a := h.irrefl (key a)
  trans a b c := h.trans (key a) (key b) (key c)
  between a b c := h.between (key a) (key b) (key c)

theorem flip (h : WeakOrderOn valid less) : WeakOrderOn valid fun a b => less b a where
  irrefl := h.irrefl
  trans a b c hA hB hC hBA hCB := h.trans c b a hC hB hA hCB hBA
  between a b c hA hB hC hCA := (h.between c b a hC hB hA hCA).symm

/-- A comparison that agrees on the valid elements. -/
theorem congr (h : WeakOrderOn valid less) {other : α → α → Bool} {narrower : α → Prop}
    (hValid : ∀ a, narrower a → valid a) (hSame : ∀ a b, narrower a → narrower b → other a b = less a b) :
    WeakOrderOn narrower other where
  irrefl a hA := (hSame a a hA hA).trans (h.irrefl a (hValid a hA))
  trans a b c hA hB hC := by
    rw [hSame a b hA hB, hSame b c hB hC, hSame a c hA hC]
    exact h.trans a b c (hValid a hA) (hValid b hB) (hValid c hC)
  between a b c hA hB hC := by
    rw [hSame a b hA hB, hSame b c hB hC, hSame a c hA hC]
    exact h.between a b c (hValid a hA) (hValid b hB) (hValid c hC)

end WeakOrderOn

/-- A missing element is greater than every other. -/
def lessOrMissing (less : α → α → Bool) : Option α → Option α → Bool
  | some a, some b => less a b
  | some _, none => true
  | none, _ => false

theorem WeakOrderOn.orMissing {valid : α → Prop} {less : α → α → Bool} (h : WeakOrderOn valid less) :
    WeakOrderOn (fun v : Option α => ∀ a ∈ v, valid a) (lessOrMissing less) where
  irrefl v hV := by
    cases v with
    | none => rfl
    | some a => exact h.irrefl a (hV a rfl)
  trans u v w hU hV hW hUV hVW := by
    cases u with
    | none => exact absurd hUV (by simp [lessOrMissing])
    | some a =>
      cases v with
      | none => exact absurd hVW (by simp [lessOrMissing])
      | some b =>
        cases w with
        | none => rfl
        | some c => exact h.trans a b c (hU a rfl) (hV b rfl) (hW c rfl) hUV hVW
  between u v w hU hV hW hUW := by
    cases u with
    | none => exact absurd hUW (by simp [lessOrMissing])
    | some a =>
      cases v with
      | none => exact Or.inl rfl
      | some b =>
        cases w with
        | none => exact Or.inr rfl
        | some c => exact h.between a b c (hU a rfl) (hV b rfl) (hW c rfl) hUW

/-- The first comparison decides, and the second where it leaves both ways open. -/
def lessThen (first second : α → α → Bool) (a b : α) : Bool :=
  if first a b then true else if first b a then false else second a b

theorem WeakOrderOn.lessThen {valid : α → Prop} {first second : α → α → Bool} (hFirst : WeakOrderOn valid first)
    (hSecond : WeakOrderOn valid second) : WeakOrderOn valid (lessThen first second) where
  irrefl a hA := by simp [KushDB.lessThen, hFirst.irrefl a hA, hSecond.irrefl a hA]
  trans a b c hA hB hC hAB hBC := by
    have hTrans := hFirst.trans a b c hA hB hC
    have hBack := hFirst.between c b a hC hB hA
    have hLeft := hFirst.between a c b hA hC hB
    have hRight := hFirst.between b a c hB hA hC
    have hNext := hSecond.trans a b c hA hB hC
    simp only [KushDB.lessThen] at hAB hBC ⊢
    grind
  between a b c hA hB hC hAC := by
    have hMiddle := hFirst.between a b c hA hB hC
    have hLeft := hFirst.between b c a hB hC hA
    have hRight := hFirst.between c a b hC hA hB
    have hNext := hSecond.between a b c hA hB hC
    simp only [KushDB.lessThen] at hAC ⊢
    grind

end KushDB
