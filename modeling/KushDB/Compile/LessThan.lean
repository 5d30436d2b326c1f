import KushDB.Compile.ExpressionTranslator
import KushDB.Library.WeakOrder
import Mathlib.Data.Char
import Mathlib.Data.List.Lex

/-! # The order of SQL values

Sorting and the aggregates MIN and MAX compare values of one type with the same instructions. An enum is compared by
its key, and NULL is greater than every value. Doubles are ordered as long as they are not NaN.
-/

namespace KushDB.Plan

variable {F : Type}

/-- The types for which `LessThan` generates code; it throws on the others. -/
def orderable (type : SqlType) : Except String Unit :=
  if type = .boolean then .error "Can't be less than." else .ok ()

section

variable (f64 : Float64 F) (enums : EnumManager)

def lessThanValue : Value F → Value F → Bool
  | .smallInt left, .smallInt right | .int left, .int right | .bigInt left, .bigInt right
  | .date left, .date right => decide (left < right)
  | .real left, .real right => f64.compare left right = some .lt
  | .text left, .text right => decide (left < right)
  | .enum leftId left, .enum rightId right => decide (enums.getKey leftId left < enums.getKey rightId right)
  | _, _ => false

def lessThan : Option (Value F) → Option (Value F) → Bool := lessOrMissing (lessThanValue f64 enums)

end

/-- Doubles are compared as in IEEE 754: those that are not NaN are ordered. -/
structure Float64.Ordered (f64 : Float64 F) : Prop where
  irrefl : ∀ x, f64.compare x x ≠ some .lt
  trans : ∀ x y z, f64.compare x y = some .lt → f64.compare y z = some .lt → f64.compare x z = some .lt
  between : ∀ x y z, f64.compare y y ≠ none → f64.compare x z = some .lt →
    f64.compare x y = some .lt ∨ f64.compare y z = some .lt

/-- What IEEE 754 says about the order of the doubles, the NaN included. -/
structure Float64.Ieee (f64 : Float64 F) : Prop extends f64.Ordered where
  nan : ∃ x, ∀ y, f64.compare x y ≠ some .lt ∧ f64.compare y x ≠ some .lt
  lt : ∃ x y, f64.compare x y = some .lt

/-- The value is not a NaN. -/
def Value.IsOrdered (f64 : Float64 F) : Value F → Prop
  | .real value => f64.compare value value ≠ none
  | _ => True

/-- What an integer or a date is compared by. -/
def Value.number : Value F → Int
  | .smallInt value | .int value | .bigInt value | .date value => value
  | _ => 0

/-- What a text or an enum is compared by. -/
def Value.key (enums : EnumManager) : Value F → List Char
  | .text value => value
  | .enum id value => enums.getKey id value
  | _ => []

variable {f64 : Float64 F} {enums : EnumManager}
variable {a b : Value F} {type : SqlType}

theorem lessThanValue_number (hType : type ∈ [.smallInt, .int, .bigInt, .date]) (hA : a.type = type)
    (hB : b.type = type) : lessThanValue f64 enums a b = decide (a.number < b.number) := by
  subst hA
  cases a <;> simp only [Value.type, List.mem_cons, List.not_mem_nil, reduceCtorEq, or_false, or_self] at hType <;>
    cases b <;> first | rfl | exact absurd hB (by simp [Value.type])

theorem lessThanValue_key (hType : type = .text ∨ ∃ id, type = .enum id) (hA : a.type = type) (hB : b.type = type) :
    lessThanValue f64 enums a b = decide (a.key enums < b.key enums) := by
  subst hA
  cases a <;> simp only [Value.type, reduceCtorEq, exists_false, or_self] at hType <;>
    cases b <;> first | rfl | exact absurd hB (by simp [Value.type])

theorem weakOrderOn_real (hOrdered : f64.Ordered) :
    WeakOrderOn (fun x : F => f64.compare x x ≠ none) fun x y => decide (f64.compare x y = some .lt) where
  irrefl x _ := decide_eq_false (hOrdered.irrefl x)
  trans x y z _ _ _ hXY hYZ := decide_eq_true (hOrdered.trans x y z (of_decide_eq_true hXY) (of_decide_eq_true hYZ))
  between x y z _ hY _ hXZ :=
    (hOrdered.between x y z hY (of_decide_eq_true hXZ)).imp (fun h => decide_eq_true h) fun h => decide_eq_true h

theorem value_of_real {value : Value F} (h : value.type = .real) : ∃ x, value = .real x := by
  cases value <;> first | exact ⟨_, rfl⟩ | cases h

/-- Values of one type are ordered, apart from NaN. -/
theorem weakOrderOn_lessThanValue (hOrdered : f64.Ordered) (type : SqlType) :
    WeakOrderOn (fun v : Value F => v.type = type ∧ v.IsOrdered f64) (lessThanValue f64 enums) := by
  cases type with
  | smallInt | int | bigInt | date =>
    exact (WeakOrderOn.of_lt Value.number).congr (fun _ h => h)
      fun a b hA hB => lessThanValue_number (by decide) hA.1 hB.1
  | text =>
    exact (WeakOrderOn.of_lt (Value.key enums)).congr (fun _ h => h)
      fun a b hA hB => (lessThanValue_key (Or.inl rfl) hA.1 hB.1).trans (by congr)
  | enum id =>
    exact (WeakOrderOn.of_lt (Value.key enums)).congr (fun _ h => h)
      fun a b hA hB => (lessThanValue_key (Or.inr ⟨id, rfl⟩) hA.1 hB.1).trans (by congr)
  | boolean =>
    refine WeakOrderOn.of_false.congr (fun _ h => h) fun a b hA hB => ?_
    cases a <;> first | rfl | exact absurd hA.1 (by simp [Value.type])
  | real =>
    have hReal := weakOrderOn_real hOrdered
    refine ⟨?_, ?_, ?_⟩
    · rintro a ⟨hType, hX⟩
      obtain ⟨x, rfl⟩ := value_of_real hType
      exact hReal.irrefl x hX
    · rintro a b c ⟨hTypeA, hA⟩ ⟨hTypeB, hB⟩ ⟨hTypeC, hC⟩
      obtain ⟨x, rfl⟩ := value_of_real hTypeA
      obtain ⟨y, rfl⟩ := value_of_real hTypeB
      obtain ⟨z, rfl⟩ := value_of_real hTypeC
      exact hReal.trans x y z hA hB hC
    · rintro a b c ⟨hTypeA, hA⟩ ⟨hTypeB, hB⟩ ⟨hTypeC, hC⟩
      obtain ⟨x, rfl⟩ := value_of_real hTypeA
      obtain ⟨y, rfl⟩ := value_of_real hTypeB
      obtain ⟨z, rfl⟩ := value_of_real hTypeC
      exact hReal.between x y z hA hB hC

/-- With NULL as the greatest. -/
theorem weakOrderOn_lessThan (hOrdered : f64.Ordered) (type : SqlType) :
    WeakOrderOn (fun v : Option (Value F) => ∀ value ∈ v, value.type = type ∧ value.IsOrdered f64)
      (lessThan f64 enums) :=
  (weakOrderOn_lessThanValue hOrdered type).orMissing

theorem exactFloat64_ordered : exactFloat64.Ordered where
  irrefl x := by simp [exactFloat64]
  trans x y z hXY hYZ := by
    simp only [exactFloat64, Option.some.injEq, compare_lt_iff_lt] at hXY hYZ ⊢
    exact hXY.trans hYZ
  between x y z _ hXZ := by
    simp only [exactFloat64, Option.some.injEq, compare_lt_iff_lt] at hXZ ⊢
    rcases lt_or_ge x y with hLt | hGe
    · exact Or.inl hLt
    · exact Or.inr (hGe.trans_lt hXZ)

theorem isOrdered_exactFloat64 (v : Value Rat) : v.IsOrdered exactFloat64 := by
  cases v <;> simp [Value.IsOrdered, exactFloat64]

end KushDB.Plan
