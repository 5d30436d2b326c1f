import Mathlib.Data.List.Forall2

/-! # Structs of SQL values

A field of a struct has a flag for NULL only if it was added as nullable. A NULL that is stored into a field without a
flag leaves whatever the generated code carried along with it.
-/

namespace KushDB.Compile

structure StructField (V : Type) where
  nullable : Bool
  value : V
  null : Bool := false
deriving DecidableEq, Repr

variable {V : Type}

namespace StructField

def get (field : StructField V) : Option V :=
  if field.nullable && field.null then none else some field.value

/-- `placeholder` is what a NULL carries along. -/
def update (placeholder : V) (field : StructField V) (v : Option V) : StructField V :=
  if field.nullable then
    match v with
    | none => { field with null := true }
    | some value => { field with null := false, value := value }
  else { field with value := v.getD placeholder }

@[simp]
theorem update_nullable (placeholder : V) (field : StructField V) (v : Option V) :
    (field.update placeholder v).nullable = field.nullable := by
  unfold update
  split
  · cases v <;> rfl
  · rfl

@[simp]
theorem get_update_some (placeholder : V) (field : StructField V) (value : V) :
    (field.update placeholder (some value)).get = some value := by
  cases hNullable : field.nullable <;> simp [update, get, hNullable]

variable {field : StructField V}

theorem get_update_none (placeholder : V) (hNullable : field.nullable = true) :
    (field.update placeholder none).get = none := by
  simp [update, get, hNullable]

/-- A field keeps what is stored, unless it is a NULL and the field has no flag. -/
theorem get_update (placeholder : V) {v : Option V} (h : field.nullable = false → v ≠ none) :
    (field.update placeholder v).get = v := by
  cases v with
  | some value => exact get_update_some placeholder field value
  | none =>
    apply get_update_none
    rw [← Bool.not_eq_false]
    exact fun hFlag => h hFlag rfl

end StructField

namespace Struct

def pack (placeholder : V) (fields : List (StructField V)) (values : List (Option V)) :
    Except String (List (StructField V)) :=
  if values.length ≠ fields.length then .error "Must pack exactly number of values as fields in struct."
  else .ok (List.zipWith (StructField.update placeholder) fields values)

def unpack (fields : List (StructField V)) : List (Option V) := fields.map StructField.get

theorem map_get_zipWith_update (placeholder : V) {fields : List (StructField V)} {values : List (Option V)}
    (h : List.Forall₂ (fun field v => field.nullable = false → v ≠ none) fields values) :
    (List.zipWith (StructField.update placeholder) fields values).map StructField.get = values := by
  induction h with
  | nil => rfl
  | cons hHead _ ih => rw [List.zipWith_cons_cons, List.map_cons, ih, StructField.get_update placeholder hHead]

end Struct

end KushDB.Compile
