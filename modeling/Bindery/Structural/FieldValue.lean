import Bindery.Structural.Record

/-!
# Field values

A field holds a leaf or a record of further fields, to any depth. Leaves are
compared by their own `==`, and a type of leaves keeps values of different
concrete types apart. A leaf never equals a record.

Equality of nested records is structural equality again. It descends along
the left side: each field of a left record becomes a test, and the tests are
tried on the fields of the right record (`FieldValue.eqField_record` says
that this is structural equality with `eqField` itself).
-/

namespace Bindery

inductive FieldValue (ℓ : Type) where
  | leaf (value : ℓ)
  | record (r : Record (FieldValue ℓ))

variable {ℓ : Type} [BEq ℓ]

mutual

def FieldValue.eqField : FieldValue ℓ → FieldValue ℓ → Bool
  | .leaf a, .leaf b => a == b
  | .record a, .record b => Record.structEq (fun test value => test value) (recordTests a) b
  | .leaf _, .record _ | .record _, .leaf _ => false

/-- A record with its fields turned into tests. -/
def recordTests : Record (FieldValue ℓ) → Record (FieldValue ℓ → Bool)
  | ⟨type, names, fields, designation⟩ => ⟨type, names, fieldTests fields, designation⟩

def fieldTests : List (String × FieldValue ℓ) → List (String × (FieldValue ℓ → Bool))
  | [] => []
  | entry :: rest => fieldTest entry :: fieldTests rest

def fieldTest : String × FieldValue ℓ → String × (FieldValue ℓ → Bool)
  | (name, value) => (name, value.eqField)

end

/-- Structural equality of records of field values. -/
abbrev Record.eq (a b : Record (FieldValue ℓ)) : Bool :=
  structEq FieldValue.eqField a b

/-! ## Tests are the equality -/

theorem lookup_fieldTests (name : String) (fields : List (String × FieldValue ℓ)) :
    (fieldTests fields).lookup name = (fields.lookup name).map FieldValue.eqField := by
  induction fields with
  | nil => rw [fieldTests]; rfl
  | cons entry rest ih =>
    obtain ⟨n, v⟩ := entry
    rw [fieldTests, fieldTest, List.lookup_cons, List.lookup_cons]
    cases name == n <;> simp [ih]

theorem agreeOn_recordTests (a b : Record (FieldValue ℓ)) (name : String) :
    Record.agreeOn (fun test value => test value) (recordTests a) b name =
      Record.agreeOn FieldValue.eqField a b name := by
  obtain ⟨type, names, fields, designation⟩ := a
  simp only [Record.agreeOn, Record.field?, recordTests, lookup_fieldTests]
  cases fields.lookup name with
  | none => rfl
  | some v => cases b.fields.lookup name <;> rfl

theorem structEq_recordTests (a b : Record (FieldValue ℓ)) :
    Record.structEq (fun test value => test value) (recordTests a) b = a.eq b := by
  have hon : Record.agreeOn (fun test value => test value) (recordTests a) b =
      Record.agreeOn FieldValue.eqField a b := funext (agreeOn_recordTests a b)
  obtain ⟨type, names, fields, designation⟩ := a
  cases designation <;>
    simp only [Record.eq, Record.structEq, Record.agree, recordTests] at hon ⊢ <;> rw [hon]

theorem FieldValue.eqField_record (a b : Record (FieldValue ℓ)) :
    FieldValue.eqField (.record a) (.record b) = a.eq b := by
  rw [FieldValue.eqField, structEq_recordTests]

end Bindery
