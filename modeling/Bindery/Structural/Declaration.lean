import Bindery.Structural.FieldValue

/-!
# Declared records

A declaration lists the fields of a type once, with their designation. The
record of a declared value lists exactly these names, and holds a value for
each of them, in the order of the declaration.

`Field` gives values their place in records: a concrete type, and the value
as a leaf or as a record. `Structural` is the same for the types that are
records, whose `view` is compared field by field.
-/

namespace Bindery

structure Declaration where
  fields : List String
  designation : Designation
deriving DecidableEq, Repr

/-- Whether a key is one of the declared fields. -/
def declaresField (fields : List String) (key : String) : Bool := fields.contains key

/-- Keys that a designation mentions. -/
def Designation.keys : Designation → List String
  | .all => []
  | .only keys => keys
  | .except keys => keys

/-- Every key of the designation is a declared field. -/
def Declaration.wellFormed (d : Declaration) : Bool :=
  d.designation.keys.all (declaresField d.fields)

/-- The record of a value of a declared type, with the values of its fields
in the order of the declaration. -/
def Declaration.record {φ : Type} (d : Declaration) (type : TypeName) (values : List φ) :
    Record φ :=
  ⟨type, d.fields, d.fields.zip values, d.designation⟩

/-! ## Types of fields -/

/-- Types whose values are fields, over a type of leaves. -/
class Field (ℓ : Type) (α : Type) where
  typeName : TypeName
  toField : α → FieldValue ℓ

/-- Types whose values are compared through a record. -/
class Structural (ℓ : Type) (α : Type) where
  typeName : TypeName
  view : α → Record (FieldValue ℓ)

instance {ℓ α : Type} [Structural ℓ α] : Field ℓ α where
  typeName := Structural.typeName ℓ α
  toField a := .record (Structural.view a)

/-- Structural equality of two values, possibly of different types. -/
def structurallyEqual (ℓ : Type) [BEq ℓ] {α β : Type} [Structural ℓ α] [Structural ℓ β]
    (a : α) (b : β) : Bool :=
  Record.eq (Structural.view (ℓ := ℓ) a) (Structural.view b)

/-! ## Plain leaves -/

/-- Leaves of the types that generated code is made of. -/
inductive Leaf where
  | text (s : String)
  | optText (s : Option String)
  | flag (b : Bool)
  | int (n : Int)
deriving DecidableEq, Repr

instance : Field Leaf String := ⟨.const "String", fun s => .leaf (.text s)⟩

instance : Field Leaf (Option String) :=
  ⟨.app (.const "Option") (.const "String"), fun s => .leaf (.optText s)⟩

instance : Field Leaf Bool := ⟨.const "Bool", fun b => .leaf (.flag b)⟩

instance : Field Leaf Int := ⟨.const "Int", fun n => .leaf (.int n)⟩

end Bindery
