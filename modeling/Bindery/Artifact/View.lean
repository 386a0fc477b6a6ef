import Bindery.Artifact.Basic
import Bindery.Structural.Declaration

/-!
# Artifacts as records

Artifacts are compared structurally, so that equal output is kept once. All
declared fields count. The type argument of a generic artifact is part of its
concrete type, and an accessor holds its routine as a record of its own.
-/

namespace Bindery

variable {ℓ T S : Type} [Field ℓ String] [Field ℓ (Option String)] [Field ℓ T] [Field ℓ S]

/-! ## Declarations -/

def GeneratedFunction.declared : Declaration :=
  ⟨["name", "declaration", "implementation"], .all⟩

def FieldAccessor.declared : Declaration :=
  ⟨["function", "field", "field_type", "c_declaration"], .all⟩

def TypeDeclaration.declared : Declaration := ⟨["ty", "public_part", "private_part"], .all⟩

def GeneratedParser.declared : Declaration := ⟨["name", "spec", "body"], .all⟩

/-! ## Views -/

instance : Structural ℓ GeneratedFunction where
  typeName := .const "GeneratedFunction"
  view f := GeneratedFunction.declared.record (.const "GeneratedFunction")
    [Field.toField f.name, Field.toField f.declaration, Field.toField f.implementation]

instance : Structural ℓ (FieldAccessor T) where
  typeName := .app (.const "FieldAccessor") (Field.typeName ℓ T)
  view a := FieldAccessor.declared.record (.app (.const "FieldAccessor") (Field.typeName ℓ T))
    [Field.toField a.toGeneratedFunction, Field.toField a.field, Field.toField a.fieldType,
      Field.toField a.cDeclaration]

instance : Structural ℓ (TypeDeclaration T) where
  typeName := .app (.const "TypeDeclaration") (Field.typeName ℓ T)
  view d := TypeDeclaration.declared.record (.app (.const "TypeDeclaration") (Field.typeName ℓ T))
    [Field.toField d.type, Field.toField d.publicPart, Field.toField d.privatePart]

instance : Structural ℓ (GeneratedParser S) where
  typeName := .app (.const "GeneratedParser") (Field.typeName ℓ S)
  view p := GeneratedParser.declared.record (.app (.const "GeneratedParser") (Field.typeName ℓ S))
    [Field.toField p.name, Field.toField p.spec, Field.toField p.body]

end Bindery
