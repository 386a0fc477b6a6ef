import Bindery.Render

/-!
# Artifacts of code generation

The pieces of source text that a generator produces: routines, accessors of
structure fields, type declarations and parsers. They are plain values. A
generated routine has a name, and its type says so; a parser may go without.
-/

namespace Bindery

inductive ArtifactError where
  | emptyName
deriving DecidableEq, Repr

def ArtifactError.message : ArtifactError → String
  | .emptyName => "generated function name must not be empty"

/-! ## Routines -/

/-- Declaration and implementation text of one routine. -/
structure GeneratedFunction where
  name : String
  /-- None for a routine without a public declaration. -/
  declaration : Option String
  implementation : Option String
  name_ne : name ≠ ""
deriving DecidableEq

/-- A routine, if its name is not empty. -/
def GeneratedFunction.make (name : String) (declaration implementation : Option String) :
    Except ArtifactError GeneratedFunction :=
  if h : name = "" then .error .emptyName else .ok ⟨name, declaration, implementation, h⟩

/-- A routine that gives read access to one structure field. -/
structure FieldAccessor (T : Type) extends GeneratedFunction where
  field : String
  fieldType : T
  /-- Low-level declaration, for signatures across languages. -/
  cDeclaration : String
deriving DecidableEq

/-! ## Types and parsers -/

/-- Declaration of one type. Both parts come from one template and differ in
the visibility they were rendered for. -/
structure TypeDeclaration (T : Type) where
  type : T
  publicPart : String
  privatePart : String
deriving DecidableEq, Repr

/-- Render a template for both parts, the public one first. The private part
is only rendered if the public one succeeds. -/
def TypeDeclaration.render {Env T : Type} {m : Type → Type} [Monad m] (render : Renderer Env m)
    (template : String) (env : Env) (type : T) (extra : ExtraArgs) : m (TypeDeclaration T) := do
  let publicPart ← render template env .publicPart extra
  let privatePart ← render template env .privatePart extra
  return ⟨type, publicPart, privatePart⟩

/-- Code that parses one grammar rule. -/
structure GeneratedParser (S : Type) where
  name : String
  /-- The specification that the parser was generated from. -/
  spec : S
  body : String
deriving DecidableEq, Repr

end Bindery
