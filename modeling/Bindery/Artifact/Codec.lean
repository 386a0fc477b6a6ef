import Bindery.Artifact.Basic
import Bindery.Hierarchy.Basic
import Bindery.Json

/-!
# Serialized artifacts

Artifacts as JSON values. A value is written as an object with one member for
each field. It is read from such an object, whose members may come in any
order and may include others, or from an array of all fields in the order of
the declaration.

Which error wins is part of the format. The members of an object are visited
in ascending name order, and the first one that cannot be read decides. Only
then does a missing field count, the first one in the order of the
declaration. In an array the first element that cannot be read decides, and
after that the number of elements. A routine is checked for its name when all
of its own fields are read.

Reading has two halves. `fieldValues` applies these rules and gives one JSON
value for each field; the reader of a type then builds the artifact from
them.
-/

namespace Bindery

inductive DecodeError where
  | invalidType
  | invalidValue
  | invalidLength
  | missingField (name : String)
  | unknownVariant
  | refused (cause : ArtifactError)
deriving DecidableEq, Repr

/-- Text of the errors that promise one. -/
def DecodeError.message? : DecodeError → Option String
  | .missingField name => some ("missing field `" ++ name ++ "`")
  | .refused cause => some cause.message
  | .invalidType | .invalidValue | .invalidLength | .unknownVariant => none

/-- Reads a value of type `α` from JSON. -/
abbrev Decoder (α : Type) := Json → Except DecodeError α

namespace Json

/-! ## Plain values -/

def asString : Decoder String
  | .str s => .ok s
  | _ => .error .invalidType

def asOptString : Decoder (Option String)
  | .null => .ok none
  | .str s => .ok (some s)
  | _ => .error .invalidType

/-- An integer from `first` to `last`; any other integer is out of range. -/
def asIntIn (first last : Int) : Decoder Int
  | .int n => if first ≤ n ∧ n ≤ last then .ok n else .error .invalidValue
  | _ => .error .invalidType

def asInt64 : Decoder Int64 := fun j =>
  (asIntIn Int64.minValue.toInt Int64.maxValue.toInt j).map Int64.ofInt

def asStrings : Decoder (List String)
  | .arr items => items.mapM asString
  | _ => .error .invalidType

/-! ## Fields -/

/-- How one field is read. An optional field may be missing from an object,
and reads as null then. -/
structure FieldRule where
  name : String
  check : Json → Except DecodeError Unit
  optional : Bool

/-- The rule of a field that a decoder reads. -/
def FieldRule.required {α : Type} (name : String) (decode : Decoder α) : FieldRule :=
  ⟨name, fun j => (decode j).map fun _ => (), false⟩

def FieldRule.optionalText (name : String) : FieldRule :=
  ⟨name, fun j => (asOptString j).map fun _ => (), true⟩

/-- Check the members that are fields, in the given order. -/
def checkMembers (rules : List FieldRule) : List (String × Json) → Except DecodeError Unit
  | [] => .ok ()
  | (name, value) :: rest =>
    match rules.find? (·.name == name) with
    | none => checkMembers rules rest
    | some rule =>
      match rule.check value with
      | .error e => .error e
      | .ok () => checkMembers rules rest

/-- The member of each field, in the order of the rules. -/
def pickMembers (members : List (String × Json)) : List FieldRule → Except DecodeError (List Json)
  | [] => .ok []
  | rule :: rules =>
    match members.lookup rule.name with
    | some value => (pickMembers members rules).map (value :: ·)
    | none =>
      if rule.optional then (pickMembers members rules).map (.null :: ·)
      else .error (.missingField rule.name)

/-- Check the elements of an array against the rules, one by one. -/
def checkItems : List FieldRule → List Json → Except DecodeError Unit
  | [], [] => .ok ()
  | [], _ :: _ => .error .invalidLength
  | _ :: _, [] => .error .invalidLength
  | rule :: rules, item :: items =>
    match rule.check item with
    | .error e => .error e
    | .ok () => checkItems rules items

/-- The value of each field, in the order of the rules. -/
def fieldValues (rules : List FieldRule) : Decoder (List Json)
  | .obj entries => do
    checkMembers rules (members entries)
    pickMembers (members entries) rules
  | .arr items => do
    checkItems rules items
    return items
  | _ => .error .invalidType

end Json

open Json

/-! ## Routines -/

namespace GeneratedFunction

def rules : List FieldRule :=
  [.required "name" asString, .optionalText "declaration", .optionalText "implementation"]

def decode : Decoder GeneratedFunction := fun j => do
  let [name, declaration, implementation] ← fieldValues rules j | .error .invalidLength
  let made := make (← asString name) (← asOptString declaration) (← asOptString implementation)
  made.mapError .refused

def encode (f : GeneratedFunction) : Json :=
  .obj [("name", .str f.name), ("declaration", ofString? f.declaration),
    ("implementation", ofString? f.implementation)]

end GeneratedFunction

/-! ## Accessors of fields whose type is a string -/

namespace FieldAccessor

def rules : List FieldRule :=
  [.required "function" GeneratedFunction.decode, .required "field" asString,
    .required "field_type" asString, .required "c_declaration" asString]

def decode : Decoder (FieldAccessor String) := fun j => do
  let [function, field, fieldType, cDeclaration] ← fieldValues rules j | .error .invalidLength
  return { ← GeneratedFunction.decode function with
    field := ← asString field
    fieldType := ← asString fieldType
    cDeclaration := ← asString cDeclaration }

def encode (a : FieldAccessor String) : Json :=
  .obj [("function", a.toGeneratedFunction.encode), ("field", .str a.field),
    ("field_type", .str a.fieldType), ("c_declaration", .str a.cDeclaration)]

end FieldAccessor

/-! ## Declarations of types known by a number -/

namespace TypeDeclaration

def rules : List FieldRule :=
  [.required "ty" asInt64, .required "public_part" asString, .required "private_part" asString]

def decode : Decoder (TypeDeclaration Int64) := fun j => do
  let [type, publicPart, privatePart] ← fieldValues rules j | .error .invalidLength
  return ⟨← asInt64 type, ← asString publicPart, ← asString privatePart⟩

def encode (d : TypeDeclaration Int64) : Json :=
  .obj [("ty", .int d.type.toInt), ("public_part", .str d.publicPart),
    ("private_part", .str d.privatePart)]

end TypeDeclaration

/-! ## Parsers whose specification is a list of strings -/

namespace GeneratedParser

def rules : List FieldRule :=
  [.required "name" asString, .required "spec" asStrings, .required "body" asString]

def decode : Decoder (GeneratedParser (List String)) := fun j => do
  let [name, spec, body] ← fieldValues rules j | .error .invalidLength
  return ⟨← asString name, ← asStrings spec, ← asString body⟩

def encode (p : GeneratedParser (List String)) : Json :=
  .obj [("name", .str p.name), ("spec", .arr (p.spec.map .str)), ("body", .str p.body)]

end GeneratedParser

/-! ## Visibilities -/

namespace Visibility

def variantName : Visibility → String
  | .publicPart => "Public"
  | .privatePart => "Private"

def ofVariant : String → Except DecodeError Visibility
  | "Public" => .ok .publicPart
  | "Private" => .ok .privatePart
  | _ => .error .unknownVariant

/-- The name of a variant, or an object with null under that name. -/
def decode : Decoder Visibility
  | .str s => ofVariant s
  | .obj entries =>
    match members entries with
    | [(name, value)] => do
      let v ← ofVariant name
      match value with
      | .null => return v
      | _ => .error .invalidType
    | _ => .error .invalidValue
  | _ => .error .invalidType

def encode (v : Visibility) : Json := .str v.variantName

end Visibility

/-! ## Class handles -/

namespace ClassId

def decode : Decoder ClassId := fun j => do
  let n ← asIntIn 0 (UInt32.size - 1) j
  return ⟨n.toNat⟩

def encode (id : ClassId) : Json := .int id.index

end ClassId

end Bindery
