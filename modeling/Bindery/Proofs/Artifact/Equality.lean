import Bindery.Artifact.View
import Bindery.Proofs.Structural.Alike

/-!
# Equality of declared values

Structural equality over all values of the declared types of a program at
once, artifacts among them. It compares designated fields and nothing else,
at every depth, and is an equivalence if the leaves have one
(`eq_iff_designated_fields`).

An artifact is a value of a declared type if the schema has the declarations
of the artifacts, whatever its type argument stands for: leaves, or records
of a declared type.
-/

namespace Bindery.Schema

variable {ℓ : Type} {schema : Schema}

/-- A record of a declared type. -/
abbrev Value (schema : Schema) (ℓ : Type) : Type :=
  { r : Record (FieldValue ℓ) // schema.Conforms (.record r) }

/-! ## Artifacts -/

/-- As a field, every value of the type is a leaf or of a declared type. -/
def Covers (schema : Schema) (ℓ α : Type) [Field ℓ α] : Prop :=
  ∀ a : α, schema.Conforms (Field.toField a : FieldValue ℓ)

structure DeclaresArtifacts (schema : Schema) : Prop where
  function : schema.declaration? (.const "GeneratedFunction") = some GeneratedFunction.declared
  accessor : ∀ T, schema.declaration? (.app (.const "FieldAccessor") T) =
    some FieldAccessor.declared
  typeDeclaration : ∀ T, schema.declaration? (.app (.const "TypeDeclaration") T) =
    some TypeDeclaration.declared
  parser : ∀ S, schema.declaration? (.app (.const "GeneratedParser") S) =
    some GeneratedParser.declared

theorem covers_generatedFunction [Field ℓ String] [Field ℓ (Option String)]
    (h : schema.DeclaresArtifacts) (htext : schema.Covers ℓ String)
    (hoption : schema.Covers ℓ (Option String)) : schema.Covers ℓ GeneratedFunction := by
  intro f
  refine .record h.function rfl ?_
  simp only [List.forall_mem_cons]
  exact ⟨htext _, hoption _, hoption _, nofun⟩

section Arguments

variable {T : Type} [Field ℓ String] [Field ℓ T]

theorem covers_fieldAccessor [Field ℓ (Option String)] (h : schema.DeclaresArtifacts)
    (htext : schema.Covers ℓ String) (hoption : schema.Covers ℓ (Option String))
    (hargument : schema.Covers ℓ T) : schema.Covers ℓ (FieldAccessor T) := by
  intro a
  refine .record (h.accessor _) rfl ?_
  simp only [List.forall_mem_cons]
  exact ⟨covers_generatedFunction h htext hoption _, htext _, hargument _, htext _, nofun⟩

theorem covers_typeDeclaration (h : schema.DeclaresArtifacts) (htext : schema.Covers ℓ String)
    (hargument : schema.Covers ℓ T) : schema.Covers ℓ (TypeDeclaration T) := by
  intro d
  refine .record (h.typeDeclaration _) rfl ?_
  simp only [List.forall_mem_cons]
  exact ⟨hargument _, htext _, htext _, nofun⟩

theorem covers_generatedParser (h : schema.DeclaresArtifacts) (htext : schema.Covers ℓ String)
    (hargument : schema.Covers ℓ T) : schema.Covers ℓ (GeneratedParser T) := by
  intro p
  refine .record (h.parser _) rfl ?_
  simp only [List.forall_mem_cons]
  exact ⟨htext _, hargument _, htext _, nofun⟩

end Arguments

/-! ## Equality -/

variable [BEq ℓ]

namespace Value

theorem eq_iff_alike (a b : schema.Value ℓ) :
    a.1.eq b.1 = true ↔ schema.Alike Equal (.record a.1) (.record b.1) := by
  rw [← FieldValue.eqField_record]
  exact a.2.eqField_iff_alike b.2

theorem eq_iff (a b : schema.Value ℓ) : ∃ d, schema.declaration? a.1.type = some d ∧
    (a.1.eq b.1 = true ↔ a.1.type = b.1.type ∧ ∀ name ∈ d.designated,
      ∃ x ∈ a.1.field? name, ∃ y ∈ b.1.field? name, x.eqField y = true) := by
  obtain ⟨a, ha⟩ := a
  obtain ⟨b, hb⟩ := b
  cases ha with
  | @record type d values hd _ _ =>
      cases hb with
      | @record type' d' values' hd' _ _ => exact ⟨d, hd, eq_record_iff hd hd'⟩

theorem equivalence_eq [EquivBEq ℓ] :
    Equivalence fun a b : schema.Value ℓ => a.1.eq b.1 = true where
  refl a := (eq_iff_alike a a).mpr (a.2.alike_refl fun _ => BEq.rfl)
  symm {a b} h := (eq_iff_alike b a).mpr (((eq_iff_alike a b).mp h).symm fun _ _ => BEq.symm)
  trans {a b c} hab hbc := by
    rw [eq_iff_alike] at hab hbc ⊢
    have hleaf (x y z : ℓ) : Equal x y → Equal y z → Equal x z := BEq.trans
    exact hab.comp hleaf hbc

/-- What alike values differ in does not count. -/
theorem eq_congr {a a' : schema.Value ℓ} (h : schema.Alike Eq (.record a.1) (.record a'.1))
    (b : schema.Value ℓ) : a.1.eq b.1 = a'.1.eq b.1 ∧ b.1.eq a.1 = b.1.eq a'.1 := by
  have hback : schema.Alike Eq (.record a'.1) (.record a.1) := h.symm fun _ _ => Eq.symm
  have hleft (x y z : ℓ) (hxy : x = y) (hyz : Equal y z) : Equal x z := hxy ▸ hyz
  have hright (x y z : ℓ) (hxy : Equal x y) (hyz : y = z) : Equal x z := hyz ▸ hxy
  constructor
  · rw [Bool.eq_iff_iff, eq_iff_alike, eq_iff_alike]
    exact ⟨hback.comp hleft, h.comp hleft⟩
  · rw [Bool.eq_iff_iff, eq_iff_alike, eq_iff_alike]
    exact ⟨fun hb => hb.comp hright h, fun hb => hb.comp hright hback⟩

end Value

/-- **Equality of declared values.** Over all values of declared types: two are
equal if they are of one type and every designated field is there and equal on
both sides, which comes down to leaves at every depth. It is an equivalence if
`==` of the leaves is one. Values that differ in fields that are not designated,
at any depth, are never told apart. Artifacts are such values. -/
theorem eq_iff_designated_fields (schema : Schema) (ℓ : Type) [BEq ℓ] :
    (∀ a b : schema.Value ℓ, ∃ d, schema.declaration? a.1.type = some d ∧
      (a.1.eq b.1 = true ↔ a.1.type = b.1.type ∧ ∀ name ∈ d.designated,
        ∃ x ∈ a.1.field? name, ∃ y ∈ b.1.field? name, x.eqField y = true)) ∧
    (∀ a b : schema.Value ℓ,
      a.1.eq b.1 = true ↔ schema.Alike Equal (.record a.1) (.record b.1)) ∧
    (EquivBEq ℓ → Equivalence fun a b : schema.Value ℓ => a.1.eq b.1 = true) ∧
    (∀ a a' b : schema.Value ℓ, schema.Alike Eq (.record a.1) (.record a'.1) →
      a.1.eq b.1 = a'.1.eq b.1 ∧ b.1.eq a.1 = b.1.eq a'.1) ∧
    (schema.DeclaresArtifacts → ∀ (T : Type) [Field ℓ String] [Field ℓ (Option String)] [Field ℓ T],
      schema.Covers ℓ String → schema.Covers ℓ (Option String) → schema.Covers ℓ T →
        schema.Covers ℓ GeneratedFunction ∧ schema.Covers ℓ (FieldAccessor T) ∧
        schema.Covers ℓ (TypeDeclaration T) ∧ schema.Covers ℓ (GeneratedParser T)) := by
  refine ⟨Value.eq_iff, Value.eq_iff_alike, fun _ => Value.equivalence_eq,
    fun a a' b h => Value.eq_congr h b, ?_⟩
  intro h T _ _ _ htext hoption hargument
  exact ⟨covers_generatedFunction h htext hoption,
    covers_fieldAccessor h htext hoption hargument, covers_typeDeclaration h htext hargument,
    covers_generatedParser h htext hargument⟩

/-! ## A field that does not count, one level down -/

/-- A rule of a grammar. Where it was read from does not count. -/
structure Rule where
  name : String
  origin : Int

def Rule.declared : Declaration := ⟨["name", "origin"], .except ["origin"]⟩

instance : Structural Leaf Rule where
  typeName := .const "Rule"
  view r := Rule.declared.record (.const "Rule") [Field.toField r.name, Field.toField r.origin]

/-- The artifacts and the rule. -/
def ruleSchema : Schema where
  declaration?
    | .const "GeneratedFunction" => some GeneratedFunction.declared
    | .const "Rule" => some Rule.declared
    | .app (.const "FieldAccessor") _ => some FieldAccessor.declared
    | .app (.const "TypeDeclaration") _ => some TypeDeclaration.declared
    | .app (.const "GeneratedParser") _ => some GeneratedParser.declared
    | _ => none
  wellFormed {type d} h := by
    split at h <;> cases h <;> decide

def parserOf (origin : Int) : GeneratedParser Rule := ⟨"parse_expr", ⟨"expr", origin⟩, "return"⟩

/-- Parsers of one rule that was read from two places are equal, and equal to
the same values. -/
theorem eq_parserOf : EquivBEq Leaf ∧ ruleSchema.DeclaresArtifacts ∧
    ruleSchema.Covers Leaf String ∧ ruleSchema.Covers Leaf (Option String) ∧
    ruleSchema.Covers Leaf Rule ∧
    structurallyEqual Leaf (parserOf 10) (parserOf 42) = true ∧
    ∀ b : ruleSchema.Value Leaf,
      Record.eq (Structural.view (parserOf 10)) b.1 = Record.eq (Structural.view (parserOf 42)) b.1 := by
  have hequiv : EquivBEq Leaf := inferInstance
  have hdeclares : ruleSchema.DeclaresArtifacts := ⟨rfl, fun _ => rfl, fun _ => rfl, fun _ => rfl⟩
  have htext : ruleSchema.Covers Leaf String := fun s => .leaf (Leaf.text s)
  have hoption : ruleSchema.Covers Leaf (Option String) := fun s => .leaf (Leaf.optText s)
  have hrule : ruleSchema.Covers Leaf Rule := by
    intro r
    refine .record (d := Rule.declared) rfl rfl ?_
    simp only [List.forall_mem_cons]
    exact ⟨htext r.name, .leaf (Leaf.int r.origin), nofun⟩
  obtain ⟨-, -, hequivalence, hcongr, hartifacts⟩ := eq_iff_designated_fields ruleSchema Leaf
  obtain ⟨-, -, -, hparser⟩ := hartifacts hdeclares Rule htext hoption hrule
  let here : ruleSchema.Value Leaf := ⟨Structural.view (parserOf 10), hparser (parserOf 10)⟩
  let there : ruleSchema.Value Leaf := ⟨Structural.view (parserOf 42), hparser (parserOf 42)⟩
  have hmoved : ruleSchema.Alike Eq (Field.toField (Rule.mk "expr" 10) : FieldValue Leaf)
      (Field.toField (Rule.mk "expr" 42)) := by
    refine (alike_record_iff (d := Rule.declared) rfl).mpr ⟨rfl, ?_⟩
    exact List.forall_mem_singleton.mpr ⟨_, rfl, _, rfl, .leaf rfl⟩
  have halike : ruleSchema.Alike Eq (.record here.1) (.record there.1) := by
    refine (alike_record_iff (d := GeneratedParser.declared) rfl).mpr ⟨rfl, ?_⟩
    refine List.forall_mem_cons.mpr ⟨⟨_, rfl, _, rfl, .leaf rfl⟩, ?_⟩
    refine List.forall_mem_cons.mpr ⟨⟨_, rfl, _, rfl, hmoved⟩, ?_⟩
    exact List.forall_mem_singleton.mpr ⟨_, rfl, _, rfl, .leaf rfl⟩
  refine ⟨hequiv, hdeclares, htext, hoption, hrule, ?_, fun b => (hcongr here there b halike).1⟩
  exact (hcongr here there there halike).1.trans ((hequivalence hequiv).refl there)

end Bindery.Schema
