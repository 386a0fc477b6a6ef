import Bindery.Structural.Declaration

/-!
# Values of declared types

A program declares its record types, each concrete one with the fields that
it has and those that count (`Schema`). A value of a declared type is a
record with one value for each declared field, and these are leaves or values
of declared types again, to any depth (`Schema.Conforms`).

Comparing two such records comes down to the designated fields
(`Schema.eq_record_iff`). Records of one type list the same names, so the
three ways to designate fields differ in nothing else.
-/

namespace Bindery

namespace Declaration

variable {φ : Type} {d : Declaration} {type : TypeName} {values : List φ} {name : String} {x : φ}

/-- Fields that count in a comparison. -/
def designated (d : Declaration) : List String :=
  match d.designation with
  | .all => d.fields
  | .only keys => keys
  | .except keys => d.fields.filter (!keys.contains ·)

theorem mem_fields_of_mem_designated (h : d.wellFormed = true) (hname : name ∈ d.designated) :
    name ∈ d.fields := by
  obtain ⟨fields, designation⟩ := d
  cases designation with
  | all => exact hname
  | only keys => exact List.contains_iff_mem.mp (List.all_eq_true.mp h name hname)
  | except keys => exact (List.mem_filter.mp hname).1

/-- The record of a value has every declared field. -/
theorem exists_field? (hlength : values.length = d.fields.length) (hname : name ∈ d.fields) :
    ∃ x, (d.record type values).field? name = some x := by
  have hfst : (d.fields.zip values).map Prod.fst = d.fields :=
    List.map_fst_zip (Nat.le_of_eq hlength.symm)
  exact Option.isSome_iff_exists.mp ((Record.field?_isSome_iff hfst).mpr hname)

theorem mem_values_of_field? (h : (d.record type values).field? name = some x) : x ∈ values :=
  (List.of_mem_zip (Record.mem_fields_of_field? h)).2

end Declaration

/-! ## Schemas -/

/-- The declared types of a program. Each concrete type has a declaration of
its own, so a generic type has one for every argument. -/
structure Schema where
  declaration? : TypeName → Option Declaration
  /-- Only declared fields are designated. -/
  wellFormed : ∀ {type d}, declaration? type = some d → d.wellFormed = true

namespace Schema

variable {ℓ : Type} {schema : Schema}

/-- A leaf, or a record of a declared type with one such value for each field. -/
inductive Conforms (schema : Schema) : FieldValue ℓ → Prop where
  | leaf (value : ℓ) : Conforms schema (.leaf value)
  | record {type d values} (hd : schema.declaration? type = some d)
      (hlength : values.length = d.fields.length) (h : ∀ value ∈ values, Conforms schema value) :
      Conforms schema (.record (d.record type values))

variable [BEq ℓ] {type type' : TypeName} {d d' : Declaration} {values values' : List (FieldValue ℓ)}

/-- **Comparing values of declared types**: they are of the same type, and every
designated field is there and equal on both sides. -/
theorem eq_record_iff (hd : schema.declaration? type = some d)
    (hd' : schema.declaration? type' = some d') :
    (d.record type values).eq (d'.record type' values') = true ↔ type = type' ∧
      ∀ name ∈ d.designated, ∃ x ∈ (d.record type values).field? name,
        ∃ y ∈ (d'.record type' values').field? name, x.eqField y = true := by
  simp only [← Record.agreeOn_eq_true_iff, Record.eq, Record.structEq, Bool.and_eq_true, beq_iff_eq,
    Declaration.record]
  refine and_congr_right ?_
  rintro rfl
  obtain rfl := Option.some.inj (hd.symm.trans hd')
  rw [← List.all_eq_true, Declaration.designated, Bool.coe_iff_coe]
  cases d.designation with
  | all => rw [Record.agree, beq_self_eq_true, Bool.true_and]
  | only keys => rfl
  | except keys => rfl

end Schema

end Bindery
