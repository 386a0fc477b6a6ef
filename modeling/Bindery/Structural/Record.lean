/-!
# Structural equality of records

A record is what structural equality sees of a value: its concrete type, the
field names it lists, the fields it holds, and which of them are designated
for comparison. A name that is listed need not have a field, and a field need
not be listed.

Values of different concrete types are never equal. Otherwise the left side
says which fields count, and each of them must be there on both sides and
agree. How two fields agree is a parameter, and the two sides may hold fields
of different kinds.
-/

namespace Bindery

/-- Concrete types: a name, or a generic type applied to an argument. -/
inductive TypeName where
  | const (name : String)
  | app (generic argument : TypeName)
deriving DecidableEq, Repr

/-- Fields that take part in a comparison. -/
inductive Designation where
  | all
  | only (keys : List String)
  | except (keys : List String)
deriving DecidableEq, Repr

structure Record (φ : Type) where
  type : TypeName
  names : List String
  fields : List (String × φ)
  designation : Designation

namespace Record

variable {φ ψ : Type}

def field? (r : Record φ) (name : String) : Option φ := r.fields.lookup name

/-- Both sides have the field, and there the values are equal. -/
def agreeOn (eqField : φ → ψ → Bool) (a : Record φ) (b : Record ψ) (name : String) : Bool :=
  match a.field? name, b.field? name with
  | some x, some y => eqField x y
  | _, _ => false

/-- Agreement on the fields that a designation picks. When all of them count,
the two sides must also list as many names. -/
def agree (eqField : φ → ψ → Bool) (a : Record φ) (b : Record ψ) : Designation → Bool
  | .all => a.names.length == b.names.length && a.names.all (agreeOn eqField a b)
  | .only keys => keys.all (agreeOn eqField a b)
  | .except excluded =>
    (a.names.filter (!excluded.contains ·)).all (agreeOn eqField a b)

def structEq (eqField : φ → ψ → Bool) (a : Record φ) (b : Record ψ) : Bool :=
  a.type == b.type && agree eqField a b a.designation

/-! ## Fields -/

theorem field?_isSome_iff {r : Record φ} (hfields : r.fields.map Prod.fst = r.names)
    {name : String} : (r.field? name).isSome ↔ name ∈ r.names := by
  rw [← hfields, field?, List.lookup_isSome_iff, List.mem_map]
  simp only [beq_iff_eq]
  exact ⟨fun ⟨e, he, heq⟩ => ⟨e, he, heq.symm⟩, fun ⟨e, he, heq⟩ => ⟨e, he, heq.symm⟩⟩

theorem mem_fields_of_field? {r : Record φ} {name : String} {x : φ} (h : r.field? name = some x) :
    (name, x) ∈ r.fields := by
  obtain ⟨front, rest, heq, _⟩ := List.lookup_eq_some_iff.mp h
  exact heq ▸ List.mem_append_right front List.mem_cons_self

theorem agreeOn_eq_true_iff {eqField : φ → ψ → Bool} {a : Record φ} {b : Record ψ}
    {name : String} : agreeOn eqField a b name = true ↔
      ∃ x ∈ a.field? name, ∃ y ∈ b.field? name, eqField x y = true := by
  unfold agreeOn
  cases a.field? name <;> cases b.field? name <;> simp

end Record

end Bindery
