import Bindery.Proofs.Structural.Exclusion

/-!
# Comparison of equal fields

Records of one type that compare all their fields, or all of them the same
keys. The fields may differ from record to record. All the same the verdict
does not depend on the order of the two sides: comparing all fields says that
the two sides have the same names and equal values under them, comparing keys
says that both have every key, with equal values, and neither prefers a side
(`structEq_iff_same_fields`).

Symmetry and transitivity are those of the fields. Nothing is said about
reflexivity: a field may differ from itself, and a key need not be a field.
-/

namespace Bindery.Record

variable {φ : Type} {eqField : φ → φ → Bool} {a b c : Record φ} {type : TypeName}
  {keys : List String} {name : String}

/-- The record of a value of the type. Its names are its own. -/
structure InstanceOf (type : TypeName) (designation : Designation) (r : Record φ) : Prop
    extends Declared r where
  type_eq : r.type = type
  designation_eq : r.designation = designation

/-! ## What equal records have in common -/

/-- Both sides have the field, with equal values. -/
def SameField (eqField : φ → φ → Bool) (a b : Record φ) (name : String) : Prop :=
  ∃ x ∈ a.field? name, ∃ y ∈ b.field? name, eqField x y = true

/-- The same names on both sides, and equal values under each of them. -/
structure SameFields (eqField : φ → φ → Bool) (a b : Record φ) : Prop where
  names_iff : ∀ name, name ∈ a.names ↔ name ∈ b.names
  same : ∀ name ∈ a.names, SameField eqField a b name

/-- Every key is a name of both sides, with equal values under it. -/
def SameUnder (eqField : φ → φ → Bool) (keys : List String) (a b : Record φ) : Prop :=
  ∀ key ∈ keys, key ∈ a.names ∧ key ∈ b.names ∧ SameField eqField a b key

section Laws

variable (hsymm : ∀ x y, eqField x y = true → eqField y x = true)
  (htrans : ∀ x y z, eqField x y = true → eqField y z = true → eqField x z = true)

include hsymm in
theorem SameField.symm (h : SameField eqField a b name) : SameField eqField b a name := by
  obtain ⟨x, hx, y, hy, hxy⟩ := h
  exact ⟨y, hy, x, hx, hsymm x y hxy⟩

include htrans in
theorem SameField.trans (hab : SameField eqField a b name) (hbc : SameField eqField b c name) :
    SameField eqField a c name := by
  obtain ⟨x, hx, y, hy, hxy⟩ := hab
  obtain ⟨y', hy', z, hz, hyz⟩ := hbc
  obtain rfl := Option.some.inj (hy.symm.trans hy')
  exact ⟨x, hx, z, hz, htrans x y z hxy hyz⟩

include hsymm in
theorem SameFields.symm (h : SameFields eqField a b) : SameFields eqField b a where
  names_iff name := (h.names_iff name).symm
  same name hname := (h.same name ((h.names_iff name).mpr hname)).symm hsymm

include htrans in
theorem SameFields.trans (hab : SameFields eqField a b) (hbc : SameFields eqField b c) :
    SameFields eqField a c where
  names_iff name := (hab.names_iff name).trans (hbc.names_iff name)
  same name hname :=
    (hab.same name hname).trans htrans (hbc.same name ((hab.names_iff name).mp hname))

include hsymm in
theorem SameUnder.symm (h : SameUnder eqField keys a b) : SameUnder eqField keys b a := by
  intro key hkey
  obtain ⟨ha, hb, hsame⟩ := h key hkey
  exact ⟨hb, ha, hsame.symm hsymm⟩

include htrans in
theorem SameUnder.trans (hab : SameUnder eqField keys a b) (hbc : SameUnder eqField keys b c) :
    SameUnder eqField keys a c := by
  intro key hkey
  obtain ⟨ha, -, hsame⟩ := hab key hkey
  obtain ⟨-, hc, hsame'⟩ := hbc key hkey
  exact ⟨ha, hc, hsame.trans htrans hsame'⟩

end Laws

/-! ## Verdicts -/

theorem structEq_all_iff_sameFields (ha : InstanceOf type .all a) (hb : InstanceOf type .all b) :
    structEq eqField a b = true ↔ SameFields eqField a b := by
  rw [structEq_all_iff eqField (ha.type_eq.trans hb.type_eq.symm) ha.toDeclared hb.toDeclared
    ha.designation_eq]
  constructor
  · rintro ⟨hab, hba, hagree⟩
    have hnames : ∀ name, name ∈ a.names ↔ name ∈ b.names := fun name =>
      ⟨fun hn => hab name hn List.not_mem_nil, fun hn => hba name hn List.not_mem_nil⟩
    exact ⟨hnames, fun name hn =>
      agreeOn_eq_true_iff.mp (hagree name hn ((hnames name).mp hn) List.not_mem_nil)⟩
  · rintro ⟨hnames, hsame⟩
    exact ⟨fun name hn _ => (hnames name).mp hn, fun name hn _ => (hnames name).mpr hn,
      fun name hn _ _ => agreeOn_eq_true_iff.mpr (hsame name hn)⟩

theorem structEq_only_iff_sameUnder (ha : InstanceOf type (.only keys) a)
    (hb : InstanceOf type (.only keys) b) :
    structEq eqField a b = true ↔ SameUnder eqField keys a b := by
  simp only [structEq, ha.type_eq, hb.type_eq, ha.designation_eq, agree, beq_self_eq_true,
    Bool.true_and, List.all_eq_true]
  refine forall₂_congr fun key _ => agreeOn_eq_true_iff.trans ?_
  constructor
  · rintro ⟨x, hx, y, hy, hxy⟩
    exact ⟨(ha.field_iff key).mp (Option.isSome_of_mem hx),
      (hb.field_iff key).mp (Option.isSome_of_mem hy), x, hx, y, hy, hxy⟩
  · rintro ⟨-, -, hsame⟩
    exact hsame

/-- Among such records the comparison decides a relation, in either order and
from one record to the next. -/
structure Decides (eqField : φ → φ → Bool) (valid : Record φ → Prop)
    (same : Record φ → Record φ → Prop) : Prop where
  iff : ∀ a b, valid a → valid b → (structEq eqField a b = true ↔ same a b)
  symm : ∀ a b, valid a → valid b → structEq eqField a b = structEq eqField b a
  trans : ∀ a b c, valid a → valid b → valid c → structEq eqField a b = true →
    structEq eqField b c = true → structEq eqField a c = true

theorem decides_of_iff {valid : Record φ → Prop} {same : Record φ → Record φ → Prop}
    (hiff : ∀ a b, valid a → valid b → (structEq eqField a b = true ↔ same a b))
    (hsymm : ∀ a b, same a b → same b a) (htrans : ∀ a b c, same a b → same b c → same a c) :
    Decides eqField valid same where
  iff := hiff
  symm a b ha hb := by
    rw [Bool.eq_iff_iff, hiff a b ha hb, hiff b a hb ha]
    exact ⟨hsymm a b, hsymm b a⟩
  trans a b c ha hb hc hab hbc := (hiff a c ha hc).mpr <|
    htrans a b c ((hiff a b ha hb).mp hab) ((hiff b c hb hc).mp hbc)

/-- **Comparing all fields, or keys.** Records of one type that compare all fields
are equal when they have the same names and equal values under them; those that
compare the same keys are equal when both have every key, with equal values.
Both comparisons are symmetric and transitive, if those of the fields are. -/
theorem structEq_iff_same_fields (hsymm : ∀ x y, eqField x y = true → eqField y x = true)
    (htrans : ∀ x y z, eqField x y = true → eqField y z = true → eqField x z = true)
    (type : TypeName) :
    Decides eqField (InstanceOf type .all) (SameFields eqField)
    ∧ ∀ keys, Decides eqField (InstanceOf type (.only keys)) (SameUnder eqField keys) := by
  refine ⟨decides_of_iff (fun _ _ => structEq_all_iff_sameFields) ?_ ?_, fun keys =>
    decides_of_iff (fun _ _ => structEq_only_iff_sameUnder) ?_ ?_⟩
  · exact fun _ _ h => h.symm hsymm
  · exact fun _ _ _ hab hbc => hab.trans htrans hbc
  · exact fun _ _ h => h.symm hsymm
  · exact fun _ _ _ hab hbc => hab.trans htrans hbc

/-- A sparse record, with these fields. -/
def sparse (designation : Designation) (fields : List (String × Nat)) : Record Nat :=
  ⟨.const "Sparse", fields.map Prod.fst, fields, designation⟩

theorem instanceOf_sparse (designation : Designation) (fields : List (String × Nat))
    (hnodup : (fields.map Prod.fst).Nodup) :
    InstanceOf (.const "Sparse") designation (sparse designation fields) where
  toDeclared := declared_of_fields hnodup rfl
  type_eq := rfl
  designation_eq := rfl

/-- The order in which the names are listed does not count, and neither does a
name that is no key. -/
theorem structEq_sparse :
    (∀ x y : Nat, (x == y) = true → (y == x) = true)
    ∧ (∀ x y z : Nat, (x == y) = true → (y == z) = true → (x == z) = true)
    ∧ (InstanceOf (.const "Sparse") .all (sparse .all [("x", 1), ("y", 2)])
      ∧ InstanceOf (.const "Sparse") .all (sparse .all [("y", 2), ("x", 1)])
      ∧ SameFields (· == ·) (sparse .all [("x", 1), ("y", 2)]) (sparse .all [("y", 2), ("x", 1)]))
    ∧ InstanceOf (.const "Sparse") (.only ["x"]) (sparse (.only ["x"]) [("x", 1), ("y", 2)])
    ∧ InstanceOf (.const "Sparse") (.only ["x"]) (sparse (.only ["x"]) [("x", 1)])
    ∧ SameUnder (· == ·) ["x"] (sparse (.only ["x"]) [("x", 1), ("y", 2)])
      (sparse (.only ["x"]) [("x", 1)]) := by
  have hsymm : ∀ x y : Nat, (x == y) = true → (y == x) = true := fun x y h => BEq.symm h
  have htrans : ∀ x y z : Nat, (x == y) = true → (y == z) = true → (x == z) = true :=
    fun x y z hxy hyz => BEq.trans hxy hyz
  obtain ⟨hall, honly⟩ := structEq_iff_same_fields hsymm htrans (.const "Sparse")
  have hxy := instanceOf_sparse .all [("x", 1), ("y", 2)] (by decide)
  have hyx := instanceOf_sparse .all [("y", 2), ("x", 1)] (by decide)
  have hboth := instanceOf_sparse (.only ["x"]) [("x", 1), ("y", 2)] (by decide)
  have hone := instanceOf_sparse (.only ["x"]) [("x", 1)] (by decide)
  refine ⟨hsymm, htrans, ⟨hxy, hyx, ?_⟩, hboth, hone, ?_⟩
  · exact (hall.iff _ _ hxy hyx).mp (by decide)
  · exact ((honly ["x"]).iff _ _ hboth hone).mp (by decide)

end Bindery.Record
