import Mathlib.Data.List.Perm.Subperm
import Bindery.Structural.Record

/-!
# Comparison by exclusion

Records whose field names may differ from value to value, compared on all
names but the excluded ones. The comparison walks the names of its left side
only (`structEq_except_iff`): a name that only the right side lists is never
looked at. Comparing all fields is the other mode that walks the left side,
and there the equal number of names makes up for it (`structEq_all_iff`).

`structEq_except_comm_iff` draws the line: the verdict depends on the order of
the two sides, and overlooks a missing field, exactly when the fields that
both sides have agree and the names of one side are properly within those of
the other.
-/

namespace Bindery.Record

variable {φ : Type} {a b : Record φ} {ex : List String}

/-! ## Names and fields -/

/-- Names are listed once, and there is a field exactly under each of them. -/
structure Declared (r : Record φ) : Prop where
  nodup : r.names.Nodup
  field_iff : ∀ name, (r.field? name).isSome ↔ name ∈ r.names

/-- A record that holds one field for each of its names, in their order. -/
theorem declared_of_fields {r : Record φ} (hnodup : r.names.Nodup)
    (hfields : r.fields.map Prod.fst = r.names) : r.Declared where
  nodup := hnodup
  field_iff _ := field?_isSome_iff hfields

/-- Every name of `a` that is not excluded is a name of `b`. -/
def CoveredBy (a b : Record φ) (ex : List String) : Prop :=
  ∀ name ∈ a.names, name ∉ ex → name ∈ b.names

/-- The fields that both sides have agree, the excluded ones aside. -/
def AgreeOnShared (eqField : φ → φ → Bool) (a b : Record φ) (ex : List String) : Prop :=
  ∀ name ∈ a.names, name ∈ b.names → name ∉ ex → agreeOn eqField a b name = true

/-- One side has a field, not an excluded one, that the other side lacks. -/
def MissingField (a b : Record φ) (ex : List String) : Prop :=
  ∃ name, name ∉ ex ∧ (name ∈ a.names ∧ name ∉ b.names ∨ name ∈ b.names ∧ name ∉ a.names)

theorem missingField_iff : a.MissingField b ex ↔ ¬a.CoveredBy b ex ∨ ¬b.CoveredBy a ex := by
  simp only [CoveredBy, Classical.not_forall]
  constructor
  · rintro ⟨name, hex, ⟨ha, hb⟩ | ⟨hb, ha⟩⟩
    · exact Or.inl ⟨name, ha, hex, hb⟩
    · exact Or.inr ⟨name, hb, hex, ha⟩
  · rintro (⟨name, ha, hex, hb⟩ | ⟨name, hb, hex, ha⟩)
    · exact ⟨name, hex, Or.inl ⟨ha, hb⟩⟩
    · exact ⟨name, hex, Or.inr ⟨hb, ha⟩⟩

theorem mem_names_of_agreeOn {eqField : φ → φ → Bool} {name : String} (hb : b.Declared)
    (h : agreeOn eqField a b name = true) : name ∈ b.names := by
  obtain ⟨_, _, y, hy, _⟩ := agreeOn_eq_true_iff.mp h
  exact (hb.field_iff name).mp (Option.isSome_of_mem hy)

theorem agreeOn_comm {eqField : φ → φ → Bool} (hsymm : ∀ x y, eqField x y = eqField y x)
    (a b : Record φ) (name : String) : agreeOn eqField a b name = agreeOn eqField b a name := by
  unfold agreeOn
  cases a.field? name <;> cases b.field? name <;> first | rfl | exact hsymm _ _

theorem agreeOnShared_comm {eqField : φ → φ → Bool} (hsymm : ∀ x y, eqField x y = eqField y x) :
    AgreeOnShared eqField a b ex ↔ AgreeOnShared eqField b a ex := by
  constructor <;> intro h name h₁ h₂ hex <;> rw [agreeOn_comm hsymm] <;> exact h name h₂ h₁ hex

/-! ## Verdicts -/

/-- Walking the names of the left side: they must be names of the right side
too, and the fields must agree. -/
theorem forall_agreeOn_iff (eqField : φ → φ → Bool) (hb : b.Declared) :
    (∀ name ∈ a.names, name ∉ ex → agreeOn eqField a b name = true) ↔
      a.CoveredBy b ex ∧ AgreeOnShared eqField a b ex := by
  constructor
  · intro h
    exact ⟨fun name hn hex => mem_names_of_agreeOn hb (h name hn hex),
      fun name hn _ hex => h name hn hex⟩
  · rintro ⟨hcov, hagree⟩ name hn hex
    exact hagree name hn (hcov name hn hex) hex

theorem structEq_except_iff (eqField : φ → φ → Bool) (htype : a.type = b.type)
    (hb : b.Declared) (hka : a.designation = .except ex) :
    structEq eqField a b = true ↔ a.CoveredBy b ex ∧ AgreeOnShared eqField a b ex := by
  rw [← forall_agreeOn_iff eqField hb]
  simp only [structEq, htype, beq_self_eq_true, Bool.true_and, hka, agree, List.all_eq_true,
    List.mem_filter, List.contains_eq_mem, Bool.not_eq_true', decide_eq_false_iff_not, and_imp]

/-- With as many names on both sides, and none listed twice, the names of one
side are within those of the other only if they are the same. -/
theorem structEq_all_iff (eqField : φ → φ → Bool) (htype : a.type = b.type)
    (ha : a.Declared) (hb : b.Declared) (hka : a.designation = .all) :
    structEq eqField a b = true ↔
      a.CoveredBy b [] ∧ b.CoveredBy a [] ∧ AgreeOnShared eqField a b [] := by
  have hwalk : (∀ name ∈ a.names, name ∉ [] → agreeOn eqField a b name = true) ↔
      a.CoveredBy b [] ∧ AgreeOnShared eqField a b [] := forall_agreeOn_iff eqField hb
  simp only [List.not_mem_nil, not_false_eq_true, forall_const] at hwalk
  simp only [structEq, htype, beq_self_eq_true, Bool.true_and, hka, agree, Bool.and_eq_true,
    List.all_eq_true, beq_iff_eq, hwalk]
  constructor
  · rintro ⟨hlen, hcov, hagree⟩
    have hsub : a.names ⊆ b.names := fun name hn => hcov name hn List.not_mem_nil
    have hperm : a.names.Perm b.names :=
      (List.subperm_of_subset ha.nodup hsub).perm_of_length_le (Nat.le_of_eq hlen.symm)
    exact ⟨hcov, fun name hn _ => hperm.mem_iff.mpr hn, hagree⟩
  · rintro ⟨hab, hba, hagree⟩
    have hperm : a.names.Perm b.names := (List.perm_ext_iff_of_nodup ha.nodup hb.nodup).mpr
      fun name => ⟨fun hn => hab name hn List.not_mem_nil, fun hn => hba name hn List.not_mem_nil⟩
    exact ⟨hperm.length_eq, hab, hagree⟩

/-! ## Where the order of the two sides matters -/

/-- The names of `a`, without the excluded ones, are some but not all of
those of `b`. -/
def ProperlyWithin (a b : Record φ) (ex : List String) : Prop :=
  a.CoveredBy b ex ∧ ¬b.CoveredBy a ex

/-- **Comparison by exclusion, exactly.** First the verdict itself. Then: both
orders give the same verdict, and both say `false` where a field is missing,
unless all shared fields agree and one side's names are properly within the
other's. Last, comparison of all fields says the same as the exclusion of
none, unless the left side's names are properly within the right side's. -/
theorem structEq_except_comm_iff {eqField : φ → φ → Bool}
    (hsymm : ∀ x y, eqField x y = eqField y x) (htype : a.type = b.type)
    (ha : a.Declared) (hb : b.Declared)
    (hka : a.designation = .except ex) (hkb : b.designation = .except ex) :
    (structEq eqField a b = true ↔ a.CoveredBy b ex ∧ AgreeOnShared eqField a b ex)
    ∧ (structEq eqField a b = structEq eqField b a
        ∧ (a.MissingField b ex → structEq eqField a b = false ∧ structEq eqField b a = false) ↔
      ¬(AgreeOnShared eqField a b ex ∧ (a.ProperlyWithin b ex ∨ b.ProperlyWithin a ex)))
    ∧ (structEq eqField { a with designation := .except [] } { b with designation := .except [] }
        = structEq eqField { a with designation := .all } { b with designation := .all } ↔
      ¬(AgreeOnShared eqField a b [] ∧ a.ProperlyWithin b [])) := by
  have hab := structEq_except_iff eqField htype hb hka
  have hba := structEq_except_iff eqField htype.symm ha hkb
  rw [agreeOnShared_comm hsymm] at hba
  refine ⟨hab, ?_, ?_⟩
  · have horder : structEq eqField a b = structEq eqField b a ↔
        (a.CoveredBy b ex ∧ AgreeOnShared eqField a b ex ↔
          b.CoveredBy a ex ∧ AgreeOnShared eqField a b ex) := by
      rw [Bool.eq_iff_iff, hab, hba]
    rw [horder, ← Bool.not_eq_true, ← Bool.not_eq_true, hab, hba, missingField_iff]
    constructor
    · rintro ⟨hsame, -⟩ ⟨hagree, ⟨hcov, hnot⟩ | ⟨hcov, hnot⟩⟩
      · exact hnot (hsame.mp ⟨hcov, hagree⟩).1
      · exact hnot (hsame.mpr ⟨hcov, hagree⟩).1
    · intro hno
      have hboth : AgreeOnShared eqField a b ex → (a.CoveredBy b ex ↔ b.CoveredBy a ex) :=
        fun hagree =>
          ⟨fun hc => Classical.byContradiction fun hn => hno ⟨hagree, Or.inl ⟨hc, hn⟩⟩,
            fun hc => Classical.byContradiction fun hn => hno ⟨hagree, Or.inr ⟨hc, hn⟩⟩⟩
      refine ⟨and_congr_left hboth, ?_⟩
      intro hmissing
      constructor
      · intro hc
        exact hmissing.elim (fun hn => hn hc.1) fun hn => hn ((hboth hc.2).mp hc.1)
      · intro hc
        exact hmissing.elim (fun hn => hn ((hboth hc.2).mpr hc.1)) fun hn => hn hc.1
  · have hnone : structEq eqField { a with designation := .except [] }
        { b with designation := .except [] } = true ↔
          a.CoveredBy b [] ∧ AgreeOnShared eqField a b [] :=
      structEq_except_iff (a := { a with designation := .except [] })
        (b := { b with designation := .except [] }) eqField htype ⟨hb.nodup, hb.field_iff⟩ rfl
    have hall : structEq eqField { a with designation := .all }
        { b with designation := .all } = true ↔
          a.CoveredBy b [] ∧ b.CoveredBy a [] ∧ AgreeOnShared eqField a b [] :=
      structEq_all_iff (a := { a with designation := .all }) (b := { b with designation := .all })
        eqField htype ⟨ha.nodup, ha.field_iff⟩ ⟨hb.nodup, hb.field_iff⟩ rfl
    rw [Bool.eq_iff_iff, hnone, hall]
    constructor
    · rintro hsame ⟨hagree, hcov, hnot⟩
      exact hnot (hsame.mp ⟨hcov, hagree⟩).2.1
    · intro hno
      refine ⟨fun ⟨hcov, hagree⟩ => ⟨hcov, ?_, hagree⟩, fun ⟨hcov, _, hagree⟩ => ⟨hcov, hagree⟩⟩
      exact Classical.byContradiction fun hn => hno ⟨hagree, hcov, hn⟩

/-! ## A name that only one side lists -/

/-- One field. -/
def single : Record Nat := ⟨.const "Sparse", ["name"], [("name", 1)], .except []⟩

/-- The same field, and one more. -/
def double : Record Nat :=
  ⟨.const "Sparse", ["name", "extra"], [("name", 1), ("extra", 2)], .except []⟩

theorem declared_single : single.Declared := declared_of_fields (by decide) rfl

theorem declared_double : double.Declared := declared_of_fields (by decide) rfl

/-- Two records of one type that exclude nothing: with the smaller one on the
left they are equal, in the other order they are not, and as comparisons of
all fields they are not either way. -/
theorem structEq_except_not_comm :
    single.Declared ∧ double.Declared ∧ single.MissingField double []
    ∧ structEq (· == ·) single double = true ∧ structEq (· == ·) double single = false
    ∧ structEq (· == ·) { single with designation := .all } { double with designation := .all }
      = false := by
  refine ⟨declared_single, declared_double, ⟨"extra", List.not_mem_nil, Or.inr ?_⟩, ?_⟩
  · exact ⟨by decide, by decide⟩
  · exact ⟨by decide, by decide, by decide⟩

/-- The smaller record equals the larger one because its field is there and
agrees. -/
theorem structEq_except_single :
    (∀ x y : Nat, (x == y) = (y == x)) ∧ single.Declared ∧ double.Declared
    ∧ single.designation = .except [] ∧ double.designation = .except []
    ∧ single.CoveredBy double [] ∧ AgreeOnShared (· == ·) single double [] := by
  have hsymm : ∀ x y : Nat, (x == y) = (y == x) := fun x y => Bool.beq_comm
  have hexact := structEq_except_comm_iff (a := single) (b := double) hsymm rfl declared_single
    declared_double rfl rfl
  exact ⟨hsymm, declared_single, declared_double, rfl, rfl, hexact.1.mp (by decide)⟩

end Bindery.Record
