import Mathlib.Logic.Relation
import Bindery.Proofs.Hierarchy.Reachable

/-!
# Linearizations and the subclass order

`isSubclass` asks for membership in a list that a merge has produced; nothing
in it walks the base edges. This file relates the two. By the merge facts a
linearization holds the class and what the linearizations of its bases hold
(`Derived.mem_mro_iff`), so by induction over ancestors it holds exactly the
classes that a path of base edges leads to (`mem_mro_of_basePath`,
`basePath_of_mem_mro`).

The order facts come from places: edges lead to smaller places, so two classes
that derive from each other stand at the same place.

Linearizations are monotone: an ancestor's linearization is a subsequence of
the class's own (`mro_sublist`), as each merge keeps its rows in order.
-/

namespace Bindery.Hierarchy

/-- A path of direct-base edges, of any length. -/
abbrev BasePath (h : Hierarchy) : ClassId → ClassId → Prop :=
  Relation.ReflTransGen fun c b => b ∈ h.bases c

variable {h : Hierarchy} {a b c id : ClassId} {ancestors : List ClassId}

/-! ## One class -/

theorem Derived.mem_ancestors_iff (hd : h.Derived id ancestors) :
    a ∈ ancestors ↔ a ∈ h.bases id ∨ ∃ b ∈ h.bases id, a ∈ h.mro b := by
  rw [C3.mem_merge_iff hd.linearize]
  constructor
  · rintro ⟨row, hrow, ha⟩
    rcases List.mem_append.mp hrow with hrow | hrow
    · obtain ⟨b, hb, rfl⟩ := List.mem_map.mp hrow
      exact Or.inr ⟨b, hb, ha⟩
    · obtain rfl := List.mem_singleton.mp hrow
      exact Or.inl ha
  · rintro (ha | ⟨b, hb, ha⟩)
    · exact ⟨h.bases id, List.mem_append_right _ (List.mem_singleton.mpr rfl), ha⟩
    · exact ⟨h.mro b, List.mem_append_left _ (List.mem_map_of_mem hb), ha⟩

theorem Derived.mro_base_sublist (hd : h.Derived id ancestors) (hb : b ∈ h.bases id) :
    (h.mro b).Sublist ancestors :=
  C3.sublist_of_merge hd.linearize (List.mem_append_left _ (List.mem_map_of_mem hb))

theorem mem_mro_self (wf : h.WellFormed) (hid : h.Registered id) : id ∈ h.mro id := by
  by_cases hroot : id = .root
  · rw [hroot, wf.root_mro]
    exact List.mem_singleton.mpr rfl
  · obtain ⟨ancestors, hd⟩ := wf.derived id hid hroot
    rw [hd.mro_eq]
    exact List.mem_cons_self

/-- The ancestors of a class are the class and the ancestors of its bases. -/
theorem Derived.mem_mro_iff (wf : h.WellFormed) (hd : h.Derived id ancestors) :
    a ∈ h.mro id ↔ a = id ∨ ∃ b ∈ h.bases id, a ∈ h.mro b := by
  rw [hd.mro_eq, List.mem_cons, hd.mem_ancestors_iff]
  constructor
  · rintro (rfl | ha | hb)
    · exact Or.inl rfl
    · exact Or.inr ⟨a, ha, mem_mro_self wf (Nat.lt_trans (hd.bases_lt a ha) hd.registered)⟩
    · exact Or.inr hb
  · rintro (rfl | hb)
    · exact Or.inl rfl
    · exact Or.inr (Or.inr hb)

/-! ## All ancestors -/

theorem registered_of_mem_mro (ha : a ∈ h.mro c) : h.Registered c :=
  Decidable.of_not_not fun hno => by
    rw [mro_of_not_registered hno] at ha
    exact List.not_mem_nil ha

/-- Induction from a superclass down: what holds of it, and of every class with
a base below it that this holds of, holds of all classes below it. -/
theorem WellFormed.below_induction (wf : h.WellFormed) {motive : ClassId → Prop} (self : motive a)
    (derived : ∀ id ancestors, h.Derived id ancestors → ∀ b ∈ h.bases id, motive b → motive id)
    (ha : a ∈ h.mro c) : motive c := by
  have hc := registered_of_mem_mro ha
  revert ha
  refine wf.induction (motive := fun c => a ∈ h.mro c → motive c) ?_ ?_ c hc
  · intro ha
    rw [wf.root_mro] at ha
    rwa [← List.mem_singleton.mp ha]
  · intro id ancestors hd ih ha
    rcases (hd.mem_mro_iff wf).mp ha with rfl | ⟨b, hb, hab⟩
    · exact self
    · exact derived id ancestors hd b hb ((ih b hb).2 hab)

/-- Ancestors stand at the same place or a smaller one. -/
theorem index_le_of_mem_mro (wf : h.WellFormed) (ha : a ∈ h.mro c) : a.index ≤ c.index := by
  refine wf.below_induction (motive := fun c => a.index ≤ c.index) (Nat.le_refl _) ?_ ha
  intro id ancestors hd b hb hle
  exact Nat.le_trans hle (Nat.le_of_lt (hd.bases_lt b hb))

theorem ancestor_registered (wf : h.WellFormed) (ha : a ∈ h.mro c) : h.Registered a :=
  Nat.lt_of_le_of_lt (index_le_of_mem_mro wf ha) (registered_of_mem_mro ha)

theorem eq_of_mem_mro_of_mem_mro (wf : h.WellFormed) (hab : a ∈ h.mro b) (hba : b ∈ h.mro a) :
    a = b := by
  have hle := index_le_of_mem_mro wf hab
  have hge := index_le_of_mem_mro wf hba
  cases a; cases b
  exact congrArg ClassId.mk (Nat.le_antisymm hle hge)

/-- **Linearizations are monotone.** -/
theorem mro_sublist (wf : h.WellFormed) (ha : a ∈ h.mro c) : (h.mro a).Sublist (h.mro c) := by
  refine wf.below_induction (motive := fun c => (h.mro a).Sublist (h.mro c))
    (List.Sublist.refl _) ?_ ha
  intro id ancestors hd b hb hsub
  rw [hd.mro_eq]
  exact hsub.trans ((hd.mro_base_sublist hb).cons id)

theorem root_mem_mro (wf : h.WellFormed) (hc : h.Registered c) : .root ∈ h.mro c := by
  refine wf.induction (motive := fun c => .root ∈ h.mro c) ?_ ?_ c hc
  · exact mem_mro_self wf wf.root_registered
  · intro id ancestors hd ih
    obtain ⟨b, rest, hb⟩ := List.exists_cons_of_ne_nil hd.bases_ne_nil
    have hmem : b ∈ h.bases id := by rw [hb]; exact List.mem_cons_self
    exact (hd.mem_mro_iff wf).mpr (Or.inr ⟨b, hmem, (ih b hmem).2⟩)

/-! ## Paths of base edges -/

theorem mem_mro_of_mem_bases (wf : h.WellFormed) (hb : b ∈ h.bases c) : b ∈ h.mro c := by
  have hc : h.Registered c := Decidable.of_not_not fun hno => by
    rw [bases_of_not_registered hno] at hb
    exact List.not_mem_nil hb
  have hroot : c ≠ .root := fun heq => by
    rw [heq, wf.root_bases] at hb
    exact List.not_mem_nil hb
  obtain ⟨ancestors, hd⟩ := wf.derived c hc hroot
  rw [hd.mro_eq]
  exact List.mem_cons_of_mem c (hd.mem_ancestors_iff.mpr (Or.inl hb))

theorem mem_mro_of_basePath (wf : h.WellFormed) (hc : h.Registered c) (hp : h.BasePath c a) :
    a ∈ h.mro c := by
  induction hp with
  | refl => exact mem_mro_self wf hc
  | tail _ hedge ih => exact (mro_sublist wf ih).subset (mem_mro_of_mem_bases wf hedge)

theorem basePath_of_mem_mro (wf : h.WellFormed) (ha : a ∈ h.mro c) : h.BasePath c a := by
  refine wf.below_induction (motive := fun c => h.BasePath c a) Relation.ReflTransGen.refl ?_ ha
  intro id ancestors hd b hb hpath
  exact Relation.ReflTransGen.head hb hpath

theorem isSubclass_eq_true_iff {sub base : ClassId} :
    h.isSubclass sub base = true ↔ base ∈ h.mro sub := by
  rw [isSubclass, List.contains_eq_mem, decide_eq_true_eq]

/-! ## The subclass order -/

/-- **Membership in a linearization is derivation.** The order that the code
reads off linearizations is the one the base edges span, on registered classes
only, with the root on top. -/
theorem isSubclass_iff_basePath (hr : Reachable h) :
    (∀ sub base, h.isSubclass sub base = true ↔
      h.Registered sub ∧ h.Registered base ∧ h.BasePath sub base)
    ∧ (∀ c, h.Registered c → h.isSubclass c c = true)
    ∧ (∀ a b c, h.isSubclass a b = true → h.isSubclass b c = true → h.isSubclass a c = true)
    ∧ (∀ a b, h.isSubclass a b = true → h.isSubclass b a = true → a = b)
    ∧ (∀ c, h.Registered c → h.isSubclass c .root = true)
    ∧ (∀ sub base, ¬h.Registered sub ∨ ¬h.Registered base → h.isSubclass sub base = false) := by
  have wf := hr.wellFormed
  simp only [isSubclass_eq_true_iff, ← Bool.not_eq_true]
  refine ⟨?_, ?_, ?_, ?_, ?_, ?_⟩
  · intro sub base
    constructor
    · intro hm
      exact ⟨registered_of_mem_mro hm, ancestor_registered wf hm, basePath_of_mem_mro wf hm⟩
    · rintro ⟨hsub, _, hp⟩
      exact mem_mro_of_basePath wf hsub hp
  · intro c hc
    exact mem_mro_self wf hc
  · intro a b c hab hbc
    exact (mro_sublist wf hab).subset hbc
  · intro a b hab hba
    exact eq_of_mem_mro_of_mem_mro wf hba hab
  · intro c hc
    exact root_mem_mro wf hc
  · rintro sub base (hno | hno) hm
    · exact hno (registered_of_mem_mro hm)
    · exact hno (ancestor_registered wf hm)

/-- The shared class of the diamond is reached from its last one. -/
theorem basePath_diamond : Reachable diamond ∧ diamond.BasePath ⟨4⟩ ⟨1⟩ := by
  have hsub : diamond.isSubclass ⟨4⟩ ⟨1⟩ = true := by decide +kernel
  exact ⟨reachable_diamond, (((isSubclass_iff_basePath reachable_diamond).1 ⟨4⟩ ⟨1⟩).mp hsub).2.2⟩

end Bindery.Hierarchy
