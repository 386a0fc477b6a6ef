import Mathlib.Data.List.Perm.Subperm
import Bindery.Proofs.Hierarchy.Subclass

/-!
# Order inside a linearization

A linearization names each class once (`nodup_mro`) and sorts the classes: no
class stands behind one of its superclasses (`mro_pairwise`). Read backwards,
as a lineage, it starts at the root and ends with the class itself.

The order between unrelated classes is up to the merge, so the linearization
of an ancestor is in general only a subsequence, and so is its base list: no
order that an ancestor fixes is reversed (`mro_keeps_ancestor_order`). It is
the whole end of the linearization, that is, the ancestor's lineage is a
beginning, where the superclasses form a chain (`ancestry_prefix_of_chain`).
-/

namespace Bindery.Hierarchy

variable {h : Hierarchy} {a b c id : ClassId}

/-! ## Lists without repetition -/

theorem not_pair_sublist_swap {α : Type} {x y : α} {l : List α} (hnodup : l.Nodup)
    (hxy : [x, y].Sublist l) : ¬[y, x].Sublist l := by
  induction l with
  | nil => cases hxy
  | cons z l ih =>
      obtain ⟨hz, hnodup⟩ := List.nodup_cons.mp hnodup
      intro hyx
      cases hxy with
      | cons _ hxy =>
          cases hyx with
          | cons _ hyx => exact ih hnodup hxy hyx
          | cons_cons _ _ => exact hz (hxy.subset (List.mem_cons_of_mem x List.mem_cons_self))
      | cons_cons _ hy =>
          cases hyx with
          | cons _ hyx => exact hz (hyx.subset (List.mem_cons_of_mem y List.mem_cons_self))
          | cons_cons _ _ => exact hz (List.singleton_sublist.mp hy)

theorem sublist_of_cons_sublist_append {α : Type} {x : α} {t l r : List α} (hx : x ∉ l)
    (hsub : (x :: t).Sublist (l ++ x :: r)) : t.Sublist r := by
  induction l with
  | nil => exact List.cons_sublist_cons.mp hsub
  | cons y l ih =>
      cases hsub with
      | cons _ hsub => exact ih (fun hmem => hx (List.mem_cons_of_mem y hmem)) hsub
      | cons_cons _ _ => exact absurd List.mem_cons_self hx

/-! ## Linearizations are sorted -/

theorem mro_eq_cons (wf : h.WellFormed) (hid : h.Registered id) : ∃ t, h.mro id = id :: t := by
  by_cases hroot : id = .root
  · exact ⟨[], by rw [hroot, wf.root_mro]⟩
  · obtain ⟨ancestors, hd⟩ := wf.derived id hid hroot
    exact ⟨ancestors, hd.mro_eq⟩

theorem nodup_mro (wf : h.WellFormed) (c : ClassId) : (h.mro c).Nodup := by
  by_cases hc : h.Registered c
  · by_cases hroot : c = .root
    · rw [hroot, wf.root_mro]
      exact List.pairwise_singleton _ _
    · obtain ⟨ancestors, hd⟩ := wf.derived c hc hroot
      rw [hd.mro_eq]
      refine List.nodup_cons.mpr ⟨?_, C3.nodup_of_merge hd.linearize⟩
      intro hmem
      rcases hd.mem_ancestors_iff.mp hmem with hb | ⟨b, hb, hcb⟩
      · exact Nat.lt_irrefl _ (hd.bases_lt c hb)
      · exact Nat.not_le_of_lt (hd.bases_lt b hb) (index_le_of_mem_mro wf hcb)
  · rw [mro_of_not_registered hc]
    exact List.nodup_nil

/-- A proper superclass stands behind the class, in its own linearization and
so, by monotonicity, in every linearization that holds the class. -/
theorem pair_sublist_mro (wf : h.WellFormed) (hac : a ∈ h.mro c) (hba : b ∈ h.mro a)
    (hne : b ≠ a) : [a, b].Sublist (h.mro c) := by
  obtain ⟨t, ht⟩ := mro_eq_cons wf (registered_of_mem_mro hba)
  have hbt : b ∈ t := by
    rw [ht] at hba
    exact (List.mem_cons.mp hba).resolve_left hne
  have hpair : [a, b].Sublist (h.mro a) := by
    rw [ht]
    exact (List.singleton_sublist.mpr hbt).cons_cons a
  exact hpair.trans (mro_sublist wf hac)

/-- **Linearizations are sorted**, most specific first. -/
theorem mro_pairwise (wf : h.WellFormed) (c : ClassId) :
    (h.mro c).Pairwise fun a b => a ∉ h.mro b := by
  rw [List.pairwise_iff_forall_sublist]
  intro a b hab hmem
  have hne : a ≠ b := by
    have hnodup := (nodup_mro wf c).sublist hab
    simpa using hnodup
  exact not_pair_sublist_swap (nodup_mro wf c) hab
    (pair_sublist_mro wf (hab.subset (by simp)) hmem hne)

/-! ## Orders that ancestors fix -/

theorem bases_sublist_mro (wf : h.WellFormed) (c : ClassId) : (h.bases c).Sublist (h.mro c) := by
  by_cases hc : h.Registered c
  · by_cases hroot : c = .root
    · rw [hroot, wf.root_bases]
      exact List.nil_sublist _
    · obtain ⟨ancestors, hd⟩ := wf.derived c hc hroot
      have hrow : h.bases c ∈ (h.bases c).map h.mro ++ [h.bases c] :=
        List.mem_append_right _ (List.mem_singleton.mpr rfl)
      rw [hd.mro_eq]
      exact (C3.sublist_of_merge hd.linearize hrow).cons c
  · rw [bases_of_not_registered hc]
    exact List.nil_sublist _

/-- **A linearization reverses no order of an ancestor.** The linearization
and the base list of every ancestor are kept as subsequences, and of two
classes that stand in one of them the later one is never in front. -/
theorem mro_keeps_ancestor_order (hr : Reachable h) (ha : a ∈ h.mro c) :
    (h.mro a).Sublist (h.mro c) ∧ (h.bases a).Sublist (h.mro c)
    ∧ ∀ x y, [x, y].Sublist (h.mro a) ∨ [x, y].Sublist (h.bases a) →
        [x, y].Sublist (h.mro c) ∧ ¬[y, x].Sublist (h.mro c) := by
  have wf := hr.wellFormed
  have hmro := mro_sublist wf ha
  have hbases := (bases_sublist_mro wf a).trans hmro
  refine ⟨hmro, hbases, ?_⟩
  intro x y hxy
  have hkept : [x, y].Sublist (h.mro c) := hxy.elim (·.trans hmro) (·.trans hbases)
  exact ⟨hkept, not_pair_sublist_swap (nodup_mro wf c) hkept⟩

/-- The last class of the diamond keeps its two bases in their order, and each
of them in front of what it derives from. -/
theorem mro_diamond_keeps_order :
    Reachable diamond ∧ ⟨4⟩ ∈ diamond.mro ⟨4⟩ ∧ ⟨3⟩ ∈ diamond.mro ⟨4⟩
    ∧ ¬[⟨3⟩, ⟨2⟩].Sublist (diamond.mro ⟨4⟩) ∧ ¬[⟨1⟩, ⟨3⟩].Sublist (diamond.mro ⟨4⟩) := by
  have hself : ⟨4⟩ ∈ diamond.mro ⟨4⟩ := by decide +kernel
  have hbase : ⟨3⟩ ∈ diamond.mro ⟨4⟩ := by decide +kernel
  have hbases : [⟨2⟩, ⟨3⟩].Sublist (diamond.bases ⟨4⟩) := by decide +kernel
  have hmro : [⟨3⟩, ⟨1⟩].Sublist (diamond.mro ⟨3⟩) := by decide +kernel
  refine ⟨reachable_diamond, hself, hbase, ?_, ?_⟩
  · exact ((mro_keeps_ancestor_order reachable_diamond hself).2.2 _ _ (Or.inr hbases)).2
  · exact ((mro_keeps_ancestor_order reachable_diamond hbase).2.2 _ _ (Or.inl hmro)).2

/-! ## Lineages -/

theorem mem_ancestry : a ∈ h.ancestry c ↔ a ∈ h.mro c := List.mem_reverse

theorem ancestry_of_not_registered (hc : ¬h.Registered c) : h.ancestry c = [] := by
  rw [ancestry, mro_of_not_registered hc, List.reverse_nil]

theorem ancestry_pairwise (wf : h.WellFormed) (c : ClassId) :
    (h.ancestry c).Pairwise fun a b => b ∉ h.mro a :=
  List.pairwise_reverse.mpr (mro_pairwise wf c)

theorem getLast?_ancestry (wf : h.WellFormed) (hid : h.Registered id) :
    (h.ancestry id).getLast? = some id := by
  obtain ⟨t, ht⟩ := mro_eq_cons wf hid
  rw [ancestry, List.getLast?_reverse, ht, List.head?_cons]

theorem root_prefix_ancestry (wf : h.WellFormed) (hc : h.Registered c) :
    [.root] <+: h.ancestry c := by
  have hroot : .root ∈ h.ancestry c := mem_ancestry.mpr (root_mem_mro wf hc)
  have hsorted := ancestry_pairwise wf c
  have hmem : ∀ x ∈ h.ancestry c, x ∈ h.mro c := fun x => mem_ancestry.mp
  cases hl : h.ancestry c with
  | nil => rw [hl] at hroot; exact absurd hroot List.not_mem_nil
  | cons x l =>
      rw [hl] at hroot hsorted hmem
      rcases List.mem_cons.mp hroot with rfl | hroot
      · exact List.prefix_append [.root] l
      · have hx := ancestor_registered wf (hmem x List.mem_cons_self)
        exact absurd (root_mem_mro wf hx) ((List.pairwise_cons.mp hsorted).1 _ hroot)

/-- Where any two superclasses of a class are related, the lineage of each of
them is a beginning of the lineage of the class. -/
theorem ancestry_prefix_of_chain (wf : h.WellFormed)
    (hchain : ∀ x ∈ h.mro c, ∀ y ∈ h.mro c, x ∈ h.mro y ∨ y ∈ h.mro x) (ha : a ∈ h.mro c) :
    h.ancestry a <+: h.ancestry c := by
  obtain ⟨t, ht⟩ := mro_eq_cons wf (ancestor_registered wf ha)
  obtain ⟨l, r, hlr⟩ := List.append_of_mem ha
  have hnodup := nodup_mro wf c
  have hsorted := mro_pairwise wf c
  rw [hlr, List.nodup_append] at hnodup
  rw [hlr, List.pairwise_append] at hsorted
  have hal : a ∉ l := fun hmem => hnodup.2.2 a hmem a List.mem_cons_self rfl
  have htr : t.Sublist r := by
    have hsub := mro_sublist wf ha
    rw [ht, hlr] at hsub
    exact sublist_of_cons_sublist_append hal hsub
  have hrt : r ⊆ t := fun x hx => by
    have hxc : x ∈ h.mro c := by
      rw [hlr]
      exact List.mem_append_right l (List.mem_cons_of_mem a hx)
    have hax : a ∉ h.mro x := (List.pairwise_cons.mp hsorted.2.1).1 x hx
    have hxa : x ∈ h.mro a := (hchain a ha x hxc).resolve_left hax
    rw [ht] at hxa
    refine (List.mem_cons.mp hxa).resolve_left ?_
    intro heq
    exact (List.nodup_cons.mp hnodup.2.1).1 (heq ▸ hx)
  have hlen : r.length ≤ t.length :=
    (List.subperm_of_subset (List.nodup_cons.mp hnodup.2.1).2 hrt).length_le
  obtain rfl := htr.eq_of_length_le hlen
  rw [ancestry, ancestry, List.reverse_prefix, ht, hlr]
  exact List.suffix_append l (a :: t)

end Bindery.Hierarchy
