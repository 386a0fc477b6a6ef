import Bindery.Proofs.Hierarchy.Lineage
import Bindery.Proofs.Hierarchy.Order

/-!
# Common ancestors

The common ancestor of several classes is where their lineages part: the last
class of the longest beginning they share (`IsTrunk`). There is one unless the
list is empty or holds a place without a class, since all lineages begin at the
root (`exists_commonAncestor`), and it is always a superclass of all of them.
How close it comes to a most specific one is the other subject of this file.

A class on the trunk cannot derive from the last one, since lineages are
sorted. So the answer is most specific unless some common superclass derives
from it that the lineages reach only after they have parted
(`IsTrunk.mostSpecific_iff`). Lineages part too early where unrelated
superclasses of one class come between the shared ones, as in a diamond.
A hierarchy gives a most specific answer every time exactly when this cannot
happen: when the superclasses of each class form a chain.
-/

namespace Bindery.Hierarchy

variable {h : Hierarchy} {ids p : List ClassId} {a c d m : ClassId}

/-! ## Superclasses in common -/

def CommonSuperclass (h : Hierarchy) (ids : List ClassId) (c : ClassId) : Prop :=
  ∀ id ∈ ids, h.isSubclass id c = true

/-- No proper subclass of `c` is a superclass of all the classes too. -/
def MostSpecific (h : Hierarchy) (ids : List ClassId) (c : ClassId) : Prop :=
  h.CommonSuperclass ids c ∧ ∀ d, h.CommonSuperclass ids d → h.isSubclass d c = true → d = c

/-- The longest beginning that the lineages share. -/
structure IsTrunk (h : Hierarchy) (ids p : List ClassId) : Prop where
  shared : ∀ id ∈ ids, p <+: h.ancestry id
  longest : ∀ q, (∀ id ∈ ids, q <+: h.ancestry id) → q <+: p

theorem isTrunk_trunk (first : ClassId) (rest : List ClassId) :
    h.IsTrunk (first :: rest) (Lineage.trunk (h.ancestry first) (rest.map h.ancestry)) := by
  have htrunk : ∀ q, q <+: Lineage.trunk (h.ancestry first) (rest.map h.ancestry) ↔
      ∀ id ∈ first :: rest, q <+: h.ancestry id := fun q => by
    simp only [Lineage.prefix_trunk_iff, List.forall_mem_map, List.forall_mem_cons,
      List.isPrefixOf_iff_prefix]
  constructor
  · exact (htrunk _).mp (List.prefix_refl _)
  · intro q hq
    exact (htrunk q).mpr hq

/-- The common ancestor is the last class of the trunk, if there is any. -/
theorem exists_trunk (hids : ids ≠ []) :
    ∃ p, h.IsTrunk ids p ∧ ∀ c, p.getLast? = some c → h.commonAncestor ids = .ok c := by
  obtain ⟨first, rest, rfl⟩ := List.exists_cons_of_ne_nil hids
  refine ⟨_, isTrunk_trunk first rest, fun c hc => ?_⟩
  exact Lineage.commonAncestor_cons_eq_ok_iff.mpr hc

/-- A place that holds no class has no lineage, so nothing is shared with it. -/
theorem commonAncestor_of_not_registered (hm : m ∈ ids) (hno : ¬h.Registered m) :
    h.commonAncestor ids = .error .noCommonRoot := by
  obtain ⟨first, rest, rfl⟩ := List.exists_cons_of_ne_nil (List.ne_nil_of_mem hm)
  have hshared := (isTrunk_trunk (h := h) first rest).shared m hm
  rw [ancestry_of_not_registered hno, List.prefix_nil] at hshared
  exact Lineage.commonAncestor_cons_eq_error_iff.mpr ⟨hshared, rfl⟩

/-! ## The last class of the trunk -/

theorem IsTrunk.commonSuperclass (ht : h.IsTrunk ids p) (ha : a ∈ p) :
    h.CommonSuperclass ids a := fun id hid =>
  isSubclass_eq_true_iff.mpr (mem_ancestry.mp ((ht.shared id hid).subset ha))

theorem IsTrunk.exists_getLast? (wf : h.WellFormed) (ht : h.IsTrunk ids p)
    (hreg : ∀ id ∈ ids, h.Registered id) : ∃ c, p.getLast? = some c := by
  have hroot : [.root] <+: p := ht.longest _ fun id hid => root_prefix_ancestry wf (hreg id hid)
  have hmem : ClassId.root ∈ p := hroot.subset List.mem_cons_self
  exact ⟨p.getLast (List.ne_nil_of_mem hmem), List.getLast?_eq_some_getLast _⟩

/-- Of the classes on the trunk only the last one derives from the last one. -/
theorem IsTrunk.eq_of_mem (wf : h.WellFormed) (ht : h.IsTrunk ids p) (hids : ids ≠ [])
    (hc : p.getLast? = some c) (hd : d ∈ p) (hdc : h.isSubclass d c = true) : d = c := by
  obtain ⟨first, rest, rfl⟩ := List.exists_cons_of_ne_nil hids
  obtain ⟨q, rfl⟩ := List.getLast?_eq_some_iff.mp hc
  have hsorted := (ancestry_pairwise wf first).sublist (ht.shared first List.mem_cons_self).sublist
  rcases List.mem_append.mp hd with hd | hd
  · have hnot := (List.pairwise_append.mp hsorted).2.2 d hd c (List.mem_singleton.mpr rfl)
    exact absurd (isSubclass_eq_true_iff.mp hdc) hnot
  · exact List.mem_singleton.mp hd

theorem IsTrunk.mostSpecific_iff (wf : h.WellFormed) (ht : h.IsTrunk ids p) (hids : ids ≠ [])
    (hc : p.getLast? = some c) :
    h.MostSpecific ids c ↔
      ∀ d, h.CommonSuperclass ids d → h.isSubclass d c = true → d ∈ p := by
  have hcp : c ∈ p := List.mem_of_getLast? hc
  constructor
  · intro hmost d hd hdc
    rw [hmost.2 d hd hdc]
    exact hcp
  · intro hall
    exact ⟨ht.commonSuperclass hcp, fun d hd hdc => ht.eq_of_mem wf hids hc (hall d hd hdc) hdc⟩

/-- One of the classes is the answer when its whole lineage is shared. -/
theorem IsTrunk.eq_iff_of_mem (wf : h.WellFormed) (ht : h.IsTrunk ids p)
    (hc : p.getLast? = some c) (hm : m ∈ ids) (hreg : h.Registered m) :
    c = m ↔ ∀ id ∈ ids, h.ancestry m <+: h.ancestry id := by
  have hlast := getLast?_ancestry wf hreg
  constructor
  · rintro rfl id hid
    obtain ⟨l, hl⟩ := List.getLast?_eq_some_iff.mp hlast
    have hpre := ht.shared c hm
    rw [hl] at hpre ⊢
    rcases List.prefix_concat_iff.mp hpre with rfl | hpl
    · exact ht.shared id hid
    · have hsorted := ancestry_pairwise wf c
      rw [hl] at hsorted
      have hcl : c ∈ l := hpl.subset (List.mem_of_getLast? hc)
      have hnot := (List.pairwise_append.mp hsorted).2.2 c hcl c (List.mem_singleton.mpr rfl)
      exact absurd (mem_mro_self wf hreg) hnot
  · intro hall
    have hpm : p = h.ancestry m :=
      (ht.shared m hm).eq_of_length_le (ht.longest _ hall).length_le
    rw [hpm, hlast] at hc
    exact (Option.some.inj hc).symm

/-! ## When there is an answer -/

/-- For registered classes there is one: all lineages begin at the root. -/
theorem exists_commonAncestor (wf : h.WellFormed) (hids : ids ≠ [])
    (hreg : ∀ id ∈ ids, h.Registered id) :
    ∃ p c, h.IsTrunk ids p ∧ p.getLast? = some c ∧ h.commonAncestor ids = .ok c := by
  obtain ⟨p, ht, hp⟩ := exists_trunk (h := h) hids
  obtain ⟨c, hc⟩ := ht.exists_getLast? wf hreg
  exact ⟨p, c, ht, hc, hp c hc⟩

theorem CommonSuperclass.registered (wf : h.WellFormed) (hids : ids ≠ [])
    (hc : h.CommonSuperclass ids c) : h.Registered c := by
  obtain ⟨id, hid⟩ := List.exists_mem_of_ne_nil ids hids
  exact ancestor_registered wf (isSubclass_eq_true_iff.mp (hc id hid))

/-- **How a common ancestor comes out.** An error says what is wrong with the
list, and there is no error besides the two; the answer is a class of the
hierarchy above all the given ones. -/
theorem commonAncestor_outcome (hr : Reachable h) (ids : List ClassId) :
    (h.commonAncestor ids = .error .empty ↔ ids = [])
    ∧ (h.commonAncestor ids = .error .noCommonRoot ↔ ids ≠ [] ∧ ∃ id ∈ ids, ¬h.Registered id)
    ∧ (ids ≠ [] → (∀ id ∈ ids, h.Registered id) →
        ∃ p c, h.IsTrunk ids p ∧ p.getLast? = some c ∧ h.commonAncestor ids = .ok c
          ∧ h.Registered c ∧ h.CommonSuperclass ids c) := by
  have wf := hr.wellFormed
  rcases eq_or_ne ids [] with rfl | hids
  · exact ⟨iff_of_true rfl rfl, iff_of_false nofun fun hne => hne.1 rfl, fun hne => absurd rfl hne⟩
  · by_cases hreg : ∀ id ∈ ids, h.Registered id
    · obtain ⟨p, c, ht, hc, hok⟩ := exists_commonAncestor wf hids hreg
      have hcommon := ht.commonSuperclass (List.mem_of_getLast? hc)
      have hall : ¬∃ id ∈ ids, ¬h.Registered id := fun ⟨id, hid, hno⟩ => hno (hreg id hid)
      refine ⟨?_, ?_, fun _ _ => ⟨p, c, ht, hc, hok, hcommon.registered wf hids, hcommon⟩⟩
      · rw [hok]
        exact iff_of_false nofun hids
      · rw [hok]
        exact iff_of_false nofun fun hno => hall hno.2
    · have hsome : ∃ id ∈ ids, ¬h.Registered id := by simpa using hreg
      obtain ⟨id, hid, hno⟩ := hsome
      rw [commonAncestor_of_not_registered hid hno]
      refine ⟨?_, ?_, fun _ hall => absurd hall hreg⟩
      · exact iff_of_false nofun hids
      · exact iff_of_true rfl ⟨hids, id, hid, hno⟩

/-- A class next to a place past the end of the table, and two classes that
are both there. -/
theorem commonAncestor_diamond_outcome :
    Reachable diamond ∧ diamond.commonAncestor [⟨2⟩, ⟨5⟩] = .error .noCommonRoot
    ∧ ∃ c, diamond.commonAncestor [⟨2⟩, ⟨4⟩] = .ok c ∧ diamond.Registered c
      ∧ diamond.CommonSuperclass [⟨2⟩, ⟨4⟩] c := by
  have hno : ¬diamond.Registered ⟨5⟩ := by decide +kernel
  have hreg : ∀ id ∈ ([⟨2⟩, ⟨4⟩] : List ClassId), diamond.Registered id := by decide +kernel
  obtain ⟨p, c, -, -, hc⟩ :=
    (commonAncestor_outcome reachable_diamond _).2.2 (List.cons_ne_nil ⟨2⟩ [⟨4⟩]) hreg
  refine ⟨reachable_diamond, ?_, c, hc⟩
  exact (commonAncestor_outcome reachable_diamond [⟨2⟩, ⟨5⟩]).2.1.mpr
    ⟨List.cons_ne_nil _ _, ⟨5⟩, by simp, hno⟩

/-! ## Chains of superclasses -/

/-- Any two superclasses of a class are related. -/
def Chains (h : Hierarchy) : Prop :=
  ∀ c a b, h.isSubclass c a = true → h.isSubclass c b = true →
    h.isSubclass a b = true ∨ h.isSubclass b a = true

theorem Chains.ancestry_prefix_ancestry (wf : h.WellFormed) (hch : h.Chains)
    (hsub : h.isSubclass c a = true) : h.ancestry a <+: h.ancestry c := by
  refine ancestry_prefix_of_chain wf (fun x hx y hy => ?_) (isSubclass_eq_true_iff.mp hsub)
  have hrel := hch c y x (isSubclass_eq_true_iff.mpr hy) (isSubclass_eq_true_iff.mpr hx)
  rwa [isSubclass_eq_true_iff, isSubclass_eq_true_iff] at hrel

theorem Chains.mostSpecific (wf : h.WellFormed) (hch : h.Chains) (ht : h.IsTrunk ids p)
    (hids : ids ≠ []) (hc : p.getLast? = some c) : h.MostSpecific ids c := by
  refine (ht.mostSpecific_iff wf hids hc).mpr ?_
  intro d hd hdc
  have hpre : h.ancestry d <+: p :=
    ht.longest _ fun id hid => hch.ancestry_prefix_ancestry wf (hd id hid)
  have hdreg := registered_of_mem_mro (isSubclass_eq_true_iff.mp hdc)
  exact hpre.subset (mem_ancestry.mpr (mem_mro_self wf hdreg))

/-- Asked for a class and one of its superclasses, a most specific answer is
the superclass, so the whole lineage of the superclass is shared. -/
theorem ancestry_prefix_of_mostSpecific (wf : h.WellFormed)
    (hmost : h.MostSpecific [c, a] d) (hd : h.commonAncestor [c, a] = .ok d)
    (hsub : h.isSubclass c a = true) : h.ancestry a <+: h.ancestry c := by
  have hac := isSubclass_eq_true_iff.mp hsub
  have ha := ancestor_registered wf hac
  have hself : h.isSubclass a a = true := isSubclass_eq_true_iff.mpr (mem_mro_self wf ha)
  have hcommon : h.CommonSuperclass [c, a] a := by
    intro id hid
    rcases List.mem_pair.mp hid with rfl | rfl
    · exact hsub
    · exact hself
  have had : a = d := hmost.2 a hcommon (hmost.1 a (by simp))
  have hreg : ∀ id ∈ [c, a], h.Registered id := by
    intro id hid
    rcases List.mem_pair.mp hid with rfl | rfl
    · exact registered_of_mem_mro hac
    · exact ha
  obtain ⟨p, e, ht, he, hok⟩ := exists_commonAncestor wf (List.cons_ne_nil c [a]) hreg
  have hed : e = d := Except.ok.inj (hok.symm.trans hd)
  have hall := (ht.eq_iff_of_mem wf he (m := a) (by simp) ha).mp (hed.trans had.symm)
  exact hall c List.mem_cons_self

/-- **What the common ancestor is.** The last class on which the lineages
agree, a superclass of all the classes; most specific unless some common
superclass that derives from it is off the trunk; and one of the classes
themselves exactly when its whole lineage is shared.
Every answer of a hierarchy is most specific exactly when the superclasses of
each class form a chain. -/
theorem commonAncestor_mostSpecific_iff (hr : Reachable h) :
    (∀ ids, ids ≠ [] → (∀ id ∈ ids, h.Registered id) →
      ∃ p c, h.IsTrunk ids p ∧ p.getLast? = some c ∧ h.commonAncestor ids = .ok c
        ∧ h.CommonSuperclass ids c
        ∧ (h.MostSpecific ids c ↔
          ∀ d, h.CommonSuperclass ids d → h.isSubclass d c = true → d ∈ p)
        ∧ ∀ m ∈ ids, c = m ↔ ∀ id ∈ ids, h.ancestry m <+: h.ancestry id)
    ∧ ((∀ ids, ids ≠ [] → (∀ id ∈ ids, h.Registered id) →
        ∃ c, h.commonAncestor ids = .ok c ∧ h.MostSpecific ids c) ↔ h.Chains) := by
  have wf := hr.wellFormed
  refine ⟨?_, ?_, ?_⟩
  · intro ids hids hreg
    obtain ⟨p, ht, hp⟩ := exists_trunk (h := h) hids
    obtain ⟨c, hc⟩ := ht.exists_getLast? wf hreg
    exact ⟨p, c, ht, hc, hp c hc, ht.commonSuperclass (List.mem_of_getLast? hc),
      ht.mostSpecific_iff wf hids hc, fun m hm => ht.eq_iff_of_mem wf hc hm (hreg m hm)⟩
  · intro hall c a b hca hcb
    have hpre : ∀ x, h.isSubclass c x = true → h.ancestry x <+: h.ancestry c := by
      intro x hx
      have hxc := isSubclass_eq_true_iff.mp hx
      obtain ⟨d, hd, hmost⟩ := hall [c, x] (List.cons_ne_nil c [x]) fun id hid => by
        rcases List.mem_pair.mp hid with rfl | rfl
        · exact registered_of_mem_mro hxc
        · exact ancestor_registered wf hxc
      exact ancestry_prefix_of_mostSpecific wf hmost hd hx
    have hself : ∀ x, h.isSubclass c x = true → x ∈ h.ancestry x := by
      intro x hx
      have hxc := isSubclass_eq_true_iff.mp hx
      exact mem_ancestry.mpr (mem_mro_self wf (ancestor_registered wf hxc))
    simp only [isSubclass_eq_true_iff, ← mem_ancestry]
    rcases List.prefix_or_prefix_of_prefix (hpre a hca) (hpre b hcb) with hab | hba
    · exact Or.inr (hab.subset (hself a hca))
    · exact Or.inl (hba.subset (hself b hcb))
  · intro hch ids hids hreg
    obtain ⟨p, ht, hp⟩ := exists_trunk (h := h) hids
    obtain ⟨c, hc⟩ := ht.exists_getLast? wf hreg
    exact ⟨c, hp c hc, hch.mostSpecific wf ht hids hc⟩

/-- Of the last class of the diamond and one of its bases, the answer is not
the base, which is a superclass of both, but the class above it. -/
theorem commonAncestor_diamond_not_mostSpecific :
    Reachable diamond ∧ diamond.commonAncestor [⟨4⟩, ⟨2⟩] = .ok ⟨1⟩
    ∧ diamond.CommonSuperclass [⟨4⟩, ⟨2⟩] ⟨2⟩ ∧ diamond.isSubclass ⟨2⟩ ⟨1⟩ = true
    ∧ ¬diamond.MostSpecific [⟨4⟩, ⟨2⟩] ⟨1⟩ := by
  have hcommon : diamond.CommonSuperclass [⟨4⟩, ⟨2⟩] ⟨2⟩ := by
    intro id hid
    rcases List.mem_pair.mp hid with rfl | rfl <;> decide +kernel
  have hbelow : diamond.isSubclass ⟨2⟩ ⟨1⟩ = true := by decide +kernel
  refine ⟨reachable_diamond, by decide +kernel, hcommon, hbelow, ?_⟩
  intro hmost
  have heq : (⟨2⟩ : ClassId) = ⟨1⟩ := hmost.2 ⟨2⟩ hcommon hbelow
  cases heq

/-- The two bases of the last class meet in the class they share. -/
theorem commonAncestor_diamond :
    Reachable diamond ∧ ([⟨2⟩, ⟨3⟩] : List ClassId) ≠ []
    ∧ (∀ id ∈ ([⟨2⟩, ⟨3⟩] : List ClassId), diamond.Registered id)
    ∧ ∃ c, diamond.commonAncestor [⟨2⟩, ⟨3⟩] = .ok c ∧ diamond.CommonSuperclass [⟨2⟩, ⟨3⟩] c := by
  have hreg : ∀ id ∈ ([⟨2⟩, ⟨3⟩] : List ClassId), diamond.Registered id := by
    intro id hid
    rcases List.mem_pair.mp hid with rfl | rfl <;> decide +kernel
  obtain ⟨p, c, -, -, hc, hcommon, -⟩ :=
    (commonAncestor_mostSpecific_iff reachable_diamond).1 _ (List.cons_ne_nil ⟨2⟩ [⟨3⟩]) hreg
  exact ⟨reachable_diamond, List.cons_ne_nil _ _, hreg, c, hc, hcommon⟩

end Bindery.Hierarchy
