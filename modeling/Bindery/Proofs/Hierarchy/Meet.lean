import Bindery.Proofs.Hierarchy.CommonAncestor

/-!
# Meets in a tree

Where no superclass of some classes has a second base, these superclasses form
a tree with the root on top. There the lineage of a superclass is a beginning
of the lineage of every class below it, so lineages part exactly where the
superclasses do: the common ancestor is the meet of the classes in the
subclass order (`OnTree.isMeet`). A meet is known by its superclasses alone,
and these are the superclasses in common, so parts of a list may be answered
first and the answers put together.

Both laws need the tree. Of the last class of a diamond and a second class
with the same bases the answer is the first of the two bases, and that one
meets the other base further up than the three classes together do.
-/

namespace Bindery.Hierarchy

variable {h : Hierarchy} {ids p xs ys : List ClassId} {a c d x y : ClassId}

/-! ## Single bases -/

/-- Registered classes none of whose superclasses, themselves included, has a
second base. -/
structure OnTree (h : Hierarchy) (ids : List ClassId) : Prop where
  ne_nil : ids ≠ []
  registered : ∀ id ∈ ids, h.Registered id
  single : ∀ id ∈ ids, ∀ a ∈ h.mro id, (h.bases a).length ≤ 1

/-- With single bases the superclasses of a class form a chain. -/
theorem related_of_single (wf : h.WellFormed) (hsingle : ∀ a ∈ h.mro c, (h.bases a).length ≤ 1) :
    ∀ x ∈ h.mro c, ∀ y ∈ h.mro c, x ∈ h.mro y ∨ y ∈ h.mro x := by
  intro x hx
  have hc := registered_of_mem_mro hx
  revert hsingle x hx
  refine wf.induction (motive := fun c => (∀ a ∈ h.mro c, (h.bases a).length ≤ 1) →
    ∀ x ∈ h.mro c, ∀ y ∈ h.mro c, x ∈ h.mro y ∨ y ∈ h.mro x) ?_ ?_ c hc
  · intro _ x hx y hy
    rw [wf.root_mro] at hx hy
    rw [List.mem_singleton.mp hx, List.mem_singleton.mp hy]
    exact Or.inl (mem_mro_self wf wf.root_registered)
  · intro id ancestors hd ih hsingle x hx y hy
    have hmem : ∀ a, a ∈ h.mro id ↔ a = id ∨ ∃ b ∈ h.bases id, a ∈ h.mro b := fun a =>
      hd.mem_mro_iff wf
    rcases (hmem x).mp hx with rfl | ⟨b, hb, hxb⟩
    · exact Or.inr hy
    · rcases (hmem y).mp hy with rfl | ⟨b', hb', hyb'⟩
      · exact Or.inl hx
      · -- both stand above a base, and there is only one
        have hone : (h.bases id).length ≤ 1 := hsingle id (mem_mro_self wf hd.registered)
        obtain rfl : b' = b := by
          obtain ⟨b₀, hb₀⟩ := List.length_eq_one_iff.mp
            (Nat.le_antisymm hone (List.length_pos_of_mem hb))
          rw [hb₀, List.mem_singleton] at hb hb'
          rw [hb, hb']
        have hsingle' : ∀ a ∈ h.mro b', (h.bases a).length ≤ 1 := fun a ha =>
          hsingle a ((hmem a).mpr (Or.inr ⟨b', hb, ha⟩))
        exact (ih b' hb).2 hsingle' x hxb y hyb'

theorem OnTree.ancestry_prefix_ancestry (wf : h.WellFormed) (ht : h.OnTree ids)
    (hc : c ∈ ids) (hsub : h.isSubclass c a = true) : h.ancestry a <+: h.ancestry c :=
  ancestry_prefix_of_chain wf (related_of_single wf (ht.single c hc))
    (isSubclass_eq_true_iff.mp hsub)

theorem OnTree.append (hx : h.OnTree xs) (hy : h.OnTree ys) : h.OnTree (xs ++ ys) where
  ne_nil := List.append_ne_nil_of_left_ne_nil hx.ne_nil ys
  registered := List.forall_mem_append.mpr ⟨hx.registered, hy.registered⟩
  single := List.forall_mem_append.mpr ⟨hx.single, hy.single⟩

/-- Superclasses of classes on a tree are on it. -/
theorem OnTree.of_superclass (wf : h.WellFormed) (ht : h.OnTree ids)
    (hx : h.CommonSuperclass ids x) : h.OnTree [x] where
  ne_nil := List.cons_ne_nil x []
  registered := List.forall_mem_singleton.mpr (hx.registered wf ht.ne_nil)
  single := List.forall_mem_singleton.mpr fun a ha => by
    obtain ⟨id, hid⟩ := List.exists_mem_of_ne_nil ids ht.ne_nil
    have hxid := isSubclass_eq_true_iff.mp (hx id hid)
    exact ht.single id hid a ((mro_sublist wf hxid).subset ha)

/-! ## Meets -/

/-- The superclasses of the class are the superclasses in common. -/
def IsMeet (h : Hierarchy) (ids : List ClassId) (c : ClassId) : Prop :=
  ∀ d, h.CommonSuperclass ids d ↔ h.isSubclass c d = true

theorem IsMeet.commonSuperclass (wf : h.WellFormed) (hm : h.IsMeet ids c)
    (hc : h.Registered c) : h.CommonSuperclass ids c :=
  (hm c).mpr (isSubclass_eq_true_iff.mpr (mem_mro_self wf hc))

theorem IsMeet.unique (wf : h.WellFormed) (hc : h.IsMeet ids c) (hd : h.IsMeet ids d)
    (hcreg : h.Registered c) (hdreg : h.Registered d) : c = d := by
  have hdc : d ∈ h.mro c :=
    isSubclass_eq_true_iff.mp ((hc d).mp (hd.commonSuperclass wf hdreg))
  have hcd : c ∈ h.mro d :=
    isSubclass_eq_true_iff.mp ((hd c).mp (hc.commonSuperclass wf hcreg))
  exact eq_of_mem_mro_of_mem_mro wf hcd hdc

/-- Meets of parts meet where the whole does. -/
theorem IsMeet.append (hx : h.IsMeet xs x) (hy : h.IsMeet ys y) (hc : h.IsMeet [x, y] c) :
    h.IsMeet (xs ++ ys) c := by
  intro d
  rw [← hc d, CommonSuperclass, CommonSuperclass, List.forall_mem_append, List.forall_mem_cons,
    List.forall_mem_singleton]
  exact and_congr (hx d) (hy d)

/-- **On a tree the trunk ends at the meet.** -/
theorem OnTree.isMeet (wf : h.WellFormed) (htree : h.OnTree ids) (ht : h.IsTrunk ids p)
    (hc : p.getLast? = some c) : h.IsMeet ids c := by
  have hcommon := ht.commonSuperclass (List.mem_of_getLast? hc)
  intro d
  constructor
  · intro hd
    obtain ⟨id, hid⟩ := List.exists_mem_of_ne_nil ids htree.ne_nil
    have hdreg := hd.registered wf htree.ne_nil
    have hprefix : h.ancestry d <+: p :=
      ht.longest _ fun id hid => htree.ancestry_prefix_ancestry wf hid (hd id hid)
    have hdp : d ∈ p := hprefix.subset (mem_ancestry.mpr (mem_mro_self wf hdreg))
    have hrelated := related_of_single wf (htree.single id hid)
      c (isSubclass_eq_true_iff.mp (hcommon id hid)) d (isSubclass_eq_true_iff.mp (hd id hid))
    rcases hrelated with hcd | hdc
    · have heq := ht.eq_of_mem wf htree.ne_nil hc hdp (isSubclass_eq_true_iff.mpr hcd)
      rw [heq]
      exact isSubclass_eq_true_iff.mpr (mem_mro_self wf (hcommon.registered wf htree.ne_nil))
    · exact isSubclass_eq_true_iff.mpr hdc
  · intro hcd id hid
    have hc' := isSubclass_eq_true_iff.mp (hcommon id hid)
    exact isSubclass_eq_true_iff.mpr
      ((mro_sublist wf hc').subset (isSubclass_eq_true_iff.mp hcd))

theorem OnTree.exists_meet (wf : h.WellFormed) (htree : h.OnTree ids) :
    ∃ c, h.commonAncestor ids = .ok c ∧ h.Registered c ∧ h.IsMeet ids c := by
  obtain ⟨p, c, ht, hc, hok⟩ := exists_commonAncestor wf htree.ne_nil htree.registered
  have hcommon := ht.commonSuperclass (List.mem_of_getLast? hc)
  exact ⟨c, hok, hcommon.registered wf htree.ne_nil, htree.isMeet wf ht hc⟩

/-- **On a tree the common ancestor is the meet**, so a list may be split
anywhere: the answer for the whole is the one for the answers of its parts. -/
theorem commonAncestor_isMeet (hr : Reachable h) :
    (∀ ids, h.OnTree ids →
      ∃ c, h.commonAncestor ids = .ok c ∧ h.Registered c ∧ h.IsMeet ids c)
    ∧ ∀ xs ys, h.OnTree xs → h.OnTree ys →
        ∃ x y c, h.commonAncestor xs = .ok x ∧ h.commonAncestor ys = .ok y
          ∧ h.commonAncestor (xs ++ ys) = .ok c ∧ h.commonAncestor [x, y] = .ok c := by
  have wf := hr.wellFormed
  refine ⟨fun ids htree => htree.exists_meet wf, fun xs ys hxs hys => ?_⟩
  obtain ⟨x, hx, hxreg, hxmeet⟩ := hxs.exists_meet wf
  obtain ⟨y, hy, hyreg, hymeet⟩ := hys.exists_meet wf
  obtain ⟨c, hc, hcreg, hcmeet⟩ := (hxs.append hys).exists_meet wf
  have hpair : h.OnTree [x, y] :=
    (hxs.of_superclass wf (hxmeet.commonSuperclass wf hxreg)).append
      (hys.of_superclass wf (hymeet.commonSuperclass wf hyreg))
  obtain ⟨d, hd, hdreg, hdmeet⟩ := hpair.exists_meet wf
  have hdc : d = c := (hxmeet.append hymeet hdmeet).unique wf hcmeet hdreg hcreg
  exact ⟨x, y, c, hx, hy, hc, hdc ▸ hd⟩

/-- The two sides of the diamond have only the tree above them. -/
theorem commonAncestor_diamond_sides :
    Reachable diamond ∧ diamond.OnTree [⟨2⟩] ∧ diamond.OnTree [⟨3⟩, ⟨1⟩]
    ∧ (∃ c, diamond.commonAncestor [⟨3⟩, ⟨1⟩] = .ok c ∧ diamond.IsMeet [⟨3⟩, ⟨1⟩] c)
    ∧ ∃ x y, diamond.commonAncestor [⟨2⟩] = .ok x ∧ diamond.commonAncestor [⟨3⟩, ⟨1⟩] = .ok y
        ∧ diamond.commonAncestor [⟨2⟩, ⟨3⟩, ⟨1⟩] = diamond.commonAncestor [x, y] := by
  have hleft : diamond.OnTree [⟨2⟩] := ⟨by simp, by decide +kernel, by decide +kernel⟩
  have hright : diamond.OnTree [⟨3⟩, ⟨1⟩] := ⟨by simp, by decide +kernel, by decide +kernel⟩
  obtain ⟨hmeet, hparts⟩ := commonAncestor_isMeet reachable_diamond
  obtain ⟨c, hc, -, hcmeet⟩ := hmeet _ hright
  obtain ⟨x, y, d, hx, hy, hwhole, hpair⟩ := hparts _ _ hleft hright
  exact ⟨reachable_diamond, hleft, hright, ⟨c, hc, hcmeet⟩, x, y, hx, hy, hwhole.trans hpair.symm⟩

/-- Off the tree the parts do not make up the whole: two classes with the same
two bases, and the second of these bases. -/
example :
    let h := (diamond.define "E" [⟨2⟩, ⟨3⟩]).2
    h.commonAncestor [⟨4⟩, ⟨5⟩, ⟨3⟩] = .ok ⟨3⟩ ∧ h.commonAncestor [⟨4⟩, ⟨5⟩] = .ok ⟨2⟩
    ∧ h.commonAncestor [⟨2⟩, ⟨3⟩] = .ok ⟨1⟩ := by
  decide +kernel

end Bindery.Hierarchy
