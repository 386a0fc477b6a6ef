import Bindery.Hierarchy.Subtyping
import Bindery.Proofs.Hierarchy.Definition
import Bindery.Proofs.Hierarchy.Table

/-!
# Classes that a predicate accepts

`typeCheck` with a base accepts the classes that a path of base edges leads to
the base from. Filtering the listing with it keeps the order of the table, and
descendants stand at larger places, so the base comes first.

The filtered listing grows with the table: what is listed stays, and a new
class is added if it is accepted. As the linearization of a class holds what
those of its bases hold, this is the case if one of its bases is
(`accepted_register`).
-/

namespace Bindery.Hierarchy

variable {h : Hierarchy} {base id : ClassId}

/-- The classes that `typeCheck` accepts for a base, in the order of the table. -/
def accepted (h : Hierarchy) (base : ClassId) : List (ClassId × ClassInfo) :=
  h.toList.filter fun e => typeCheck h base (some e.1)

theorem typeCheck_some_iff : typeCheck h base (some id) = true ↔ base ∈ h.mro id :=
  isSubclass_eq_true_iff

theorem mem_accepted_iff {info : ClassInfo} :
    (id, info) ∈ h.accepted base ↔ h.get? id = some info ∧ base ∈ h.mro id := by
  rw [accepted, List.mem_filter, mem_toList_iff, typeCheck_some_iff]

/-! ## Order -/

theorem pairwise_toList (h : Hierarchy) :
    h.toList.Pairwise fun e e' => e.1.index < e'.1.index := by
  have hplaces : (h.toList.map (·.1)).Pairwise fun a b => a.index < b.index := by
    rw [map_fst_toList, List.pairwise_map]
    exact List.pairwise_lt_range
  rwa [List.pairwise_map] at hplaces

theorem pairwise_accepted (h : Hierarchy) (base : ClassId) :
    (h.accepted base).Pairwise fun e e' => e.1.index < e'.1.index :=
  h.pairwise_toList.filter _

/-- The base is listed, and no class below it stands at a smaller place. -/
theorem head?_accepted (wf : h.WellFormed) (hbase : h.Registered base) :
    (h.accepted base).head?.map (·.1) = some base := by
  cases hget : h.get? base with
  | none => exact absurd hbase (get?_eq_none_iff.mp hget)
  | some info =>
      have hmem : (base, info) ∈ h.accepted base :=
        mem_accepted_iff.mpr ⟨hget, mem_mro_self wf hbase⟩
      have horder := h.pairwise_accepted base
      have hfirst : ∀ e ∈ h.accepted base, base ∈ h.mro e.1 :=
        fun e he => (mem_accepted_iff.mp he).2
      cases hlist : h.accepted base with
      | nil =>
          rw [hlist] at hmem
          cases hmem
      | cons first rest =>
          rw [hlist] at hmem horder hfirst
          rcases List.mem_cons.mp hmem with rfl | hrest
          · rfl
          · have hlt := List.rel_of_pairwise_cons horder hrest
            have hle := index_le_of_mem_mro wf (hfirst first List.mem_cons_self)
            exact absurd hlt (Nat.not_lt.mpr hle)

/-! ## A class more -/

section Register

variable {name : String} {bases ancestors : List ClassId} (wf : h.WellFormed)
  (hne : bases ≠ []) (hreg : ∀ b ∈ bases, h.Registered b) (hnodup : bases.Nodup)
  (hmerge : h.linearize? bases = some ancestors)

include wf hne hreg hnodup hmerge

/-- A class that was there before is above the new one if it is above one of its bases. -/
theorem mem_mro_register_iff (hid : h.Registered id) :
    id ∈ (h.register ⟨name, bases, ⟨h.size⟩ :: ancestors⟩).mro ⟨h.size⟩ ↔
      ∃ b ∈ bases, id ∈ h.mro b := by
  have wf' : (h.register ⟨name, bases, ⟨h.size⟩ :: ancestors⟩).WellFormed :=
    wf.register hne hreg hnodup hmerge
  have hnew : (h.register ⟨name, bases, ⟨h.size⟩ :: ancestors⟩).Registered ⟨h.size⟩ := by
    rw [Registered, size_register]
    exact Nat.lt_succ_self _
  have hroot : (⟨h.size⟩ : ClassId) ≠ .root := by
    intro heq
    have hsize : 0 < h.size := wf.root_registered
    rw [ClassId.root, ClassId.mk.injEq] at heq
    omega
  have hother : id ≠ ⟨h.size⟩ := by
    rintro rfl
    exact Nat.lt_irrefl _ hid
  obtain ⟨_, hd⟩ := wf'.derived _ hnew hroot
  rw [hd.mem_mro_iff wf', or_iff_right hother, (extends_register _).bases_id]
  exact exists_congr fun b => and_congr_right fun hb => by
    rw [mro_register_of_registered _ (hreg b hb)]

theorem accepted_register (hbase : h.Registered base) :
    (h.register ⟨name, bases, ⟨h.size⟩ :: ancestors⟩).accepted base = h.accepted base ++
      if (bases.any fun b => typeCheck h base (some b)) = true then
        [(⟨h.size⟩, ⟨name, bases, ⟨h.size⟩ :: ancestors⟩)] else [] := by
  have hold : ∀ e ∈ h.toList,
      typeCheck (h.register ⟨name, bases, ⟨h.size⟩ :: ancestors⟩) base (some e.1) =
        typeCheck h base (some e.1) := by
    rintro ⟨old, info⟩ he
    have holdreg := registered_of_get?_eq_some (mem_toList_iff.mp he)
    rw [Bool.eq_iff_iff, typeCheck_some_iff, typeCheck_some_iff,
      mro_register_of_registered _ holdreg]
  have hnew : typeCheck (h.register ⟨name, bases, ⟨h.size⟩ :: ancestors⟩) base (some ⟨h.size⟩) =
      bases.any fun b => typeCheck h base (some b) := by
    rw [Bool.eq_iff_iff, typeCheck_some_iff, List.any_eq_true,
      mem_mro_register_iff wf hne hreg hnodup hmerge hbase]
    simp only [typeCheck_some_iff]
  rw [accepted, toList_register, List.filter_append, List.filter_congr hold, accepted,
    List.filter_cons, hnew, List.filter_nil]

end Register

/-! ## Predicates -/

theorem typeCheck_of_basePath {base' : ClassId} (wf : h.WellFormed) (hpath : h.BasePath base base')
    {candidate : Option ClassId} (hcheck : typeCheck h base candidate = true) :
    typeCheck h base' candidate = true := by
  cases candidate with
  | none => cases hcheck
  | some id =>
      have hmem := typeCheck_some_iff.mp hcheck
      have habove := mem_mro_of_basePath wf (ancestor_registered wf hmem) hpath
      exact typeCheck_some_iff.mpr ((mro_sublist wf hmem).subset habove)

/-- **A predicate picks out the classes below its base**, each once and in the
order of the table, the base first. A definition adds its class to them if and
only if one of its bases is among them. An absent candidate is refused, a value
is checked by its class, and a base further up accepts more. -/
theorem typeCheck_filters (hr : Reachable h) (hbase : h.Registered base) :
    (∀ id info, (id, info) ∈ h.accepted base ↔ h.get? id = some info ∧ h.BasePath id base)
    ∧ (h.accepted base).Pairwise (fun e e' => e.1.index < e'.1.index)
    ∧ (h.accepted base).head?.map (·.1) = some base
    ∧ (∀ name bases id, (h.define name bases).1 = .ok id →
        ∃ info, (h.define name bases).2.get? id = some info ∧ info.name = name ∧
          info.bases = effectiveBases bases ∧
          (h.define name bases).2.accepted base = h.accepted base ++
            if ((effectiveBases bases).any fun b => typeCheck h base (some b)) = true then
              [(id, info)] else [])
    ∧ typeCheck h base none = false
    ∧ (∀ (V : Type) [Classified V ClassId] (value : V),
        typeCheckInstance h base value = typeCheck h base (some (Classified.classOf value)))
    ∧ ∀ base', h.BasePath base base' →
        (∀ candidate, typeCheck h base candidate = true → typeCheck h base' candidate = true) ∧
        ∀ (V : Type) [Classified V ClassId] (value : V),
          typeCheckInstance h base value = true → typeCheckInstance h base' value = true := by
  have wf := hr.wellFormed
  refine ⟨fun id info => ?_, h.pairwise_accepted base, head?_accepted wf hbase, ?_, rfl,
    fun V _ value => rfl, fun base' hpath => ⟨fun candidate => typeCheck_of_basePath wf hpath, ?_⟩⟩
  · rw [mem_accepted_iff]
    refine and_congr_right fun hget => ⟨basePath_of_mem_mro wf, ?_⟩
    exact mem_mro_of_basePath wf (registered_of_get?_eq_some hget)
  · intro name bases id hid
    have hattempt := attempt_define h name bases
    generalize h.define name bases = result at hattempt hid ⊢
    cases hattempt with
    | defined hname hbases hsize hmerge =>
        obtain rfl := Except.ok.inj hid
        obtain ⟨hreg, hnodup⟩ := baseError?_eq_none_iff.mp hbases
        exact ⟨_, get?_register_self _, rfl, rfl, accepted_register wf (effectiveBases_ne_nil bases)
          (fun b hb => (hreg b hb).1) hnodup hmerge hbase⟩
    | taken | badBase | full | inconsistent => cases hid
  · intro V _ value hcheck
    have hclass : typeCheck h base (some (Classified.classOf value)) = true := hcheck
    exact typeCheck_of_basePath wf hpath hclass

/-- One side of the diamond: the class below both sides is listed with it. Of two
definitions the one that names only the other side is not added. -/
theorem typeCheck_filters_diamond :
    Reachable diamond ∧ diamond.Registered ⟨2⟩
    ∧ (diamond.accepted ⟨2⟩).map (·.1) = [⟨2⟩, ⟨4⟩] ∧ diamond.BasePath ⟨4⟩ ⟨2⟩
    ∧ (diamond.define "E" [⟨3⟩]).2.accepted ⟨2⟩ = diamond.accepted ⟨2⟩
    ∧ ((diamond.define "E" [⟨3⟩, ⟨2⟩]).2.accepted ⟨2⟩).map (·.1) = [⟨2⟩, ⟨4⟩, ⟨5⟩]
    ∧ typeCheck diamond ⟨1⟩ (some ⟨4⟩) = true := by
  have hside : diamond.Registered ⟨2⟩ := by decide +kernel
  have hlist : (diamond.accepted ⟨2⟩).map (·.1) = [⟨2⟩, ⟨4⟩] := by decide +kernel
  have hother : (diamond.define "E" [⟨3⟩]).1 = .ok ⟨5⟩ := by decide +kernel
  have hboth : (diamond.define "E" [⟨3⟩, ⟨2⟩]).1 = .ok ⟨5⟩ := by decide +kernel
  have hrefused : (effectiveBases [⟨3⟩]).any (fun b => typeCheck diamond ⟨2⟩ (some b)) = false := by
    decide +kernel
  have haccepted :
      (effectiveBases [⟨3⟩, ⟨2⟩]).any (fun b => typeCheck diamond ⟨2⟩ (some b)) = true := by
    decide +kernel
  obtain ⟨hmem, -, -, hdefine, -, -, hup⟩ := typeCheck_filters reachable_diamond hside
  obtain ⟨_, -, -, -, hunchanged⟩ := hdefine _ _ _ hother
  obtain ⟨_, -, -, -, hadded⟩ := hdefine _ _ _ hboth
  obtain ⟨⟨id, info⟩, he, rfl⟩ : ∃ e ∈ diamond.accepted ⟨2⟩, e.1 = ⟨4⟩ := by
    rw [← List.mem_map, hlist]
    exact List.mem_cons_of_mem _ List.mem_cons_self
  have hpath := ((hmem _ info).mp he).2
  refine ⟨reachable_diamond, hside, hlist, hpath, ?_, ?_, ?_⟩
  · rw [hunchanged, hrefused]
    exact List.append_nil _
  · rw [hadded, if_pos haccepted, List.map_append, hlist]
    rfl
  · exact (hup ⟨1⟩ (.single (by decide +kernel))).1 _ (by decide +kernel)

end Bindery.Hierarchy
