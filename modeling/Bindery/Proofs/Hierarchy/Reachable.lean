import Bindery.Proofs.Hierarchy.Merge
import Bindery.Hierarchy.Basic

/-!
# Reachable hierarchies

What a definition can do to a hierarchy (`attempt_define`), and the shape that
every hierarchy keeps on the way (`WellFormed`): the root stands alone, and
every other class has a list of distinct bases at smaller places whose merge
is what follows the class in its linearization.

A definition only adds an entry at the end of the table. What the entries
before it say is fixed, because a linearization reads only the linearizations
of its bases, and those stand at smaller places. `WellFormed.induction` turns
this order into an induction over ancestors.

A reachable hierarchy is what some series of attempts on a new root leaves
behind (`reachable_iff_exists_after`).
-/

namespace Bindery.Hierarchy

/-- Hierarchies that attempts at definitions, failed ones included, lead to. -/
inductive Reachable : Hierarchy → Prop
  | ofRoot (name : String) : Reachable (ofRoot name)
  | define {h : Hierarchy} (name : String) (bases : List ClassId) (hr : Reachable h) :
      Reachable (h.define name bases).2

/-- The place holds a class. -/
def Registered (h : Hierarchy) (id : ClassId) : Prop := id.index < h.size

instance (h : Hierarchy) (id : ClassId) : Decidable (h.Registered id) :=
  inferInstanceAs (Decidable (id.index < h.size))

variable {h : Hierarchy} {id : ClassId}

/-! ## Reading the table -/

theorem get?_eq_none_iff : h.get? id = none ↔ ¬h.Registered id := by
  simp only [get?, Registered, size, Array.getElem?_eq_none_iff, Nat.not_lt]

theorem registered_of_get?_eq_some {info : ClassInfo} (hget : h.get? id = some info) :
    h.Registered id :=
  (Array.getElem?_eq_some_iff.mp hget).1

theorem bases_of_not_registered (hid : ¬h.Registered id) : h.bases id = [] := by
  rw [bases, get?_eq_none_iff.mpr hid]
  rfl

theorem mro_of_not_registered (hid : ¬h.Registered id) : h.mro id = [] := by
  rw [mro, get?_eq_none_iff.mpr hid]
  rfl

/-! ## Registering a class -/

theorem size_register (info : ClassInfo) : (h.register info).size = h.size + 1 :=
  Array.size_push info

theorem get?_register_self (info : ClassInfo) : (h.register info).get? ⟨h.size⟩ = some info :=
  Array.getElem?_push_size

theorem get?_register_of_registered (info : ClassInfo) (hid : h.Registered id) :
    (h.register info).get? id = h.get? id := by
  have hne : id.index ≠ h.classes.size := Nat.ne_of_lt hid
  simp only [get?, register, Array.getElem?_push, if_neg hne]

theorem bases_register_of_registered (info : ClassInfo) (hid : h.Registered id) :
    (h.register info).bases id = h.bases id := by
  rw [bases, bases, get?_register_of_registered info hid]

theorem mro_register_of_registered (info : ClassInfo) (hid : h.Registered id) :
    (h.register info).mro id = h.mro id := by
  rw [mro, mro, get?_register_of_registered info hid]

theorem toList_register (info : ClassInfo) :
    (h.register info).toList = h.toList ++ [(⟨h.size⟩, info)] := by
  simp only [toList, register, Array.toList_push, List.zipIdx_append, List.map_append,
    List.zipIdx_singleton, List.map_singleton, Array.length_toList, Nat.zero_add]
  rfl

theorem linearize?_register (info : ClassInfo) {bases : List ClassId}
    (hbases : ∀ b ∈ bases, h.Registered b) :
    (h.register info).linearize? bases = h.linearize? bases := by
  have hmap : bases.map (h.register info).mro = bases.map h.mro :=
    List.map_congr_left fun b hb => mro_register_of_registered info (hbases b hb)
  rw [linearize?, linearize?, hmap]

/-! ## The outcome of a definition -/

theorem effectiveBases_ne_nil (bases : List ClassId) : effectiveBases bases ≠ [] := by
  cases bases with
  | nil => exact List.cons_ne_nil _ _
  | cons b rest => exact List.cons_ne_nil b rest

/-- Bases pass when each of them is registered and none is named twice. -/
theorem baseError?_eq_none_iff {name : String} {before bases : List ClassId} :
    h.baseError? name before bases = none ↔
      (∀ b ∈ bases, h.Registered b ∧ b ∉ before) ∧ bases.Nodup := by
  induction bases generalizing before with
  | nil => simp [baseError?]
  | cons base rest ih =>
      rw [baseError?, List.forall_mem_cons, List.nodup_cons]
      cases hget : h.get? base with
      | none =>
          have hbase := get?_eq_none_iff.mp hget
          simp [hbase]
      | some info =>
          have hbase := registered_of_get?_eq_some hget
          by_cases hbefore : base ∈ before
          · simp [hbefore]
          · simp only [List.contains_eq_mem, hbefore, decide_false, Bool.false_eq_true, if_false,
              ih, List.mem_cons, not_or]
            constructor
            · rintro ⟨hall, hnodup⟩
              exact ⟨⟨⟨hbase, not_false⟩, fun b hb => ⟨(hall b hb).1, (hall b hb).2.2⟩⟩,
                fun hmem => (hall base hmem).2.1 rfl, hnodup⟩
            · rintro ⟨⟨-, hall⟩, hnot, hnodup⟩
              exact ⟨fun b hb => ⟨(hall b hb).1, fun heq => hnot (heq ▸ hb), (hall b hb).2⟩, hnodup⟩

/-- What an attempt at a definition comes to, by the check that decides it. The
base list is the effective one. -/
inductive Attempt (h : Hierarchy) (name : String) (bases : List ClassId) :
    Except DefineError ClassId × Hierarchy → Prop
  | taken (hname : h.lookup? name ≠ none) : Attempt h name bases (.error (.duplicateClass name), h)
  | badBase {e : DefineError} (hname : h.lookup? name = none)
      (hbases : h.baseError? name [] bases = some e) : Attempt h name bases (.error e, h)
  | full (hname : h.lookup? name = none) (hbases : h.baseError? name [] bases = none)
      (hsize : capacity ≤ h.size) : Attempt h name bases (.error (.overflow name), h)
  | inconsistent (hname : h.lookup? name = none) (hbases : h.baseError? name [] bases = none)
      (hsize : h.size < capacity) (hmerge : h.linearize? bases = none) :
      Attempt h name bases (.error (.inconsistent name), h)
  | defined {ancestors : List ClassId} (hname : h.lookup? name = none)
      (hbases : h.baseError? name [] bases = none) (hsize : h.size < capacity)
      (hmerge : h.linearize? bases = some ancestors) :
      Attempt h name bases (.ok ⟨h.size⟩, h.register ⟨name, bases, ⟨h.size⟩ :: ancestors⟩)

/-- **What a definition does.** One of five things, and only one of them adds
a class. -/
theorem attempt_define (h : Hierarchy) (name : String) (bases : List ClassId) :
    h.Attempt name (effectiveBases bases) (h.define name bases) := by
  simp only [define]
  split
  · next hname => exact .taken (Option.isSome_iff_ne_none.mp hname)
  · next hname =>
    have hname : h.lookup? name = none := by simpa using hname
    split
    · next hbases => exact .badBase hname hbases
    · next hbases =>
      split
      · next hsize => exact .full hname hbases hsize
      · next hsize =>
        have hsize := Nat.lt_of_not_le hsize
        split
        · next hmerge => exact .inconsistent hname hbases hsize hmerge
        · next hmerge => exact .defined hname hbases hsize hmerge

/-! ## Well-formed hierarchies -/

/-- The entry of a class that is not the root, with its proper ancestors. -/
structure Derived (h : Hierarchy) (id : ClassId) (ancestors : List ClassId) : Prop where
  bases_ne_nil : h.bases id ≠ []
  bases_nodup : (h.bases id).Nodup
  bases_lt : ∀ b ∈ h.bases id, b.index < id.index
  linearize : h.linearize? (h.bases id) = some ancestors
  mro_eq : h.mro id = id :: ancestors

structure WellFormed (h : Hierarchy) : Prop where
  root_registered : h.Registered .root
  root_bases : h.bases .root = []
  root_mro : h.mro .root = [.root]
  derived : ∀ id, h.Registered id → id ≠ .root → ∃ ancestors, h.Derived id ancestors

theorem Derived.registered {ancestors : List ClassId} (hd : h.Derived id ancestors) :
    h.Registered id :=
  Decidable.of_not_not fun hno => hd.bases_ne_nil (bases_of_not_registered hno)

theorem wellFormed_ofRoot (name : String) : (ofRoot name).WellFormed where
  root_registered := Nat.zero_lt_one
  root_bases := rfl
  root_mro := rfl
  derived id hid hne := by
    have hzero : id.index = 0 := Nat.lt_one_iff.mp hid
    exact absurd (congrArg ClassId.mk hzero) hne

/-- Entries do not change when a class is added: bases stand before the class,
so all that a linearization reads is still there. -/
theorem Derived.register {ancestors : List ClassId} (hd : h.Derived id ancestors)
    (info : ClassInfo) : (h.register info).Derived id ancestors := by
  have hid := hd.registered
  have hbases := bases_register_of_registered info hid
  have hreg : ∀ b ∈ h.bases id, h.Registered b := fun b hb =>
    Nat.lt_trans (hd.bases_lt b hb) hid
  constructor
  · rw [hbases]; exact hd.bases_ne_nil
  · rw [hbases]; exact hd.bases_nodup
  · rw [hbases]; exact hd.bases_lt
  · rw [hbases, linearize?_register info hreg]; exact hd.linearize
  · rw [mro_register_of_registered info hid]; exact hd.mro_eq

theorem WellFormed.register (wf : h.WellFormed) {name : String} {bases ancestors : List ClassId}
    (hne : bases ≠ []) (hreg : ∀ b ∈ bases, h.Registered b) (hnodup : bases.Nodup)
    (hmerge : h.linearize? bases = some ancestors) :
    (h.register ⟨name, bases, ⟨h.size⟩ :: ancestors⟩).WellFormed := by
  have hroot := wf.root_registered
  refine ⟨?_, ?_, ?_, ?_⟩
  · exact Nat.lt_of_lt_of_le hroot (by rw [size_register]; exact Nat.le_succ _)
  · rw [bases_register_of_registered _ hroot, wf.root_bases]
  · rw [mro_register_of_registered _ hroot, wf.root_mro]
  · intro id hid hnot
    rw [Registered, size_register] at hid
    rcases Nat.lt_succ_iff_lt_or_eq.mp hid with hold | hnew
    · obtain ⟨anc, hd⟩ := wf.derived id hold hnot
      exact ⟨anc, hd.register _⟩
    · obtain rfl : id = ⟨h.size⟩ := congrArg ClassId.mk hnew
      have hbases : (h.register ⟨name, bases, ⟨h.size⟩ :: ancestors⟩).bases ⟨h.size⟩ = bases := by
        rw [Hierarchy.bases, get?_register_self]; rfl
      refine ⟨ancestors, ?_, ?_, ?_, ?_, ?_⟩
      · rw [hbases]; exact hne
      · rw [hbases]; exact hnodup
      · rw [hbases]; exact hreg
      · rw [hbases, linearize?_register _ hreg]; exact hmerge
      · rw [mro, get?_register_self]; rfl

theorem WellFormed.define (wf : h.WellFormed) (name : String) (bases : List ClassId) :
    (h.define name bases).2.WellFormed := by
  have hattempt := attempt_define h name bases
  generalize h.define name bases = result at hattempt ⊢
  cases hattempt with
  | defined hname hbases hsize hmerge =>
      obtain ⟨hreg, hnodup⟩ := baseError?_eq_none_iff.mp hbases
      exact wf.register (effectiveBases_ne_nil bases) (fun b hb => (hreg b hb).1) hnodup hmerge
  | taken | badBase | full | inconsistent => exact wf

theorem Reachable.wellFormed (hr : Reachable h) : h.WellFormed := by
  induction hr with
  | ofRoot name => exact wellFormed_ofRoot name
  | define name bases _ ih => exact ih.define name bases

/-! ## Series of attempts -/

/-- What an attempt at a definition asks for. -/
structure Request where
  name : String
  bases : List ClassId
deriving DecidableEq, Repr

/-- The hierarchy after attempts at all of these definitions, in this order. -/
def after (h : Hierarchy) : List Request → Hierarchy
  | [] => h
  | request :: rest => (h.define request.name request.bases).2.after rest

theorem after_append (h : Hierarchy) (first rest : List Request) :
    h.after (first ++ rest) = (h.after first).after rest := by
  induction first generalizing h with
  | nil => rfl
  | cons request first ih => exact ih _

theorem Reachable.after (hr : Reachable h) (requests : List Request) :
    Reachable (h.after requests) := by
  induction requests generalizing h with
  | nil => exact hr
  | cons request rest ih => exact ih (.define request.name request.bases hr)

/-- Entries are for good: an attempt adds one at the end of the table or none. -/
theorem get?_define_of_registered (hid : h.Registered id) (name : String) (bases : List ClassId) :
    (h.define name bases).2.get? id = h.get? id := by
  have hattempt := attempt_define h name bases
  generalize h.define name bases = result at hattempt ⊢
  cases hattempt with
  | defined => exact get?_register_of_registered _ hid
  | taken | badBase | full | inconsistent => rfl

theorem get?_after_of_registered (hid : h.Registered id) (requests : List Request) :
    (h.after requests).get? id = h.get? id := by
  induction requests generalizing h with
  | nil => rfl
  | cons request rest ih =>
      have hget := get?_define_of_registered hid request.name request.bases
      have hstill : (h.define request.name request.bases).2.Registered id := by
        refine Decidable.of_not_not fun hno => ?_
        exact get?_eq_none_iff.mp (hget.symm.trans (get?_eq_none_iff.mpr hno)) hid
      rw [after, ih hstill, hget]

/-- Reachable hierarchies are those that a series of attempts on a new root
leads to. -/
theorem reachable_iff_exists_after :
    Reachable h ↔ ∃ root requests, h = (ofRoot root).after requests := by
  constructor
  · intro hr
    induction hr with
    | ofRoot root => exact ⟨root, [], rfl⟩
    | define name bases _ ih =>
        obtain ⟨root, requests, rfl⟩ := ih
        refine ⟨root, requests ++ [⟨name, bases⟩], ?_⟩
        rw [after_append]
        rfl
  · rintro ⟨root, requests, rfl⟩
    exact (Reachable.ofRoot root).after requests

/-- The smallest hierarchy in which two ways lead from a class to one of its
ancestors. -/
def diamond : Hierarchy :=
  let shared := ((ofRoot "Root").define "A" []).2
  let sides := ((shared.define "B" [⟨1⟩]).2.define "C" [⟨1⟩]).2
  (sides.define "D" [⟨2⟩, ⟨3⟩]).2

theorem reachable_diamond : Reachable diamond :=
  .define "D" _ (.define "C" _ (.define "B" _ (.define "A" _ (.ofRoot "Root"))))

/-- Induction over ancestors: what holds of the root, and of every class whose
bases it holds of, holds of all classes. -/
theorem WellFormed.induction (wf : h.WellFormed) {motive : ClassId → Prop} (root : motive .root)
    (derived : ∀ id ancestors, h.Derived id ancestors →
      (∀ b ∈ h.bases id, h.Registered b ∧ motive b) → motive id) :
    ∀ id, h.Registered id → motive id := by
  suffices ∀ n, ∀ id : ClassId, id.index = n → h.Registered id → motive id from
    fun id hid => this id.index id rfl hid
  intro n
  induction n using Nat.strongRecOn with
  | ind n ih =>
      intro id hn hid
      by_cases hroot : id = .root
      · rw [hroot]; exact root
      · obtain ⟨ancestors, hd⟩ := wf.derived id hid hroot
        refine derived id ancestors hd fun b hb => ?_
        have hlt := hd.bases_lt b hb
        have hb' : h.Registered b := Nat.lt_trans hlt hid
        exact ⟨hb', ih b.index (hn ▸ hlt) b rfl hb'⟩

end Bindery.Hierarchy
