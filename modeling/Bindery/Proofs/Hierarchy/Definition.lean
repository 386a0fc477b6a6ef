import Mathlib.Data.List.Basic
import Bindery.Proofs.Hierarchy.Names

/-!
# The outcome of a definition

Several things can be wrong with a definition at once; which of them is
reported is decided in a fixed order. `Verdict` states that order from the
classes alone: a name that is taken, the first place of the base list that
holds an unknown or repeated base, and last the lack of any order that
respects the base list and the linearizations of the bases.
`define_iff_verdict` says that a definition comes out this way and no other.

The checks walk the base list with the bases already passed in hand; what they
report is the first fault of the whole list (`firstFault_of_baseError?`). The
merge decides the last one, and as it gives up only where it has to, its
failure is a fact about the classes and not about the way it works.

A failed definition leaves the hierarchy itself behind. A successful one
answers every question as before, for all places but the new one and for all
names but the new one (`Extends`).
-/

namespace Bindery.Hierarchy

variable {h : Hierarchy} {name : String} {bases : List ClassId} {id base : ClassId} {i : Nat}

/-! ## Faults of a base list -/

/-- A place of a base list holds an unknown class, or one of an earlier place. -/
def FaultAt (h : Hierarchy) (bases : List ClassId) (i : Nat) (base : ClassId) : Prop :=
  bases[i]? = some base ∧ (¬h.Registered base ∨ base ∈ bases.take i)

structure FirstFault (h : Hierarchy) (bases : List ClassId) (i : Nat) (base : ClassId) : Prop where
  fault : h.FaultAt bases i base
  least : ∀ j < i, ∀ b, ¬h.FaultAt bases j b

theorem FirstFault.unique {j : Nat} {base' : ClassId} (hi : h.FirstFault bases i base)
    (hj : h.FirstFault bases j base') : base = base' := by
  rcases Nat.lt_trichotomy i j with hlt | rfl | hgt
  · exact absurd hi.fault (hj.least i hlt base)
  · exact Option.some.inj (hi.fault.1.symm.trans hj.fault.1)
  · exact absurd hj.fault (hi.least j hgt base')

/-- The error for a base that is at fault. An unknown class has no name, so it
is given by its place. -/
inductive BaseFault (h : Hierarchy) (name : String) (base : ClassId) : DefineError → Prop
  | unknown (hbase : ¬h.Registered base) : BaseFault h name base (.unknownBase name base)
  | repeated {baseName : String} (hbase : h.name? base = some baseName) :
      BaseFault h name base (.duplicateBase name baseName)

theorem BaseFault.unique {e e' : DefineError} (he : h.BaseFault name base e)
    (he' : h.BaseFault name base e') : e = e' := by
  cases he with
  | unknown hno =>
      cases he' with
      | unknown _ => rfl
      | repeated hbase => exact absurd (registered_of_name?_eq_some hbase) hno
  | repeated hbase =>
      cases he' with
      | unknown hno => exact absurd (registered_of_name?_eq_some hbase) hno
      | repeated hbase' => rw [Option.some.inj (hbase.symm.trans hbase')]

/-- The error that the check gives is that of the first fault. `before` holds
the bases already passed, the last one first. -/
theorem firstFault_of_baseError? {before rest : List ClassId} {e : DefineError}
    (hbefore : ∀ j < before.length, ∀ b, ¬h.FaultAt (before.reverse ++ rest) j b)
    (he : h.baseError? name before rest = some e) :
    ∃ i base, h.FirstFault (before.reverse ++ rest) i base ∧ h.BaseFault name base e := by
  induction rest generalizing before with
  | nil => cases he
  | cons base rest ih =>
      have hhere : (before.reverse ++ base :: rest)[before.length]? = some base := by
        simp
      have htake : (before.reverse ++ base :: rest).take before.length = before.reverse := by
        simp
      rw [baseError?] at he
      cases hget : h.get? base with
      | none =>
          rw [hget] at he
          obtain rfl := Option.some.inj he
          have hbase := get?_eq_none_iff.mp hget
          exact ⟨before.length, base, ⟨⟨hhere, Or.inl hbase⟩, hbefore⟩, .unknown hbase⟩
      | some info =>
          simp only [hget, List.contains_eq_mem, decide_eq_true_eq] at he
          split at he
          · next hmem =>
            obtain rfl := Option.some.inj he
            have hname : h.name? base = some info.name := by rw [name?, hget]; rfl
            refine ⟨before.length, base, ⟨⟨hhere, Or.inr ?_⟩, hbefore⟩, .repeated hname⟩
            rw [htake]
            exact List.mem_reverse.mpr hmem
          · next hmem =>
            have hlist : (base :: before).reverse ++ rest = before.reverse ++ base :: rest := by
              simp
            rw [← hlist]
            refine ih (fun j hj b hfault => ?_) he
            rw [hlist] at hfault
            rcases Nat.lt_succ_iff_lt_or_eq.mp hj with hlt | rfl
            · exact hbefore j hlt b hfault
            · obtain ⟨hb, hfault⟩ := hfault
              obtain rfl : base = b := Option.some.inj (hhere.symm.trans hb)
              rw [htake, List.mem_reverse] at hfault
              exact hfault.elim (fun hno => hno (registered_of_get?_eq_some hget)) hmem

theorem exists_firstFault {e : DefineError} (he : h.baseError? name [] bases = some e) :
    ∃ i base, h.FirstFault bases i base ∧ h.BaseFault name base e := by
  have hstart : ∀ j < ([] : List ClassId).length, ∀ b, ¬h.FaultAt bases j b := nofun
  exact firstFault_of_baseError? hstart he

theorem not_faultAt_of_baseError? (hbases : h.baseError? name [] bases = none) (i : Nat)
    (base : ClassId) : ¬h.FaultAt bases i base := by
  obtain ⟨hreg, hnodup⟩ := baseError?_eq_none_iff.mp hbases
  rintro ⟨hi, hno | hmem⟩
  · exact hno (hreg base (List.mem_of_getElem? hi)).1
  · obtain ⟨j, hj, hbase⟩ := List.mem_take_iff_getElem.mp hmem
    have hlt : j < i := by omega
    obtain ⟨hlen, hi⟩ := List.getElem?_eq_some_iff.mp hi
    exact List.pairwise_iff_getElem.mp hnodup j i _ hlen hlt (hbase.trans hi.symm)

/-! ## Orders -/

/-- Some order without repetition respects the base list and the linearization
of every base. -/
def Orderable (h : Hierarchy) (bases : List ClassId) : Prop :=
  ∃ order : List ClassId, order.Nodup ∧ bases.Sublist order ∧ ∀ b ∈ bases, (h.mro b).Sublist order

theorem linearize?_eq_none_iff : h.linearize? bases = none ↔ ¬h.Orderable bases := by
  rw [linearize?, C3.merge_eq_none_iff, Orderable]
  simp only [List.forall_mem_append, List.forall_mem_map, List.forall_mem_singleton, and_comm]

/-! ## Verdicts -/

/-- The outcome of a definition, by the first of its causes in this order. -/
inductive Verdict (h : Hierarchy) (name : String) (bases : List ClassId) :
    Except DefineError ClassId → Prop
  | duplicateClass (hname : h.Named name) : Verdict h name bases (.error (.duplicateClass name))
  | badBase {i : Nat} {base : ClassId} {e : DefineError} (hname : ¬h.Named name)
      (hfirst : h.FirstFault bases i base) (hbase : h.BaseFault name base e) :
      Verdict h name bases (.error e)
  | inconsistent (hname : ¬h.Named name) (hfault : ∀ i base, ¬h.FaultAt bases i base)
      (horder : ¬h.Orderable bases) : Verdict h name bases (.error (.inconsistent name))
  | defined (hname : ¬h.Named name) (hfault : ∀ i base, ¬h.FaultAt bases i base)
      (horder : h.Orderable bases) : Verdict h name bases (.ok ⟨h.size⟩)

/-- The causes exclude each other, so there is one verdict. -/
theorem Verdict.unique {r r' : Except DefineError ClassId} (hv : h.Verdict name bases r)
    (hv' : h.Verdict name bases r') : r = r' := by
  cases hv with
  | duplicateClass hname =>
      cases hv' with
      | duplicateClass _ => rfl
      | badBase hno _ _ | inconsistent hno _ _ | defined hno _ _ => exact absurd hname hno
  | badBase hno hfirst hbase =>
      cases hv' with
      | duplicateClass hname => exact absurd hname hno
      | badBase _ hfirst' hbase' =>
          rw [← hfirst.unique hfirst'] at hbase'
          rw [hbase.unique hbase']
      | inconsistent _ hfault _ | defined _ hfault _ => exact absurd hfirst.fault (hfault _ _)
  | inconsistent hno hfault horder =>
      cases hv' with
      | duplicateClass hname => exact absurd hname hno
      | badBase _ hfirst _ => exact absurd hfirst.fault (hfault _ _)
      | inconsistent _ _ _ => rfl
      | defined _ _ horder' => exact absurd horder' horder
  | defined hno hfault horder =>
      cases hv' with
      | duplicateClass hname => exact absurd hname hno
      | badBase _ hfirst _ => exact absurd hfirst.fault (hfault _ _)
      | inconsistent _ _ horder' => exact absurd horder horder'
      | defined _ _ _ => rfl

/-- With room in the table, an attempt comes out as its verdict says. -/
theorem Attempt.verdict (hr : Reachable h) (hroom : h.size < capacity)
    {result : Except DefineError ClassId × Hierarchy} (ha : h.Attempt name bases result) :
    h.Verdict name bases result.1 := by
  have hfree : ∀ {name}, h.lookup? name = none → ¬h.Named name := fun hnone hname =>
    hr.lookup?_ne_none_iff.mpr hname hnone
  cases ha with
  | taken hname => exact .duplicateClass (hr.lookup?_ne_none_iff.mp hname)
  | badBase hname hbases =>
      obtain ⟨i, base, hfirst, hbase⟩ := exists_firstFault hbases
      exact .badBase (hfree hname) hfirst hbase
  | full _ _ hsize => exact absurd hroom (Nat.not_lt.mpr hsize)
  | inconsistent hname hbases _ hmerge =>
      exact .inconsistent (hfree hname) (not_faultAt_of_baseError? hbases)
        (linearize?_eq_none_iff.mp hmerge)
  | defined hname hbases _ hmerge =>
      refine .defined (hfree hname) (not_faultAt_of_baseError? hbases) ?_
      refine Classical.byContradiction fun hno => ?_
      cases (linearize?_eq_none_iff.mpr hno).symm.trans hmerge

/-! ## The hierarchy after a definition -/

/-- A hierarchy with one class more: all questions about other classes and
other names have the answers that they had. -/
structure Extends (h h' : Hierarchy) (id : ClassId) (name : String) (bases : List ClassId) :
    Prop where
  lookup?_name : h'.lookup? name = some id
  name?_id : h'.name? id = some name
  bases_id : h'.bases id = bases
  lookup?_eq : ∀ other, other ≠ name → h'.lookup? other = h.lookup? other
  name?_eq : ∀ other, other ≠ id → h'.name? other = h.name? other
  bases_eq : ∀ other, other ≠ id → h'.bases other = h.bases other
  mro_eq : ∀ other, other ≠ id → h'.mro other = h.mro other
  isSubclass_eq : ∀ sub base, sub ≠ id → h'.isSubclass sub base = h.isSubclass sub base
  commonAncestor_eq : ∀ ids, id ∉ ids → h'.commonAncestor ids = h.commonAncestor ids
  size_eq : h'.size = h.size + 1
  toList_eq : ∃ info, h'.toList = h.toList ++ [(id, info)]

theorem extends_register (info : ClassInfo) :
    h.Extends (h.register info) ⟨h.size⟩ info.name info.bases := by
  have hget : ∀ other : ClassId, other ≠ ⟨h.size⟩ → (h.register info).get? other = h.get? other :=
    fun other => get?_register_of_ne info
  have hmro : ∀ other : ClassId, other ≠ ⟨h.size⟩ → (h.register info).mro other = h.mro other :=
    fun other hne => by rw [mro, hget other hne, mro]
  constructor
  case lookup?_name => rw [lookup?_register, if_pos rfl]
  case name?_id => exact name?_register_self info
  case bases_id =>
    rw [Hierarchy.bases, get?_register_self]
    rfl
  case lookup?_eq =>
    intro other hne
    rw [lookup?_register, if_neg hne]
  case name?_eq => exact fun other => name?_register_of_ne info
  case bases_eq =>
    intro other hne
    rw [Hierarchy.bases, hget other hne, Hierarchy.bases]
  case mro_eq => exact hmro
  case isSubclass_eq =>
    intro sub base hne
    rw [isSubclass, hmro sub hne, isSubclass]
  case commonAncestor_eq =>
    intro ids hid
    have hmap : ids.map (h.register info).ancestry = ids.map h.ancestry := by
      refine List.map_congr_left fun other hother => ?_
      rw [ancestry, hmro other (ne_of_mem_of_not_mem hother hid), ancestry]
    rw [commonAncestor, hmap, commonAncestor]
  case size_eq => exact size_register info
  case toList_eq => exact ⟨info, toList_register info⟩

/-- **A definition comes out as its verdict says**, and leaves everything that
was there before as it was: a failed one the whole hierarchy, a successful one
all that does not concern the new class. -/
theorem define_iff_verdict (hr : Reachable h) (hroom : h.size < capacity) (name : String)
    (bases : List ClassId) :
    (∀ outcome, (h.define name bases).1 = outcome ↔ h.Verdict name (effectiveBases bases) outcome)
    ∧ (∀ e, (h.define name bases).1 = .error e → (h.define name bases).2 = h)
    ∧ ∀ id, (h.define name bases).1 = .ok id →
        h.Extends (h.define name bases).2 id name (effectiveBases bases) := by
  have hattempt := attempt_define h name bases
  have hverdict := hattempt.verdict hr hroom
  refine ⟨fun outcome => ?_, ?_, ?_⟩
  · exact ⟨fun heq => heq ▸ hverdict, hverdict.unique⟩
  · intro e he
    generalize h.define name bases = result at hattempt he ⊢
    cases hattempt with
    | defined => cases he
    | taken | badBase | full | inconsistent => rfl
  · intro id hid
    generalize h.define name bases = result at hattempt hid ⊢
    cases hattempt with
    | defined =>
        obtain rfl := Except.ok.inj hid
        exact extends_register _
    | taken | badBase | full | inconsistent => cases hid

/-- A class of the diamond listed in front of one that derives from it: no
order can put each of the two first. -/
theorem define_diamond_inconsistent :
    Reachable diamond ∧ diamond.size < capacity
    ∧ (diamond.define "E" [⟨1⟩, ⟨2⟩]).1 = .error (.inconsistent "E")
    ∧ ¬diamond.Orderable [⟨1⟩, ⟨2⟩] ∧ (diamond.define "E" [⟨1⟩, ⟨2⟩]).2 = diamond := by
  have hroom : diamond.size < capacity := by decide +kernel
  have houtcome : (diamond.define "E" [⟨1⟩, ⟨2⟩]).1 = .error (.inconsistent "E") := by
    decide +kernel
  obtain ⟨hverdict, hunchanged, -⟩ := define_iff_verdict reachable_diamond hroom "E" [⟨1⟩, ⟨2⟩]
  refine ⟨reachable_diamond, hroom, houtcome, ?_, hunchanged _ houtcome⟩
  cases (hverdict _).mp houtcome with
  | badBase _ _ hbase => cases hbase
  | inconsistent _ _ horder => exact horder

end Bindery.Hierarchy
