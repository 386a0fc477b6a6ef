import Bindery.Proofs.Hierarchy.Names
import Bindery.Proofs.Hierarchy.Order

/-!
# The table after a series of definitions

A hierarchy keeps what it knows of a class in four places: its entry in the
table, its name in the index, its bases and its linearization. Nothing checks
that these agree; they do because every change is a definition. `Table` says
what all of them come to after any series of attempts on a new root, the
failed ones included.

The listing goes by steps: an attempt puts the class it defines at the end,
at the place that it returns, or changes nothing (`listing_define`). All
else holds of reachable hierarchies as such. That a linearization ends with
the root is a fact about the order it puts classes in: no class stands behind
one of its superclasses, and the root is a superclass of all.
-/

namespace Bindery.Hierarchy

variable {h : Hierarchy} {id : ClassId}

/-! ## The listing -/

/-- All classes in the order of the table, each with what its definition says. -/
def listing (h : Hierarchy) : List (ClassId × Request) :=
  h.toList.map fun e => (e.1, ⟨e.2.name, e.2.bases⟩)

/-- The classes that a series of attempts adds, in this order: the place that
the attempt returned, and the definition with its bases filled in. -/
def added (h : Hierarchy) : List Request → List (ClassId × Request)
  | [] => []
  | ⟨name, bases⟩ :: rest =>
    let attempt := h.define name bases
    (attempt.1.toOption.map (·, ⟨name, effectiveBases bases⟩)).toList ++ attempt.2.added rest

theorem listing_register (info : ClassInfo) :
    (h.register info).listing = h.listing ++ [(⟨h.size⟩, ⟨info.name, info.bases⟩)] := by
  rw [listing, toList_register, List.map_append, List.map_singleton, listing]

/-- What one attempt does to the listing. -/
theorem listing_define (h : Hierarchy) (name : String) (bases : List ClassId) :
    (h.define name bases).2.listing = h.listing ++
      ((h.define name bases).1.toOption.map (·, ⟨name, effectiveBases bases⟩)).toList := by
  have hattempt := attempt_define h name bases
  generalize h.define name bases = result at hattempt ⊢
  cases hattempt with
  | defined => exact listing_register _
  | taken | badBase | full | inconsistent => exact (List.append_nil _).symm

theorem listing_after (h : Hierarchy) (requests : List Request) :
    (h.after requests).listing = h.listing ++ h.added requests := by
  induction requests generalizing h with
  | nil => exact (List.append_nil _).symm
  | cons request rest ih =>
      rw [after, ih, listing_define, List.append_assoc]
      rfl

/-- Places are handed out without gaps. -/
theorem map_fst_toList (h : Hierarchy) :
    h.toList.map (·.1) = (List.range h.size).map ClassId.mk := by
  have hplaces : h.classes.toList.zipIdx.map Prod.snd = List.range h.size := by
    rw [List.zipIdx_map_snd, ← List.range_eq_range', Array.length_toList, size]
  rw [← hplaces, toList, List.map_map, List.map_map]
  rfl

theorem mem_toList_iff {info : ClassInfo} : (id, info) ∈ h.toList ↔ h.get? id = some info := by
  rw [toList, List.mem_map, get?, ← Array.getElem?_toList]
  constructor
  · rintro ⟨⟨held, i⟩, hmem, heq⟩
    obtain ⟨rfl, rfl⟩ := Prod.mk.inj heq
    exact List.mk_mem_zipIdx_iff_getElem?.mp hmem
  · intro hget
    exact ⟨(info, id.index), List.mk_mem_zipIdx_iff_getElem?.mpr hget, rfl⟩

/-! ## Linearizations -/

theorem getLast?_mro (wf : h.WellFormed) (hid : h.Registered id) :
    (h.mro id).getLast? = some .root := by
  obtain ⟨rest, hrest⟩ := root_prefix_ancestry wf hid
  rw [← List.reverse_reverse (h.mro id), List.getLast?_reverse]
  change (h.ancestry id).head? = some .root
  rw [← hrest, List.singleton_append, List.head?_cons]

theorem index_lt_of_mem_mro {a : ClassId} (wf : h.WellFormed) (ha : a ∈ h.mro id) (hne : a ≠ id) :
    a.index < id.index := by
  refine Nat.lt_of_le_of_ne (index_le_of_mem_mro wf ha) fun heq => hne ?_
  cases a; cases id
  exact congrArg ClassId.mk heq

/-! ## The table -/

/-- The entries of a class fit together: all edges lead to smaller places, and
the linearization goes from the class to the root. -/
structure Entry (h : Hierarchy) (id : ClassId) : Prop where
  bases_ne_nil : id ≠ .root → h.bases id ≠ []
  bases_nodup : (h.bases id).Nodup
  bases_lt : ∀ b ∈ h.bases id, b.index < id.index
  mro_head : (h.mro id).head? = some id
  mro_last : (h.mro id).getLast? = some .root
  mro_nodup : (h.mro id).Nodup
  mro_lt : ∀ a ∈ h.mro id, a ≠ id → a.index < id.index

/-- A hierarchy that holds a root and the added classes, in this order. -/
structure Table (h : Hierarchy) (root : String) (added : List (ClassId × Request)) : Prop where
  listing : h.listing = (.root, ⟨root, []⟩) :: added
  places : h.toList.map (·.1) = (List.range h.size).map ClassId.mk
  mem_toList_iff : ∀ id info, (id, info) ∈ h.toList ↔ h.get? id = some info
  root_bases : h.bases .root = []
  root_mro : h.mro .root = [.root]
  lookup?_iff : ∀ name id, h.lookup? name = some id ↔ h.name? id = some name
  name?_unique : ∀ id id' name, h.name? id = some name → h.name? id' = some name → id = id'
  entry : ∀ id, h.Registered id → h.Entry id

theorem WellFormed.entry (wf : h.WellFormed) (hid : h.Registered id) : h.Entry id := by
  obtain ⟨rest, hmro⟩ := mro_eq_cons wf hid
  have hbases : (id ≠ .root → h.bases id ≠ []) ∧ (h.bases id).Nodup
      ∧ ∀ b ∈ h.bases id, b.index < id.index := by
    by_cases hroot : id = .root
    · rw [hroot, wf.root_bases]
      exact ⟨fun hne => absurd rfl hne, List.nodup_nil, nofun⟩
    · obtain ⟨ancestors, hd⟩ := wf.derived id hid hroot
      exact ⟨fun _ => hd.bases_ne_nil, hd.bases_nodup, hd.bases_lt⟩
  exact
    { bases_ne_nil := hbases.1
      bases_nodup := hbases.2.1
      bases_lt := hbases.2.2
      mro_head := by rw [hmro, List.head?_cons]
      mro_last := getLast?_mro wf hid
      mro_nodup := nodup_mro wf id
      mro_lt := fun a => index_lt_of_mem_mro wf }

/-- **What any series of attempts on a new root leads to.** -/
theorem table_after (root : String) (requests : List Request) :
    Table ((ofRoot root).after requests) root ((ofRoot root).added requests) := by
  have hr := (Reachable.ofRoot root).after requests
  have wf := hr.wellFormed
  exact
    { listing := listing_after (ofRoot root) requests
      places := map_fst_toList _
      mem_toList_iff := fun id info => mem_toList_iff
      root_bases := wf.root_bases
      root_mro := wf.root_mro
      lookup?_iff := fun name id => hr.lookup?_eq_some_iff
      name?_unique := fun id id' name => hr.name?_unique
      entry := fun id => wf.entry }

end Bindery.Hierarchy
