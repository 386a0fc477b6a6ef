import Bindery.Proofs.NameMap
import Bindery.Proofs.Hierarchy.Reachable

/-!
# Names of classes

A hierarchy holds its names twice: in the table, and in the index that
`lookup?` asks. Only definitions write to either, and a definition refuses a
name that the index has. So the two stay in step: a name is found at a place
exactly when the class at that place has it (`lookup?_eq_some_iff`).
-/

namespace Bindery.Hierarchy

variable {h : Hierarchy} {id : ClassId} {name : String}

/-- Some class of the table has the name. -/
def Named (h : Hierarchy) (name : String) : Prop := ∃ id, h.name? id = some name

/-! ## Registering a class -/

theorem get?_register_of_ne (info : ClassInfo) (hid : id ≠ ⟨h.size⟩) :
    (h.register info).get? id = h.get? id := by
  by_cases hreg : h.Registered id
  · exact get?_register_of_registered info hreg
  · rw [get?_eq_none_iff.mpr hreg, get?_eq_none_iff, Registered, size_register]
    have hne : id.index ≠ h.size := fun heq => hid (congrArg ClassId.mk heq)
    have hge : ¬id.index < h.size := hreg
    omega

theorem name?_register_self (info : ClassInfo) :
    (h.register info).name? ⟨h.size⟩ = some info.name := by
  rw [name?, get?_register_self]
  rfl

theorem name?_register_of_ne (info : ClassInfo) (hid : id ≠ ⟨h.size⟩) :
    (h.register info).name? id = h.name? id := by
  rw [name?, get?_register_of_ne info hid, name?]

theorem lookup?_register (info : ClassInfo) (name : String) :
    (h.register info).lookup? name = if name = info.name then some ⟨h.size⟩ else h.lookup? name :=
  NameMap.get?_insert h.places info.name ⟨h.size⟩ name

theorem exists_name? (hid : h.Registered id) : ∃ name, h.name? id = some name := by
  cases hget : h.get? id with
  | none => exact absurd hid (get?_eq_none_iff.mp hget)
  | some info => exact ⟨info.name, by rw [name?, hget]; rfl⟩

/-! ## Table and index -/

theorem registered_of_name?_eq_some (hname : h.name? id = some name) : h.Registered id := by
  obtain ⟨info, hget, -⟩ := Option.map_eq_some_iff.mp hname
  exact registered_of_get?_eq_some hget

/-- A class that was not there before, under a name that was not in the index,
keeps the two in step. -/
theorem lookup?_register_eq_some_iff {info : ClassInfo}
    (hstep : ∀ {name id}, h.lookup? name = some id ↔ h.name? id = some name)
    (hfree : h.lookup? info.name = none) :
    (h.register info).lookup? name = some id ↔ (h.register info).name? id = some name := by
  rw [lookup?_register]
  by_cases hid : id = ⟨h.size⟩
  · subst hid
    have hold : ¬h.lookup? name = some ⟨h.size⟩ := fun hlook =>
      Nat.lt_irrefl _ (registered_of_name?_eq_some (hstep.mp hlook))
    rw [name?_register_self, Option.some.injEq]
    by_cases hname : name = info.name
    · rw [if_pos hname]
      exact iff_of_true rfl hname.symm
    · rw [if_neg hname]
      exact iff_of_false hold (Ne.symm hname)
  · rw [name?_register_of_ne info hid]
    by_cases hname : name = info.name
    · have hold : ¬h.name? id = some name := fun heq => by
        rw [← hstep, hname, hfree] at heq
        cases heq
      rw [if_pos hname]
      exact iff_of_false (fun heq => hid (Option.some.inj heq).symm) hold
    · rw [if_neg hname]
      exact hstep

/-- A root alone is the first class of an empty table. -/
theorem lookup?_ofRoot_eq_some_iff {root : String} :
    (ofRoot root).lookup? name = some id ↔ (ofRoot root).name? id = some name := by
  have hroot : ofRoot root = register ⟨#[], .empty⟩ ⟨root, [], [.root]⟩ := rfl
  rw [hroot]
  exact lookup?_register_eq_some_iff (iff_of_false nofun nofun) rfl

/-- **The index and the table name the same classes.** -/
theorem Reachable.lookup?_eq_some_iff (hr : Reachable h) :
    h.lookup? name = some id ↔ h.name? id = some name := by
  induction hr generalizing name id with
  | ofRoot root => exact lookup?_ofRoot_eq_some_iff
  | @define h new bases _ ih =>
      have hattempt := attempt_define h new bases
      generalize h.define new bases = result at hattempt ⊢
      cases hattempt with
      | defined hfree hbases hsize hmerge => exact lookup?_register_eq_some_iff ih hfree
      | taken | badBase | full | inconsistent => exact ih

theorem Reachable.name?_unique (hr : Reachable h) {id' : ClassId} (hid : h.name? id = some name)
    (hid' : h.name? id' = some name) : id = id' :=
  Option.some.inj ((hr.lookup?_eq_some_iff.mpr hid).symm.trans (hr.lookup?_eq_some_iff.mpr hid'))

theorem Reachable.lookup?_ne_none_iff (hr : Reachable h) :
    h.lookup? name ≠ none ↔ h.Named name := by
  rw [Option.ne_none_iff_exists', Named]
  exact exists_congr fun id => hr.lookup?_eq_some_iff

end Bindery.Hierarchy
