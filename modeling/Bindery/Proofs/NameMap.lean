import Bindery.NameMap

/-!
# Reading a name map

An insertion is seen under its own name and nowhere else (`get?_insert`). The
order of the entries plays no part in this: `insertEntry` puts the new entry
in front of all others of its name, and a look-up stops at the first one.
-/

namespace Bindery.NameMap

universe u

variable {α : Type u}

theorem lookup_cons_eq_ite (name : String) (value : α) (entries : List (String × α))
    (other : String) :
    ((name, value) :: entries).lookup other =
      if other = name then some value else entries.lookup other := by
  rw [List.lookup_cons]
  by_cases h : other = name
  · rw [if_pos h, beq_iff_eq.mpr h]
  · rw [if_neg h, beq_eq_false_iff_ne.mpr h]

theorem lookup_insertEntry (name : String) (value : α) (entries : List (String × α))
    (other : String) :
    (insertEntry name value entries).lookup other =
      if other = name then some value else entries.lookup other := by
  induction entries with
  | nil => rw [insertEntry, lookup_cons_eq_ite]
  | cons head rest ih =>
      obtain ⟨first, held⟩ := head
      rw [insertEntry, lookup_cons_eq_ite first held rest]
      split
      · rw [lookup_cons_eq_ite, lookup_cons_eq_ite]
      · split
        · next heq =>
          rw [lookup_cons_eq_ite, ← heq]
          exact ite_congr rfl (fun _ => rfl) fun hne => (if_neg hne).symm
        · next hne =>
          rw [lookup_cons_eq_ite, ih]
          by_cases hfirst : other = first
          · have hname : ¬other = name := fun heq => hne (heq.symm.trans hfirst)
            rw [if_pos hfirst, if_neg hname, if_pos hfirst]
          · rw [if_neg hfirst, if_neg hfirst]

theorem get?_insert (m : NameMap α) (name : String) (value : α) (other : String) :
    (m.insert name value).get? other = if other = name then some value else m.get? other :=
  lookup_insertEntry name value m.entries other

theorem get?_insertMany (m : NameMap α) (entries : List (String × α)) (name : String) :
    (m.insertMany entries).get? name = (entries.reverse.lookup name).or (m.get? name) := by
  induction entries generalizing m with
  | nil => rfl
  | cons entry entries ih =>
      have hinsert : m.insertMany (entry :: entries) =
          (m.insert entry.1 entry.2).insertMany entries := rfl
      rw [hinsert, ih, get?_insert, List.reverse_cons, List.lookup_append, Option.or_assoc,
        lookup_cons_eq_ite]
      split <;> rfl

/-- The last entry of a name counts. -/
theorem get?_ofList (entries : List (String × α)) (name : String) :
    (ofList entries).get? name = entries.reverse.lookup name := by
  have hempty : (empty : NameMap α).get? name = none := rfl
  rw [ofList, get?_insertMany, hempty, Option.or_none]

theorem lookup_eq_none_of_lt {entries : List (String × α)} {name : String}
    (h : ∀ e ∈ entries, name < e.1) : entries.lookup name = none := by
  refine List.lookup_eq_none_iff.mpr fun e he => ?_
  exact bne_iff_ne.mpr fun heq => String.lt_irrefl name (heq ▸ h e he)

/-- Each name has one entry. -/
theorem get?_eq_some_iff {m : NameMap α} {name : String} {value : α} :
    m.get? name = some value ↔ (name, value) ∈ m.entries := by
  obtain ⟨entries, hascending⟩ := m
  show entries.lookup name = some value ↔ (name, value) ∈ entries
  induction hascending with
  | nil => exact iff_of_false (fun h => by cases h) List.not_mem_nil
  | @cons entry entries hhead _ ih =>
      obtain ⟨first, held⟩ := entry
      rw [lookup_cons_eq_ite, List.mem_cons, Prod.mk.injEq, ← ih]
      split
      · next heq =>
        have hno : entries.lookup name ≠ some value := by
          rw [lookup_eq_none_of_lt (heq ▸ hhead)]
          exact Option.some_ne_none value |>.symm
        rw [or_iff_left hno, and_iff_right heq, Option.some.injEq, eq_comm]
      · next hne => exact ⟨Or.inr, fun h => h.resolve_left fun heq => hne heq.1⟩

theorem nodup_entries (m : NameMap α) : m.entries.Nodup := by
  have hascending : m.entries.Pairwise fun a b => a.1 < b.1 := m.ascending
  refine hascending.imp fun hlt heq => ?_
  rw [heq] at hlt
  exact String.lt_irrefl _ hlt

/-- A map is what its look-ups say. -/
theorem ext_get? {m m' : NameMap α} (h : ∀ name, m.get? name = m'.get? name) : m = m' := by
  have hmem : ∀ e, e ∈ m.entries ↔ e ∈ m'.entries := by
    rintro ⟨name, value⟩
    rw [← get?_eq_some_iff, h, get?_eq_some_iff]
  have hperm := (List.perm_ext_iff_of_nodup m.nodup_entries m'.nodup_entries).mpr hmem
  have hentries : m.entries = m'.entries :=
    hperm.eq_of_pairwise (fun _ _ _ _ hab hba => absurd (String.lt_trans hab hba)
      (String.lt_irrefl _)) m.ascending m'.ascending
  cases m
  cases m'
  exact (mk.injEq ..).mpr hentries

/-- The entries of a map have distinct names, so their order does not matter to
one who adds them. -/
theorem get?_insertMany_entries (m extra : NameMap α) (name : String) :
    (m.insertMany extra.entries).get? name = (extra.get? name).or (m.get? name) := by
  obtain ⟨entries, hascending⟩ := extra
  rw [get?_insertMany]
  show _ = (entries.lookup name).or (m.get? name)
  congr 1
  induction hascending with
  | nil => rfl
  | @cons entry entries hhead _ ih =>
      obtain ⟨first, held⟩ := entry
      rw [List.reverse_cons, List.lookup_append, ih, lookup_cons_eq_ite, lookup_cons_eq_ite]
      split
      · next heq => rw [lookup_eq_none_of_lt (heq ▸ hhead), Option.none_or]
      · exact Option.or_none

end Bindery.NameMap
