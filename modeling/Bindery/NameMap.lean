/-!
# Name maps

Finite maps from names to values, kept as a list of entries in strictly
ascending name order. The order is part of the type (`NameMap.ascending`), so
two maps with the same entries are equal, and a listing never depends on the
order of insertion.

Names are ordered by code point, from left to right, a proper beginning
first: the order of core's `String`.
-/

namespace Bindery

universe u

/-! ## Entries -/

/-- Entries of a name map: each name is below all names after it. -/
def NameMap.Ascending {α : Type u} (entries : List (String × α)) : Prop :=
  entries.Pairwise fun a b => a.1 < b.1

/-- Put an entry in its place; an entry of the same name is replaced. -/
def NameMap.insertEntry {α : Type u} (name : String) (value : α) :
    List (String × α) → List (String × α)
  | [] => [(name, value)]
  | (other, held) :: rest =>
    if name < other then (name, value) :: (other, held) :: rest
    else if name = other then (name, value) :: rest
    else (other, held) :: insertEntry name value rest

theorem NameMap.mem_insertEntry {α : Type u} {name : String} {value : α} {e : String × α}
    {entries : List (String × α)} (h : e ∈ insertEntry name value entries) :
    e = (name, value) ∨ e ∈ entries := by
  induction entries with
  | nil => exact .inl (List.mem_singleton.mp h)
  | cons head rest ih =>
    obtain ⟨other, held⟩ := head
    rw [insertEntry] at h
    split at h
    · exact (List.mem_cons.mp h).imp id id
    · split at h
      · exact (List.mem_cons.mp h).imp id (List.mem_cons_of_mem _)
      · rcases List.mem_cons.mp h with rfl | h
        · exact .inr (List.mem_cons_self ..)
        · exact (ih h).imp id (List.mem_cons_of_mem _)

theorem NameMap.Ascending.insertEntry {α : Type u} {entries : List (String × α)}
    (h : Ascending entries) (name : String) (value : α) :
    Ascending (NameMap.insertEntry name value entries) := by
  induction entries with
  | nil => exact List.pairwise_singleton _ _
  | cons head rest ih =>
    obtain ⟨other, held⟩ := head
    obtain ⟨hhead, hrest⟩ := List.pairwise_cons.mp h
    rw [NameMap.insertEntry]
    split
    · next hlt =>
      refine List.pairwise_cons.mpr ⟨fun e he => ?_, h⟩
      rcases List.mem_cons.mp he with rfl | he
      · exact hlt
      · exact String.lt_trans hlt (hhead e he)
    · next hlt =>
      split
      · next heq => exact List.pairwise_cons.mpr ⟨fun e he => heq ▸ hhead e he, hrest⟩
      · next hne =>
        refine List.pairwise_cons.mpr ⟨fun e he => ?_, ih hrest⟩
        rcases mem_insertEntry he with rfl | he
        · exact Std.lt_of_le_of_ne (String.not_lt.mp hlt) (Ne.symm hne)
        · exact hhead e he

/-! ## Maps -/

structure NameMap (α : Type u) where
  entries : List (String × α)
  ascending : NameMap.Ascending entries
deriving DecidableEq, Repr

namespace NameMap

variable {α : Type u}

def empty : NameMap α := ⟨[], .nil⟩

def insert (m : NameMap α) (name : String) (value : α) : NameMap α :=
  ⟨insertEntry name value m.entries, m.ascending.insertEntry name value⟩

def get? (m : NameMap α) (name : String) : Option α := m.entries.lookup name

/-- Add entries one after the other; the last entry of a name counts. -/
def insertMany (m : NameMap α) (entries : List (String × α)) : NameMap α :=
  entries.foldl (fun m e => m.insert e.1 e.2) m

def ofList (entries : List (String × α)) : NameMap α := empty.insertMany entries

end NameMap

end Bindery
