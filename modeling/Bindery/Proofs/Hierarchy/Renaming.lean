import Mathlib.Data.List.Basic
import Mathlib.Data.List.Find
import Mathlib.Data.Set.Function
import Bindery.Proofs.Hierarchy.Merge

/-!
# Merging under other names

A merge only asks whether two elements are the same. So a renaming that keeps
the elements of the rows apart may be done before the merge or after it
(`merge_map`), and the merge of renamed rows gives up when the merge of the
rows does.

The renaming need not be injective beyond the rows. Each round of the merge
works on a part of what the round before it had, so it is enough to ask for it
at the start.
-/

namespace Bindery.C3

variable {α β : Type} [DecidableEq α] [DecidableEq β] {f : α → β} {rows : List (List α)} {c : α}

/-! ## The equations of a merge -/

theorem merge_of_nextHead? (hne : ¬rows.all List.isEmpty = true) (hc : nextHead? rows = some c) :
    merge rows = (merge (strike c rows)).map (c :: ·) := by
  rw [merge, if_neg hne]
  split
  · next hnone => cases hnone.symm.trans hc
  · next hsome =>
    obtain rfl := Option.some.inj (hsome.symm.trans hc)
    rfl

theorem merge_of_nextHead?_eq_none (hne : ¬rows.all List.isEmpty = true)
    (hnone : nextHead? rows = none) : merge rows = none := by
  rw [merge, if_neg hne]
  split
  · rfl
  · next hsome => cases hnone.symm.trans hsome

/-! ## Where the elements of a round come from -/

omit [DecidableEq α] in
theorem mem_flatten_of_mem_heads {a : α} (ha : a ∈ rows.filterMap List.head?) :
    a ∈ rows.flatten := by
  obtain ⟨row, hrow, hhead⟩ := List.mem_filterMap.mp ha
  exact List.mem_flatten.mpr ⟨row, hrow, List.mem_of_head? hhead⟩

theorem mem_flatten_of_mem_strike {a : α} (ha : a ∈ (strike c rows).flatten) :
    a ∈ rows.flatten := by
  obtain ⟨struck, hstruck, hmem⟩ := List.mem_flatten.mp ha
  obtain ⟨row, hrow, rfl⟩ := List.mem_map.mp hstruck
  exact List.mem_flatten.mpr ⟨row, hrow, (dropHead_sublist c row).subset hmem⟩

/-! ## One row -/

theorem contains_map {row : List α} (hinj : Set.InjOn f {a | a = c ∨ a ∈ row}) :
    (row.map f).contains (f c) = row.contains c := by
  rw [List.contains_eq_mem, List.contains_eq_mem, decide_eq_decide, List.mem_map]
  constructor
  · rintro ⟨a, ha, heq⟩
    rwa [← hinj (Or.inr ha) (Or.inl rfl) heq]
  · intro hc
    exact ⟨c, hc, rfl⟩

theorem dropHead_map {row : List α} (hinj : Set.InjOn f {a | a = c ∨ a ∈ row}) :
    dropHead (f c) (row.map f) = (dropHead c row).map f := by
  cases row with
  | nil => rfl
  | cons a row =>
      have heq : f a = f c ↔ a = c :=
        ⟨hinj (Or.inr List.mem_cons_self) (Or.inl rfl), congrArg f⟩
      rw [List.map_cons, dropHead, dropHead]
      by_cases ha : a = c
      · rw [if_pos ha, if_pos (heq.mpr ha)]
      · rw [if_neg ha, if_neg fun hf => ha (heq.mp hf), List.map_cons]

/-! ## One round -/

omit [DecidableEq α] [DecidableEq β] in
theorem all_isEmpty_map (f : α → β) (rows : List (List α)) :
    (rows.map (List.map f)).all List.isEmpty = rows.all List.isEmpty := by
  rw [List.all_map]
  exact congrArg (List.all rows) (funext fun row => List.isEmpty_map)

omit [DecidableEq α] [DecidableEq β] in
theorem heads_map (f : α → β) (rows : List (List α)) :
    (rows.map (List.map f)).filterMap List.head? = (rows.filterMap List.head?).map f := by
  rw [List.filterMap_map, List.map_filterMap]
  exact List.filterMap_congr fun row _ => List.head?_map

theorem nextHead?_map (hinj : Set.InjOn f {a | a ∈ rows.flatten}) :
    nextHead? (rows.map (List.map f)) = (nextHead? rows).map f := by
  rw [nextHead?, heads_map, List.find?_map, nextHead?]
  refine congrArg (Option.map f) (List.find?_congr fun a ha => ?_)
  rw [Function.comp_apply, Bool.eq_iff_iff, List.all_eq_true, List.all_eq_true,
    List.forall_mem_map]
  refine forall₂_congr fun row hrow => ?_
  have hsub : {b | b = a ∨ b ∈ row.tail} ⊆ {b | b ∈ rows.flatten} := by
    rintro b (rfl | hb)
    · exact mem_flatten_of_mem_heads ha
    · exact List.mem_flatten.mpr ⟨row, hrow, List.mem_of_mem_tail hb⟩
  rw [← List.map_tail, contains_map (hinj.mono hsub)]

theorem strike_map (hc : c ∈ rows.flatten) (hinj : Set.InjOn f {a | a ∈ rows.flatten}) :
    strike (f c) (rows.map (List.map f)) = (strike c rows).map (List.map f) := by
  rw [strike, strike, List.map_map, List.map_map]
  refine List.map_congr_left fun row hrow => ?_
  have hsub : {a | a = c ∨ a ∈ row} ⊆ {a | a ∈ rows.flatten} := by
    rintro a (rfl | ha)
    · exact hc
    · exact List.mem_flatten.mpr ⟨row, hrow, ha⟩
  exact dropHead_map (hinj.mono hsub)

/-! ## All rounds -/

/-- **A merge commutes with a renaming of its elements.** -/
theorem merge_map (hinj : Set.InjOn f {a | a ∈ rows.flatten}) :
    merge (rows.map (List.map f)) = (merge rows).map (List.map f) := by
  fun_induction merge rows with
  | case1 rows hall =>
      rw [merge, all_isEmpty_map, if_pos hall]
      rfl
  | case2 rows hne hnone =>
      have hnone' : nextHead? (rows.map (List.map f)) = none := by
        rw [nextHead?_map hinj, hnone]
        rfl
      rw [merge_of_nextHead?_eq_none (by rwa [all_isEmpty_map]) hnone']
      rfl
  | case3 rows hne c hc ih =>
      have hc' : nextHead? (rows.map (List.map f)) = some (f c) := by
        rw [nextHead?_map hinj, hc]
        rfl
      have hmem := mem_flatten_of_mem_heads (mem_heads_of_nextHead? hc)
      have hinj' : Set.InjOn f {a | a ∈ (strike c rows).flatten} :=
        hinj.mono fun a => mem_flatten_of_mem_strike
      rw [merge_of_nextHead? (by rwa [all_isEmpty_map]) hc', strike_map hmem hinj, ih hinj',
        Option.map_map, Option.map_map]
      rfl

end Bindery.C3
