import Bindery.Hierarchy.C3

/-!
# What a merge keeps

A merge that succeeds respects all of its rows: each row is a subsequence of
the result (`sublist_of_merge`). It neither loses nor invents an element
(`mem_merge_iff`), and it repeats none (`nodup_of_merge`), whatever the rows
look like.

All three go by the rounds of the merge. A round moves one element from the
heads of the rows to the result, and after it the element stands in no row
any more: it was in no tail when it was chosen, and every head that held it
has been struck.

A merge gives up only where it has to (`merge_eq_none_iff`): an order without
repetition that respects the rows respects them after a round as well, and
shows a head that the next round can take.
-/

namespace Bindery.C3

variable {α : Type} [DecidableEq α] {rows : List (List α)} {c : α}

/-! ## One round -/

/-- A row begins with the struck element, or striking leaves it as it is. -/
theorem eq_cons_dropHead_or (c : α) (row : List α) :
    row = c :: dropHead c row ∨ dropHead c row = row ∧ row.head? ≠ some c := by
  cases row with
  | nil => exact Or.inr ⟨rfl, fun h => nomatch h⟩
  | cons a rest =>
      by_cases h : a = c
      · subst h
        exact Or.inl (by rw [dropHead, if_pos rfl])
      · refine Or.inr ⟨by rw [dropHead, if_neg h], fun heq => ?_⟩
        exact h (Option.some.inj heq)

theorem dropHead_sublist (c : α) (row : List α) : (dropHead c row).Sublist row := by
  cases row with
  | nil => exact List.Sublist.refl []
  | cons a rest =>
      rw [dropHead]
      split
      · exact List.sublist_cons_self a rest
      · exact List.Sublist.refl (a :: rest)

theorem not_mem_tail_of_nextHead? (h : nextHead? rows = some c) {row : List α}
    (hrow : row ∈ rows) : c ∉ row.tail := by
  have hall := List.find?_some h
  have hno := List.all_eq_true.mp hall row hrow
  simpa using hno

theorem not_mem_of_mem_strike (h : nextHead? rows = some c) {row : List α}
    (hrow : row ∈ strike c rows) : c ∉ row := by
  obtain ⟨r, hr, rfl⟩ := List.mem_map.mp hrow
  have htail := not_mem_tail_of_nextHead? h hr
  rcases eq_cons_dropHead_or c r with heq | ⟨heq, hhead⟩
  · rw [heq, List.tail_cons] at htail
    exact htail
  · rw [heq]
    cases r with
    | nil => exact List.not_mem_nil
    | cons a rest =>
        intro hc
        rcases List.mem_cons.mp hc with rfl | hc
        · exact hhead rfl
        · exact htail hc

/-! ## All rounds -/

/-- **Every row is respected.** -/
theorem sublist_of_merge {m : List α} (h : merge rows = some m) {row : List α}
    (hrow : row ∈ rows) : row.Sublist m := by
  fun_induction merge rows generalizing m row with
  | case1 rows hempty =>
      have hnil : row = [] := List.isEmpty_iff.mp (List.all_eq_true.mp hempty row hrow)
      rw [hnil]
      exact List.nil_sublist m
  | case2 => cases h
  | case3 rows _ c _ ih =>
      obtain ⟨rest, hrest, rfl⟩ := Option.map_eq_some_iff.mp h
      have hsub := ih hrest (List.mem_map_of_mem hrow)
      rcases eq_cons_dropHead_or c row with heq | ⟨heq, -⟩
      · rw [heq]
        exact hsub.cons_cons c
      · rw [heq] at hsub
        exact hsub.cons c

/-- The result holds exactly the elements of the rows. -/
theorem mem_merge_iff {m : List α} (h : merge rows = some m) {a : α} :
    a ∈ m ↔ ∃ row ∈ rows, a ∈ row := by
  constructor
  · intro ha
    fun_induction merge rows generalizing m with
    | case1 =>
        obtain rfl := Option.some.inj h
        exact absurd ha List.not_mem_nil
    | case2 => cases h
    | case3 rows _ c hc ih =>
        obtain ⟨rest, hrest, rfl⟩ := Option.map_eq_some_iff.mp h
        rcases List.mem_cons.mp ha with rfl | ha
        · obtain ⟨row, hrow, hhead⟩ := List.mem_filterMap.mp (mem_heads_of_nextHead? hc)
          exact ⟨row, hrow, List.mem_of_head? hhead⟩
        · obtain ⟨struck, hstruck, hmem⟩ := ih hrest ha
          obtain ⟨row, hrow, rfl⟩ := List.mem_map.mp hstruck
          exact ⟨row, hrow, (dropHead_sublist c row).subset hmem⟩
  · rintro ⟨row, hrow, ha⟩
    exact (sublist_of_merge h hrow).subset ha

theorem nodup_of_merge {m : List α} (h : merge rows = some m) : m.Nodup := by
  fun_induction merge rows generalizing m with
  | case1 =>
      obtain rfl := Option.some.inj h
      exact List.nodup_nil
  | case2 => cases h
  | case3 rows _ c hc ih =>
      obtain ⟨rest, hrest, rfl⟩ := Option.map_eq_some_iff.mp h
      refine List.nodup_cons.mpr ⟨?_, ih hrest⟩
      intro hmem
      obtain ⟨row, hrow, hin⟩ := (mem_merge_iff hrest).mp hmem
      exact not_mem_of_mem_strike hc hrow hin

/-! ## Giving up -/

/-- An order without repetition that respects all rows shows a head to take:
of the elements of the rows, the one that it names first. -/
theorem exists_nextHead? {order : List α} (hnodup : order.Nodup)
    (hsub : ∀ row ∈ rows, row.Sublist order) (hne : ¬rows.all List.isEmpty = true) :
    ∃ c, nextHead? rows = some c := by
  induction order with
  | nil =>
      refine absurd (List.all_eq_true.mpr fun row hrow => ?_) hne
      exact List.isEmpty_iff.mpr (List.sublist_nil.mp (hsub row hrow))
  | cons a order ih =>
      obtain ⟨ha, hnodup⟩ := List.nodup_cons.mp hnodup
      by_cases hhead : a ∈ rows.filterMap List.head?
      · have hfree : ∀ row ∈ rows, (!row.tail.contains a) = true := by
          intro row hrow
          have hnot : a ∉ row.tail := fun hmem => ha ((hsub row hrow).tail.subset hmem)
          simpa using hnot
        exact Option.isSome_iff_exists.mp
          (List.find?_isSome.mpr ⟨a, hhead, List.all_eq_true.mpr hfree⟩)
      · refine ih hnodup fun row hrow => ?_
        cases hsub row hrow with
        | cons _ hrest => exact hrest
        | cons_cons _ _ => exact (hhead (List.mem_filterMap.mpr ⟨_, hrow, rfl⟩)).elim

/-- **A merge gives up only when no order respects all rows.** -/
theorem merge_eq_none_iff :
    merge rows = none ↔ ¬∃ order : List α, order.Nodup ∧ ∀ row ∈ rows, row.Sublist order := by
  constructor
  · rintro h ⟨order, hnodup, hsub⟩
    fun_induction merge rows with
    | case1 => cases h
    | case2 rows hne hno =>
        obtain ⟨c, hc⟩ := exists_nextHead? hnodup hsub hne
        cases hno.symm.trans hc
    | case3 rows _ c _ ih =>
        refine ih (Option.map_eq_none_iff.mp h) fun row hrow => ?_
        obtain ⟨r, hr, rfl⟩ := List.mem_map.mp hrow
        exact (dropHead_sublist c r).trans (hsub r hr)
  · intro hno
    cases hm : merge rows with
    | none => rfl
    | some m => exact absurd ⟨m, nodup_of_merge hm, fun row => sublist_of_merge hm⟩ hno

/-! ## Rows and their orders -/

/-- **A merge finds an order wherever there is one.** It succeeds exactly where
some order without repetition respects all rows, and then its result is such an
order, of the elements of the rows and no others. -/
theorem merge_finds_order (rows : List (List α)) :
    ((∃ m, merge rows = some m) ↔ ∃ order : List α, order.Nodup ∧ ∀ row ∈ rows, row.Sublist order)
    ∧ ∀ m, merge rows = some m →
        m.Nodup ∧ (∀ row ∈ rows, row.Sublist m) ∧ ∀ a, a ∈ m ↔ ∃ row ∈ rows, a ∈ row := by
  refine ⟨?_, fun m hm => ?_⟩
  · constructor
    · rintro ⟨m, hm⟩
      exact ⟨m, nodup_of_merge hm, fun row => sublist_of_merge hm⟩
    · intro horder
      exact Option.ne_none_iff_exists'.mp fun hnone => merge_eq_none_iff.mp hnone horder
  · exact ⟨nodup_of_merge hm, fun row => sublist_of_merge hm, fun a => mem_merge_iff hm⟩

/-- The rows of a diamond have an order, the same row once more included. A row
that repeats an element has none, nor have two rows that go opposite ways. -/
theorem merge_finds_order_diamond :
    (∃ m, merge [[1, 0], [2, 0], [1, 2], [1, 2]] = some m ∧ m = [1, 2, 0] ∧ m.Nodup
      ∧ ∀ a, a ∈ m ↔ ∃ row ∈ [[1, 0], [2, 0], [1, 2], [1, 2]], a ∈ row)
    ∧ (¬∃ order : List Nat, order.Nodup ∧ ∀ row ∈ [[0], [1, 1]], row.Sublist order)
    ∧ ¬∃ order : List Nat, order.Nodup ∧ ∀ row ∈ [[1, 2, 0], [2, 1]], row.Sublist order := by
  have hdiamond : merge [[1, 0], [2, 0], [1, 2], [1, 2]] = some [1, 2, 0] := by decide +kernel
  have hrepeated : merge [[0], [1, 1]] = none := by decide +kernel
  have hopposite : merge [[1, 2, 0], [2, 1]] = none := by decide +kernel
  obtain ⟨hnodup, -, hmem⟩ := (merge_finds_order [[1, 0], [2, 0], [1, 2], [1, 2]]).2 _ hdiamond
  refine ⟨⟨_, hdiamond, rfl, hnodup, hmem⟩, fun horder => ?_, fun horder => ?_⟩
  · obtain ⟨m, hm⟩ := (merge_finds_order [[0], [1, 1]]).1.mpr horder
    cases hrepeated.symm.trans hm
  · obtain ⟨m, hm⟩ := (merge_finds_order [[1, 2, 0], [2, 1]]).1.mpr horder
    cases hopposite.symm.trans hm

end Bindery.C3
