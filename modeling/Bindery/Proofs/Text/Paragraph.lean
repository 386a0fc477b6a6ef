import Mathlib.Data.List.Basic
import Bindery.Text.Paragraph
import Bindery.Proofs.Unicode.WhiteSpace

/-!
# Ends of paragraphs

A paragraph is made of trimmed lines that are not empty, so both of its ends
are solid. A text that is not blank has a paragraph: its first solid character
survives the split into lines, the trimming of its line and the split into
groups. Both splits are `List.splitOnP`, which loses separators and nothing
else (`flatten_splitOnP`).
-/

namespace Bindery.Text

open Bindery.Unicode

/-! ## Pieces of a split -/

/-- The pieces of a split are everything but the separators, in order. -/
theorem flatten_splitOnP {α : Type} (p : α → Bool) (l : List α) :
    (l.splitOnP p).flatten = l.filter fun x => !p x := by
  induction l with
  | nil => rfl
  | cons x l ih =>
      rw [List.splitOnP_cons_eq_if_modifyHead, List.filter_cons]
      cases p x with
      | true => exact ih
      | false =>
          obtain ⟨piece, pieces, hl⟩ := List.exists_cons_of_ne_nil (List.splitOnP_ne_nil p l)
          rw [hl] at ih
          simp only [Bool.false_eq_true, ↓reduceIte, Bool.not_false, hl, List.modifyHead_cons,
            ← ih, List.flatten_cons, List.cons_append]

theorem of_mem_splitOnP {α : Type} {p : α → Bool} {l piece : List α} {x : α}
    (h : piece ∈ l.splitOnP p) (hx : x ∈ piece) : x ∈ l ∧ p x = false := by
  have hmem : x ∈ (l.splitOnP p).flatten := List.mem_flatten_of_mem h hx
  rwa [flatten_splitOnP, List.mem_filter, Bool.not_eq_true'] at hmem

theorem exists_mem_splitOnP {α : Type} {p : α → Bool} {l : List α} {x : α}
    (hx : x ∈ l) (hp : p x = false) : ∃ piece ∈ l.splitOnP p, x ∈ piece := by
  rw [← List.mem_flatten, flatten_splitOnP, List.mem_filter, hp]
  exact ⟨hx, rfl⟩

/-! ## Joined pieces -/

theorem intercalate_cons_eq_flatMap {α : Type} (sep first : List α) (later : List (List α)) :
    List.intercalate sep (first :: later) = first ++ later.flatMap (sep ++ ·) := by
  induction later generalizing first with
  | nil => rw [List.intercalate_singleton, List.flatMap_nil, List.append_nil]
  | cons next later ih =>
      rw [List.intercalate_cons_cons, ih next, List.flatMap_cons, List.append_assoc,
        List.append_assoc]

theorem mem_intercalate {α : Type} {sep : List α} {l : List (List α)} {x : α}
    (h : x ∈ List.intercalate sep l) : x ∈ sep ∨ ∃ piece ∈ l, x ∈ piece := by
  induction l with
  | nil => cases h
  | cons piece l ih =>
      cases l with
      | nil =>
          rw [List.intercalate_singleton] at h
          exact Or.inr ⟨piece, List.mem_cons_self, h⟩
      | cons next l =>
          rw [List.intercalate_cons_cons, List.mem_append, List.mem_append] at h
          rcases h with (h | h) | h
          · exact Or.inr ⟨piece, List.mem_cons_self, h⟩
          · exact Or.inl h
          · exact (ih h).imp_right fun ⟨p, hp, hx⟩ => ⟨p, List.mem_cons_of_mem piece hp, hx⟩

/-- The last piece is joined on at the end. -/
theorem exists_intercalate_concat {α : Type} (sep : List α) (l : List (List α)) :
    ∃ front, ∀ piece, List.intercalate sep (l ++ [piece]) = front ++ piece := by
  induction l with
  | nil => exact ⟨[], fun piece => List.intercalate_singleton⟩
  | cons first l ih =>
      obtain ⟨front, hfront⟩ := ih
      refine ⟨first ++ sep ++ front, fun piece => ?_⟩
      rw [List.cons_append, List.intercalate_cons_of_ne_nil (List.concat_ne_nil piece l),
        hfront piece, ← List.append_assoc]

theorem intercalate_concat {α : Type} (sep : List α) {l : List (List α)} (hne : l ≠ [])
    (piece : List α) : List.intercalate sep (l ++ [piece]) = List.intercalate sep l ++ (sep ++ piece) := by
  obtain ⟨first, later, rfl⟩ := List.exists_cons_of_ne_nil hne
  rw [List.cons_append, intercalate_cons_eq_flatMap, intercalate_cons_eq_flatMap, List.flatMap_append,
    List.flatMap_singleton, List.append_assoc]

theorem getLast?_intercalate_concat {α : Type} (sep : List α) (l : List (List α))
    {piece : List α} (hne : piece ≠ []) :
    (List.intercalate sep (l ++ [piece])).getLast? = piece.getLast? := by
  obtain ⟨front, hfront⟩ := exists_intercalate_concat sep l
  rw [hfront, List.getLast?_append_of_ne_nil front hne]

/-! ## Lines -/

theorem solid_of_mem_trimmedLines {text line : List Char} (h : line ∈ trimmedLines text)
    (hne : line ≠ []) : StartsSolid line ∧ EndsSolid line := by
  obtain ⟨raw, _, rfl⟩ := List.mem_map.mp h
  have hraw : isBlank raw = false := Bool.eq_false_iff.mpr fun hblank =>
    hne (trim_eq_nil_iff.mpr hblank)
  exact ⟨startsSolid_trim hraw, endsSolid_trim hraw⟩

theorem exists_line_of_not_isBlank {text : List Char} (h : isBlank text = false) :
    ∃ line ∈ trimmedLines text, line ≠ [] := by
  obtain ⟨c, hc, hsolid⟩ := isBlank_eq_false_iff.mp h
  have hbreak : (c == '\n') = false := by
    refine beq_eq_false_iff_ne.mpr ?_
    rintro rfl
    cases hsolid
  obtain ⟨raw, hraw, hcraw⟩ := exists_mem_splitOnP (p := (· == '\n')) hc hbreak
  refine ⟨trim raw, List.mem_map_of_mem hraw, ?_⟩
  intro hnil
  cases (isBlank_iff.mp (trim_eq_nil_iff.mp hnil) c hcraw).symm.trans hsolid

/-! ## Paragraphs -/

theorem of_mem_lineGroups {text : List Char} {group : List (List Char)}
    (h : group ∈ lineGroups text) :
    group ≠ [] ∧ ∀ line ∈ group, line ∈ trimmedLines text ∧ line ≠ [] := by
  obtain ⟨hgroup, hne⟩ := List.mem_filter.mp h
  refine ⟨?_, ?_⟩
  · rintro rfl
    cases hne
  · intro line hline
    obtain ⟨hmem, hempty⟩ := of_mem_splitOnP hgroup hline
    exact ⟨hmem, List.isEmpty_eq_false_iff.mp hempty⟩

theorem startsSolid_intercalate {line : List Char} (more : List (List Char))
    (h : StartsSolid line) : StartsSolid (List.intercalate [' '] (line :: more)) := by
  cases more with
  | nil => rwa [List.intercalate_singleton]
  | cons next more =>
      rw [List.intercalate_cons_cons]
      exact (h.append [' ']).append _

theorem startsSolid_of_mem_paragraphs {text p : List Char} (h : p ∈ paragraphs text) :
    StartsSolid p := by
  obtain ⟨group, hgroup, rfl⟩ := List.mem_map.mp h
  obtain ⟨hne, hlines⟩ := of_mem_lineGroups hgroup
  cases group with
  | nil => exact absurd rfl hne
  | cons line more =>
      obtain ⟨hmem, hline⟩ := hlines line List.mem_cons_self
      exact startsSolid_intercalate more (solid_of_mem_trimmedLines hmem hline).1

theorem endsSolid_of_mem_paragraphs {text p : List Char} (h : p ∈ paragraphs text) :
    EndsSolid p := by
  obtain ⟨group, hgroup, rfl⟩ := List.mem_map.mp h
  obtain ⟨hne, hlines⟩ := of_mem_lineGroups hgroup
  obtain ⟨hmem, hline⟩ := hlines (group.getLast hne) (List.getLast_mem hne)
  rw [← List.dropLast_append_getLast hne, EndsSolid, getLast?_intercalate_concat [' '] _ hline]
  exact (solid_of_mem_trimmedLines hmem hline).2

theorem paragraphs_of_isBlank {text : List Char} (h : isBlank text = true) :
    paragraphs text = [] := by
  refine List.eq_nil_iff_forall_not_mem.mpr fun p hp => ?_
  obtain ⟨group, hgroup, rfl⟩ := List.mem_map.mp hp
  obtain ⟨hne, hlines⟩ := of_mem_lineGroups hgroup
  obtain ⟨hmem, hline⟩ := hlines _ (List.head_mem hne)
  obtain ⟨raw, hraw, htrim⟩ := List.mem_map.mp hmem
  have hblank : isBlank raw = true :=
    isBlank_iff.mpr fun c hc => isBlank_iff.mp h c (of_mem_splitOnP hraw hc).1
  exact hline (htrim ▸ trim_eq_nil_iff.mpr hblank)

theorem paragraphs_ne_nil {text : List Char} (h : isBlank text = false) :
    paragraphs text ≠ [] := by
  obtain ⟨line, hline, hne⟩ := exists_line_of_not_isBlank h
  obtain ⟨group, hgroup, hmem⟩ :=
    exists_mem_splitOnP (p := List.isEmpty) hline (List.isEmpty_eq_false_iff.mpr hne)
  have hkept : group ∈ lineGroups text := by
    refine List.mem_filter.mpr ⟨hgroup, ?_⟩
    rw [List.isEmpty_eq_false_iff.mpr (List.ne_nil_of_mem hmem)]
    rfl
  exact List.ne_nil_of_mem (List.mem_map_of_mem hkept)

end Bindery.Text
