import Mathlib.Data.List.Basic
import Bindery.Proofs.Text.Recovery

/-!
# Solid characters

The characters of a text that are not white space. Trimming, joining lines
with blanks, counting white space as spaces and wrapping all keep them, in
their order (`solid_trim`, `solid_intercalate`, `solid_spaced`, `solid_wrap`).

Where the paragraphs of a text begin and end can be read off the solid
characters of its lines too: `solidGroups` splits at the lines without any, and
that is what the paragraphs hold (`map_solid_paragraphs`). So two texts whose
lines agree in their solid characters have the same paragraphs up to white
space.
-/

namespace Bindery.Text

open Bindery.Unicode

/-- The characters that are not white space. -/
def solid (text : List Char) : List Char := text.filter (!isWhiteSpace ·)

theorem solid_append (front rest : List Char) : solid (front ++ rest) = solid front ++ solid rest :=
  List.filter_append front rest

theorem solid_eq_nil_iff {text : List Char} : solid text = [] ↔ isBlank text = true := by
  simp [solid, isBlank_iff]

theorem isEmpty_solid (text : List Char) : (solid text).isEmpty = isBlank text := by
  rw [Bool.eq_iff_iff, List.isEmpty_iff, solid_eq_nil_iff]

theorem solid_ne_nil {text : List Char} (h : isBlank text = false) : solid text ≠ [] := by
  rw [ne_eq, solid_eq_nil_iff, h]
  exact Bool.false_ne_true

theorem solid_replicate_space (n : Nat) : solid (List.replicate n ' ') = [] :=
  solid_eq_nil_iff.mpr (isBlank_replicate_space n)

/-! ## Trimming -/

theorem solid_trimStart (text : List Char) : solid (trimStart text) = solid text := by
  induction text with
  | nil => rfl
  | cons c text ih =>
      rw [trimStart, List.dropWhile_cons]
      split
      · next hc =>
        rw [← trimStart, ih, solid, solid, List.filter_cons, hc]
        rfl
      · rfl

theorem solid_trimEnd (text : List Char) : solid (trimEnd text) = solid text := by
  have h := solid_trimStart text.reverse
  simp only [solid, List.filter_reverse] at h
  rw [trimEnd, solid, List.filter_reverse, h, List.reverse_reverse, solid]

theorem solid_trim (text : List Char) : solid (trim text) = solid text := by
  rw [trim, solid_trimEnd, solid_trimStart]

/-! ## Joining and wrapping -/

theorem solid_intercalate {sep : List Char} (hsep : isBlank sep = true) (lines : List (List Char)) :
    solid (List.intercalate sep lines) = (lines.map solid).flatten := by
  induction lines with
  | nil => rfl
  | cons line lines ih =>
      cases lines with
      | nil => simp
      | cons next lines =>
          rw [List.intercalate_cons_cons, solid_append, solid_append, ih, solid_eq_nil_iff.mpr hsep,
            List.append_nil]
          rfl

theorem solid_spaced (text : List Char) : solid (spaced text) = solid text := by
  induction text with
  | nil => rfl
  | cons c text ih =>
      simp only [solid, spaced, List.map_cons, List.filter_cons, isWhiteSpace_spaced] at ih ⊢
      split
      · next hc =>
        rw [ih, if_neg (by simpa using hc)]
      · exact ih

theorem solid_padded (lines : List (Nat × List Char)) :
    solid (padded lines) = (lines.map fun line => solid line.2).flatten := by
  induction lines with
  | nil => rfl
  | cons line lines ih =>
      rw [padded_cons, solid_append, solid_append, solid_replicate_space, ih]
      rfl

/-- The lines of a paragraph hold its solid characters. -/
theorem solid_wrap {p : List Char} (hstart : StartsSolid p) (hend : EndsSolid p) (width : Nat) :
    ((wrap width p).map solid).flatten = solid p := by
  obtain ⟨padding, trail, hlines, htext⟩ :=
    (wraps_of_solid hstart hend (by omega : 0 < max width 1)).exists_padded <| by
      rw [flatten_chunks]
      exact onlySpaces_spaced p
  rw [flatten_chunks] at htext
  rw [wrap, hlines, ← solid_spaced p, htext, solid_append, solid_padded, solid_replicate_space,
    List.map_map, List.append_nil]
  rfl

/-! ## Groups of lines -/

theorem splitOnP_map {α β : Type} (f : α → β) (p : β → Bool) (l : List α) :
    (l.map f).splitOnP p = (l.splitOnP (p ∘ f)).map (List.map f) := by
  induction l with
  | nil => rfl
  | cons x l ih =>
      simp only [List.map_cons, List.splitOnP_cons_eq_if_modifyHead, ih, Function.comp_apply]
      split
      · rfl
      · obtain ⟨piece, pieces, hl⟩ := List.exists_cons_of_ne_nil (List.splitOnP_ne_nil (p ∘ f) l)
        rw [hl]
        rfl

theorem splitOnP_congr {α : Type} {p q : α → Bool} {l : List α} (h : ∀ x ∈ l, p x = q x) :
    l.splitOnP p = l.splitOnP q := by
  induction l with
  | nil => rfl
  | cons x l ih =>
      rw [List.forall_mem_cons] at h
      simp only [List.splitOnP_cons_eq_if_modifyHead, h.1, ih h.2]

/-- The groups that no empty line splits. -/
def groups (lines : List (List Char)) : List (List (List Char)) :=
  (lines.splitOnP List.isEmpty).filter (!·.isEmpty)

/-- The solid characters of each group of lines. Lines without any stand between two groups. -/
def solidGroups (lines : List (List Char)) : List (List Char) :=
  (groups (lines.map solid)).map List.flatten

theorem groups_map {f : List Char → List Char} (hf : ∀ line, (f line).isEmpty = isBlank line)
    (lines : List (List Char)) :
    groups (lines.map f) = ((lines.splitOnP isBlank).filter (!·.isEmpty)).map (List.map f) := by
  have hblank : List.isEmpty ∘ f = isBlank := funext hf
  rw [groups, splitOnP_map, hblank, List.filter_map]
  congr 2
  funext group
  simp

theorem map_solid_paragraphs (text : List Char) :
    (paragraphs text).map solid = solidGroups (text.splitOn '\n') := by
  have htrim : ∀ line, (trim line).isEmpty = isBlank line := by
    intro line
    rw [Bool.eq_iff_iff, List.isEmpty_iff, trim_eq_nil_iff]
  have hgroups : lineGroups text = groups ((text.splitOn '\n').map trim) := rfl
  rw [paragraphs, hgroups, solidGroups, groups_map htrim, groups_map isEmpty_solid, List.map_map,
    List.map_map, List.map_map]
  refine List.map_congr_left fun group _ => ?_
  show solid (List.intercalate [' '] (group.map trim)) = (group.map solid).flatten
  rw [solid_intercalate (by decide), List.map_map]
  congr 2
  funext line
  exact solid_trim line

/-! ## A line more -/

theorem exists_splitOnP_append {α : Type} (p : α → Bool) (l : List α) :
    ∃ front last, ∀ more, (∀ x ∈ more, p x = false) →
      (l ++ more).splitOnP p = front ++ [last ++ more] := by
  induction l with
  | nil => exact ⟨[], [], fun more hmore => List.splitOnP_eq_singleton hmore⟩
  | cons x l ih =>
      obtain ⟨front, last, hl⟩ := ih
      simp only [List.cons_append, List.splitOnP_cons_eq_if_modifyHead]
      cases p x with
      | true => exact ⟨[] :: front, last, fun more hmore => congrArg ([] :: ·) (hl more hmore)⟩
      | false =>
          cases front with
          | nil =>
              refine ⟨[], x :: last, fun more hmore => ?_⟩
              rw [hl more hmore]
              rfl
          | cons piece front =>
              refine ⟨(x :: piece) :: front, last, fun more hmore => ?_⟩
              rw [hl more hmore]
              rfl

/-- Breaking the last line between two solid characters leaves its group as it is. -/
theorem solidGroups_break_last (lines : List (List Char)) {last front rest : List Char}
    (hfront : isBlank front = false) (hrest : isBlank rest = false)
    (hlast : solid last = solid front ++ solid rest) :
    solidGroups (lines ++ [front, rest]) = solidGroups (lines ++ [last]) := by
  obtain ⟨above, lower, hsplit⟩ := exists_splitOnP_append List.isEmpty (lines.map solid)
  have hbroken : ∀ line ∈ [solid front, solid rest], line.isEmpty = false := by
    simp [solid_ne_nil hfront, solid_ne_nil hrest]
  have hwhole : ∀ line ∈ [solid last], line.isEmpty = false := by
    simp [hlast, solid_ne_nil hfront]
  simp only [solidGroups, groups, List.map_append, List.map_cons, List.map_nil,
    hsplit _ hbroken, hsplit _ hwhole, List.filter_append]
  simp [hlast]

end Bindery.Text
