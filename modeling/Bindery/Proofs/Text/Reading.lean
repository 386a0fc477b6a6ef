import Bindery.Proofs.Text.Spacing
import Bindery.Proofs.Text.Solid

/-!
# Texts read as paragraphs

Paragraphs hold the words of their text and nothing else: white space parts
words wherever it stands, so neither trimming a line nor joining lines with a
space changes the words (`words_paragraphs`).

A blank line parts the paragraphs above it from those below, whatever stands
on either side (`paragraphs_append_break`). A paragraph alone is read as
itself, so paragraphs that are put together with blank lines are read back
(`paragraphs_intercalate`). The carriage return of a line ending is white space
at the end of a line, and trimming takes it off (`paragraphs_returned`).
-/

namespace Bindery.Text

open Bindery.Unicode

/-! ## Words -/

theorem words_nil : words [] = [] := rfl

theorem words_eq_nil_of_isBlank {blank : List Char} (h : isBlank blank = true) :
    words blank = [] := by
  induction blank with
  | nil => exact words_nil
  | cons c blank ih =>
      rw [isBlank_cons, Bool.and_eq_true] at h
      have hparts := words_append_cons h.1 [] blank
      rwa [words_nil, ih h.2] at hparts

/-- White space at either end belongs to no word. -/
theorem words_append_blank (text : List Char) {blank : List Char} (h : isBlank blank = true) :
    words (text ++ blank) = words text := by
  cases blank with
  | nil => rw [List.append_nil]
  | cons c blank =>
      rw [isBlank_cons, Bool.and_eq_true] at h
      rw [words_append_cons h.1, words_eq_nil_of_isBlank h.2, List.append_nil]

theorem words_trimStart (text : List Char) : words (trimStart text) = words text := by
  induction text with
  | nil => rfl
  | cons c text ih =>
      unfold trimStart at ih ⊢
      rw [List.dropWhile_cons]
      split
      · next hc =>
        have hparts := words_append_cons hc [] text
        rw [ih, ← List.nil_append (words text)]
        exact hparts.symm
      · rfl

theorem words_trim (text : List Char) : words (trim text) = words text := by
  obtain ⟨blank, hblank, htext⟩ := exists_trimEnd_append (trimStart text)
  rw [← words_trimStart text, ← htext, words_append_blank _ hblank, trim]

theorem words_intercalate {c : Char} (hc : isWhiteSpace c = true) (lines : List (List Char)) :
    words (List.intercalate [c] lines) = lines.flatMap words := by
  induction lines with
  | nil => rfl
  | cons line lines ih =>
      cases lines with
      | nil => simp
      | cons next lines =>
          rw [List.intercalate_cons_cons, List.append_assoc, List.singleton_append,
            words_append_cons hc, ih, List.flatMap_cons (x := line)]

theorem flatMap_words_filter (lines : List (List Char)) :
    (lines.filter (!·.isEmpty)).flatMap words = lines.flatMap words := by
  induction lines with
  | nil => rfl
  | cons line lines ih => cases line <;> simp [words_nil, ih]

/-- The lines of the groups are the lines that are not empty. -/
theorem flatten_lineGroups (text : List Char) :
    (lineGroups text).flatten = (trimmedLines text).filter (!·.isEmpty) := by
  rw [lineGroups, List.flatten_filter_not_isEmpty, flatten_splitOnP]

theorem flatMap_words_trimmedLines (text : List Char) :
    (trimmedLines text).flatMap words = words text := by
  have htext : List.intercalate ['\n'] (text.splitOn '\n') = text := List.intercalate_splitOn '\n'
  have hlines : trimmedLines text = (text.splitOn '\n').map trim := rfl
  calc (trimmedLines text).flatMap words
      = (text.splitOn '\n').flatMap words := by
        rw [hlines, List.flatMap_map]
        simp only [words_trim]
    _ = words text := by rw [← words_intercalate (show isWhiteSpace '\n' = true from rfl), htext]

/-- **Paragraphs hold the words of the text**, in their order. -/
theorem words_paragraphs (text : List Char) :
    (paragraphs text).flatMap words = words text := by
  calc (paragraphs text).flatMap words
      = (lineGroups text).flatMap (·.flatMap words) := by
        rw [paragraphs, List.flatMap_map]
        simp only [words_intercalate (show isWhiteSpace ' ' = true from rfl)]
    _ = (lineGroups text).flatten.flatMap words := by rw [← List.flatMap_id', List.flatMap_assoc]
    _ = words text := by rw [flatten_lineGroups, flatMap_words_filter, flatMap_words_trimmedLines]

/-! ## Lines of a paragraph -/

theorem newline_not_mem_of_mem_trimmedLines {text line : List Char}
    (h : line ∈ trimmedLines text) : '\n' ∉ line := by
  obtain ⟨raw, hraw, rfl⟩ := List.mem_map.mp h
  intro hmem
  cases (of_mem_splitOnP hraw ((trim_infix_self raw).subset hmem)).2

theorem newline_not_mem_of_mem_paragraphs {text p : List Char} (h : p ∈ paragraphs text) :
    '\n' ∉ p := by
  obtain ⟨group, hgroup, rfl⟩ := List.mem_map.mp h
  intro hmem
  rcases mem_intercalate hmem with hspace | ⟨line, hline, hin⟩
  · cases List.mem_singleton.mp hspace
  · exact newline_not_mem_of_mem_trimmedLines ((of_mem_lineGroups hgroup).2 line hline).1 hin

/-! ## Blank lines -/

theorem trimmedLines_append_cons (front rest : List Char) :
    trimmedLines (front ++ '\n' :: rest) = trimmedLines front ++ trimmedLines rest := by
  rw [trimmedLines, List.splitOnP_append_cons front rest rfl, List.map_append, trimmedLines,
    trimmedLines]

/-- A blank line parts paragraphs. -/
theorem paragraphs_append_break (front rest : List Char) :
    paragraphs (front ++ ['\n', '\n'] ++ rest) = paragraphs front ++ paragraphs rest := by
  have hlines : trimmedLines (front ++ ['\n', '\n'] ++ rest) =
      trimmedLines front ++ [] :: trimmedLines rest := by
    rw [List.append_assoc]
    exact (trimmedLines_append_cons front ('\n' :: rest)).trans
      (congrArg (trimmedLines front ++ ·) (trimmedLines_append_cons [] rest))
  have hgroups : lineGroups (front ++ ['\n', '\n'] ++ rest) =
      lineGroups front ++ lineGroups rest := by
    rw [lineGroups, hlines, List.splitOnP_append_cons _ _ rfl, List.filter_append, lineGroups,
      lineGroups]
  rw [paragraphs, hgroups, List.map_append, paragraphs, paragraphs]

/-- A line with solid ends is a paragraph of its own. -/
theorem paragraphs_of_solid {p : List Char} (hstart : StartsSolid p) (hend : EndsSolid p)
    (hline : '\n' ∉ p) : paragraphs p = [p] := by
  have hlines : trimmedLines p = [p] := by
    have hwhole : p.splitOnP (· == '\n') = [p] := List.splitOn_eq_singleton hline
    rw [trimmedLines, hwhole, List.map_singleton, trim, trimStart_of_startsSolid hstart,
      trimEnd_of_endsSolid hend]
  have hne : p.isEmpty = false := List.isEmpty_eq_false_iff.mpr hstart.ne_nil
  have hgroup : [p].splitOnP List.isEmpty = [[p]] :=
    List.splitOnP_eq_singleton (List.forall_mem_singleton.mpr hne)
  rw [paragraphs, lineGroups, hlines, hgroup]
  exact congrArg (· :: []) List.intercalate_singleton

/-- **Paragraphs joined with blank lines are read back.** -/
theorem paragraphs_intercalate {ps : List (List Char)}
    (h : ∀ p ∈ ps, StartsSolid p ∧ EndsSolid p ∧ '\n' ∉ p) :
    paragraphs (List.intercalate ['\n', '\n'] ps) = ps := by
  induction ps with
  | nil => rfl
  | cons p ps ih =>
      obtain ⟨⟨hstart, hend, hline⟩, hmore⟩ := List.forall_mem_cons.mp h
      have hp := paragraphs_of_solid hstart hend hline
      cases ps with
      | nil => rwa [List.intercalate_singleton]
      | cons next ps =>
          rw [List.intercalate_cons_cons, paragraphs_append_break, hp, ih hmore]
          rfl

/-! ## Line endings -/

/-- A text with a carriage return in front of each line feed. -/
def returned (text : List Char) : List Char :=
  text.flatMap fun c => if c = '\n' then ['\r', '\n'] else [c]

theorem trimmedLines_append_blank (text : List Char) {blank : List Char}
    (h : isBlank blank = true) (hline : '\n' ∉ blank) :
    trimmedLines (text ++ blank) = trimmedLines text := by
  obtain ⟨front, last, hsplit⟩ := exists_splitOnP_append (· == '\n') text
  have hbreak : ∀ c ∈ blank, (c == '\n') = false := by
    intro c hc
    exact beq_eq_false_iff_ne.mpr (ne_of_mem_of_not_mem hc hline)
  have htext := hsplit [] (List.forall_mem_nil _)
  rw [List.append_nil, List.append_nil] at htext
  rw [trimmedLines, hsplit blank hbreak, trimmedLines, htext, List.map_append, List.map_append,
    List.map_singleton, List.map_singleton, trim_append_blank last h]

/-- The induction walks the text; `front` is what is behind, its own line
endings as they come. -/
theorem trimmedLines_append_returned (front text : List Char) :
    trimmedLines (front ++ returned text) = trimmedLines (front ++ text) := by
  induction text generalizing front with
  | nil => rfl
  | cons c text ih =>
      by_cases hc : c = '\n'
      · subst hc
        calc trimmedLines (front ++ returned ('\n' :: text))
            = trimmedLines ((front ++ ['\r']) ++ '\n' :: returned text) := by simp [returned]
          _ = trimmedLines front ++ trimmedLines (returned text) := by
            rw [trimmedLines_append_cons, trimmedLines_append_blank front rfl (by simp)]
          _ = trimmedLines front ++ trimmedLines text := congrArg (trimmedLines front ++ ·) (ih [])
          _ = trimmedLines (front ++ '\n' :: text) := (trimmedLines_append_cons front text).symm
      · calc trimmedLines (front ++ returned (c :: text))
            = trimmedLines ((front ++ [c]) ++ returned text) := by simp [returned, hc]
          _ = trimmedLines (front ++ c :: text) := by rw [ih]; simp

/-- **Both line endings give the same paragraphs.** -/
theorem paragraphs_returned (text : List Char) : paragraphs (returned text) = paragraphs text := by
  have hlines : trimmedLines (returned text) = trimmedLines text :=
    trimmedLines_append_returned [] text
  rw [paragraphs, lineGroups, hlines, paragraphs, lineGroups]

end Bindery.Text
