import Mathlib.Data.List.DropRight
import Bindery.Proofs.Doc.Closing
import Bindery.Proofs.Text.Solid

/-!
# Documentation read back from its layout

Each layout decorates the rows of a text, and taking the decoration off gives
the documentation back up to white space: the same paragraphs, in the same
order, each with the same characters other than white space
(`format_recovers`).

The argument is the same for all four. The rows of a text hold its paragraphs
(`solidGroups_rows`), what joins lines is blank (`map_solid_joinAt`), and what
is left of the decoration of a row is blank as well. Only the C comment changes
its rows beyond that, where it moves the last word to a line of its own.
-/

namespace Bindery.Doc

open Bindery.Unicode Bindery.Text

/-! ## Rows hold their paragraphs -/

/-- The characters of a row, none for a gap. -/
def rowText (row : Option (List Char)) : List Char := row.getD []

theorem isEmpty_solid_rowText {width : Nat} {text : List Char} {row : Option (List Char)}
    (h : row ∈ rows width text) : (solid (rowText row)).isEmpty = (row == none) := by
  cases row with
  | none => rfl
  | some line =>
      rw [isEmpty_solid]
      exact (isLine_of_mem_rows h).startsSolid.isBlank

theorem splitOn_rows {text : List Char} (h : isBlank text = false) (width : Nat) :
    (rows width text).splitOn none =
      (paragraphs text).map fun p => (wrap width p).map some := by
  refine List.splitOn_intercalate none ?_ (List.map_eq_nil_iff.not.mpr (paragraphs_ne_nil h))
  intro lines hlines
  obtain ⟨p, _, rfl⟩ := List.mem_map.mp hlines
  simp

/-- A decoration that leaves nothing of a gap and something of every line shows
the paragraphs. -/
theorem groups_map_rows {text : List Char} (h : isBlank text = false) {width : Nat}
    {decorate : Option (List Char) → List Char}
    (hgap : ∀ row ∈ rows width text, (decorate row).isEmpty = (row == none)) :
    groups ((rows width text).map decorate) =
      (paragraphs text).map fun p => (wrap width p).map (decorate ∘ some) := by
  have hsplit : (rows width text).splitOnP (List.isEmpty ∘ decorate) = (rows width text).splitOn none :=
    splitOnP_congr hgap
  have hkept : ∀ group ∈ (paragraphs text).map fun p => (wrap width p).map (decorate ∘ some),
      (!group.isEmpty) = true := by
    intro group hgroup
    obtain ⟨p, hp, rfl⟩ := List.mem_map.mp hgroup
    simp [wrap_ne_nil (startsSolid_of_mem_paragraphs hp) (endsSolid_of_mem_paragraphs hp)]
  rw [groups, splitOnP_map, hsplit, splitOn_rows h, List.map_map]
  simp only [Function.comp_def, List.map_map] at hkept ⊢
  exact List.filter_eq_self.mpr hkept

theorem solidGroups_rows {text : List Char} (h : isBlank text = false) (width : Nat) :
    solidGroups ((rows width text).map rowText) = (paragraphs text).map solid := by
  have hgap : ∀ row ∈ rows width text, ((solid ∘ rowText) row).isEmpty = (row == none) :=
    fun row hrow => isEmpty_solid_rowText hrow
  rw [solidGroups, List.map_map, groups_map_rows h hgap, List.map_map]
  refine List.map_congr_left fun p hp => ?_
  exact solid_wrap (startsSolid_of_mem_paragraphs hp) (endsSolid_of_mem_paragraphs hp) width

/-- Breaking the last row in two, or adding blanks to it, keeps the paragraphs. -/
theorem Closed.solidGroups_eq {rows body : List (Option (List Char))} (h : Closed rows body) :
    solidGroups (body.map rowText) = solidGroups (rows.map rowText) := by
  cases h with
  | @same above line =>
      have hline : solid (line ++ "  ".toList) = solid line := by
        rw [solid_append]
        exact List.append_nil _
      simp only [solidGroups, rowText, List.map_append, List.map_cons, Option.getD_some, hline]
  | @moved above front word hfront hword =>
      have hline : solid (front ++ ' ' :: word) =
          solid (trimEnd front) ++ solid (word ++ "   ".toList) := by
        rw [solid_append, solid_trimEnd, solid_append word]
        exact congrArg (solid front ++ ·) (List.append_nil _).symm
      have hmoved : isBlank (word ++ "   ".toList) = false := by
        rw [isBlank_append, hword.isBlank, Bool.false_and]
      simp only [List.map_append, List.map_cons, List.map_nil]
      exact solidGroups_break_last (above.map rowText) hfront.trimEnd.isBlank hmoved hline

/-! ## Joined lines -/

theorem map_solid_indented (column : Nat) (lines : List (List Char)) :
    (indented column lines).map solid = lines.map solid := by
  cases lines with
  | nil => rfl
  | cons first later =>
      rw [indented, List.map_cons, List.map_cons, List.map_map]
      congr 2
      funext line
      rw [Function.comp_apply, solid_append, indentation, solid_replicate_space, List.nil_append]

/-- Indentation and line feeds leave the paragraphs of the lines as they are. -/
theorem map_solid_joinAt (column : Nat) {lines : List (List Char)} (hne : lines ≠ [])
    (hlines : ∀ line ∈ lines, OnlySpaces line) :
    (paragraphs (joinAt column lines)).map solid = solidGroups lines := by
  have hsplit := outputLines_joinAt column hne fun line hline =>
    newline_not_mem_of_onlySpaces (hlines line hline)
  rw [outputLines, String.toList_ofList] at hsplit
  rw [map_solid_paragraphs, hsplit, solidGroups, map_solid_indented, ← solidGroups]

/-! ## Without the decoration -/

/-- The characters of each paragraph that are not white space. -/
def solidParagraphs (text : String) : List (List Char) :=
  (splitParagraphs text).map fun p => solid p.toList

theorem solidParagraphs_eq (text : String) :
    solidParagraphs text = (paragraphs text.toList).map solid := by
  rw [solidParagraphs, splitParagraphs, List.map_map]
  refine List.map_congr_left fun p _ => ?_
  rw [Function.comp_apply, String.toList_ofList]

/-- Lines that hold the paragraphs of the rows recover the text. -/
theorem solidParagraphs_joinAt {text : String} (h : isBlank text.toList = false)
    {width column : Nat} {lines : List (List Char)} (hlines : ∀ line ∈ lines, OnlySpaces line)
    (hrows : solidGroups lines = solidGroups ((rows width text.toList).map rowText)) :
    solidParagraphs (String.ofList (joinAt column lines)) = solidParagraphs text := by
  rw [solidGroups_rows h] at hrows
  have hne : lines ≠ [] := by
    rintro rfl
    exact paragraphs_ne_nil h (List.map_eq_nil_iff.mp hrows.symm)
  rw [solidParagraphs_eq, solidParagraphs_eq, String.toList_ofList, map_solid_joinAt column hne hlines,
    hrows]

/-- The lines without the indentation of those after the first. -/
def unindented (column : Nat) : List (List Char) → List (List Char)
  | [] => []
  | first :: later => first :: later.map (List.drop column)

theorem unindented_indented (column : Nat) (lines : List (List Char)) :
    unindented column (indented column lines) = lines := by
  cases lines with
  | nil => rfl
  | cons first later => simp [indented, unindented, indentation, Function.comp_def]

/-- A line without the comment mark at its head. -/
def dropMark : List Char → List Char
  | '-' :: '-' :: rest => rest
  | line => line

def bareAda (column : Nat) (out : String) : String :=
  String.ofList (joinAt 0 ((unindented column (outputLines out)).map dropMark))

def bareC (out : String) : String := String.ofList ((out.toList.drop 2).rdrop 2)

def barePython (out : String) : String := String.ofList (joinAt 0 (outputLines out).tail.dropLast)

/-! ## The four layouts -/

/-- A decoration that adds blanks only keeps the paragraphs. -/
theorem solidGroups_decorated {decorate : Option (List Char) → List Char}
    (hgap : solid (decorate none) = []) (hline : ∀ line, solid (decorate (some line)) = solid line)
    (rows : List (Option (List Char))) :
    solidGroups (rows.map decorate) = solidGroups (rows.map rowText) := by
  rw [solidGroups, solidGroups, List.map_map, List.map_map]
  refine congrArg (fun lines => (groups lines).map List.flatten) ?_
  refine List.map_congr_left fun row _ => ?_
  cases row with
  | none => exact hgap
  | some line => exact hline line

theorem solidGroups_bodyLines (rows : List (Option (List Char))) :
    solidGroups (bodyLines rows) = solidGroups (rows.map rowText) := by
  cases rows with
  | nil => rfl
  | cons row more =>
      have hinner : more.map (solid ∘ innerRow) = more.map (solid ∘ rowText) := by
        refine List.map_congr_left fun row _ => ?_
        cases row <;> rfl
      simp only [solidGroups, bodyLines, List.map_cons, List.map_map, hinner]
      rfl

section Layouts

variable {text : String} (h : isBlank text.toList = false) (column : Nat)

include h

theorem solidParagraphs_textLines :
    solidParagraphs (String.ofList (joinAt 0 (textLines text.toList column))) =
      solidParagraphs text := by
  refine solidParagraphs_joinAt h (fun line => onlySpaces_of_mem_textLines)
    (solidGroups_decorated rfl (fun line => ?_) _)
  rw [textRow, solid_append, indentation, solid_replicate_space, List.nil_append]

theorem solidParagraphs_bareAda :
    solidParagraphs (bareAda column (formatAda text column)) = solidParagraphs text := by
  rw [bareAda, outputLines_formatAda h, unindented_indented, adaLines, List.map_map]
  refine solidParagraphs_joinAt h (fun line hline => ?_)
    (solidGroups_decorated rfl (fun line => rfl) _)
  refine onlySpaces_of_mem_map_rows ?_ (fun row hrow => ?_) hline
  · decide
  · exact onlySpaces_append.mpr ⟨(by decide : OnlySpaces "  ".toList), hrow⟩

theorem solidParagraphs_bareC :
    solidParagraphs (bareC (formatC text column)) = solidParagraphs text := by
  obtain ⟨body, hclosed, hout⟩ := exists_formatC_eq h column
  have hbare : (("/*".toList ++ joinAt column (bodyLines body) ++ "*/".toList).drop 2).rdrop 2 =
      joinAt column (bodyLines body) :=
    List.rdrop_append_length
  rw [bareC, hout, hbare]
  exact solidParagraphs_joinAt h
    (hclosed.onlySpaces_of_mem_bodyLines fun line hline => (isLine_of_mem_rows hline).onlySpaces)
    ((solidGroups_bodyLines body).trans hclosed.solidGroups_eq)

theorem solidParagraphs_barePython :
    solidParagraphs (barePython (formatPython text column)) = solidParagraphs text := by
  have hbare : (pythonLines text.toList column).tail.dropLast = textLines text.toList column :=
    List.dropLast_concat
  rw [barePython, outputLines_formatPython, hbare]
  exact solidParagraphs_textLines h column

end Layouts

/-- **Every layout can be read back.** Without its decoration, the output has the
paragraphs of the text, with the same characters other than white space. -/
theorem format_recovers {text : String} (h : isBlank text.toList = false) (column : Nat) :
    solidParagraphs (formatText text column) = solidParagraphs text
    ∧ solidParagraphs (bareAda column (formatAda text column)) = solidParagraphs text
    ∧ solidParagraphs (bareC (formatC text column)) = solidParagraphs text
    ∧ solidParagraphs (barePython (formatPython text column)) = solidParagraphs text :=
  ⟨solidParagraphs_textLines h column, solidParagraphs_bareAda h column,
    solidParagraphs_bareC h column, solidParagraphs_barePython h column⟩

/-- Two paragraphs in a narrow column: the closing mark of the C comment takes the
last word along. -/
theorem format_recovers_moved_word :
    isBlank "aa bb\n\ncccc ddddd".toList = false
    ∧ cLines "aa bb\n\ncccc ddddd".toList 66 =
        ["/* aa bb".toList, [], "   cccc".toList, "   ddddd   */".toList]
    ∧ solidParagraphs (bareC (formatC "aa bb\n\ncccc ddddd" 66)) =
        ["aabb".toList, "ccccddddd".toList] := by
  have htext : isBlank "aa bb\n\ncccc ddddd".toList = false := by decide
  have hparagraphs : solidParagraphs "aa bb\n\ncccc ddddd" =
      ["aabb".toList, "ccccddddd".toList] := by decide +kernel
  obtain ⟨_, _, hcomment, _⟩ := format_recovers htext 66
  exact ⟨htext, by decide +kernel, hcomment.trans hparagraphs⟩

end Bindery.Doc
