import Bindery.Doc.Layout
import Bindery.Proofs.Text.Paragraph
import Bindery.Proofs.Text.Wrap

/-!
# Rows and output lines

What every layout goes through. The rows of a text are lines of text
(`IsLine`) and gaps, and a text that is not blank ends with a line. Decorating
them brings in no white space but spaces (`onlySpaces_of_mem_map_rows`). A layout
joins its lines with line feeds and indentation; no line holds a line feed of
its own, so the output falls into the same lines again, indented after the
first one (`outputLines_joinAt`).
-/

namespace Bindery.Doc

open Bindery.Unicode Bindery.Text

/-! ## Rows -/

theorem exists_mem_wrap_of_mem_rows {width : Nat} {text line : List Char}
    (h : some line ∈ rows width text) : ∃ p ∈ paragraphs text, line ∈ wrap width p := by
  rcases mem_intercalate h with hgap | ⟨lines, hlines, hline⟩
  · cases List.mem_singleton.mp hgap
  · obtain ⟨p, hp, rfl⟩ := List.mem_map.mp hlines
    obtain ⟨wrapped, hwrapped, hsome⟩ := List.mem_map.mp hline
    obtain rfl := Option.some.inj hsome
    exact ⟨p, hp, hwrapped⟩

theorem isLine_of_mem_rows {width : Nat} {text line : List Char}
    (h : some line ∈ rows width text) : IsLine width line := by
  obtain ⟨p, hp, hline⟩ := exists_mem_wrap_of_mem_rows h
  exact isLine_of_mem_wrap (startsSolid_of_mem_paragraphs hp) (endsSolid_of_mem_paragraphs hp) hline

/-- The last row of a text that is not blank is the last line of its last
paragraph. -/
theorem exists_rows_eq_concat {text : List Char} (h : isBlank text = false) (width : Nat) :
    ∃ front line, rows width text = front ++ [some line] ∧ EndsSolid line := by
  obtain ⟨ps, p, hps⟩ : ∃ ps p, paragraphs text = ps ++ [p] :=
    ⟨_, _, (List.dropLast_append_getLast (paragraphs_ne_nil h)).symm⟩
  have hp : p ∈ paragraphs text := hps ▸ List.mem_append_right ps List.mem_cons_self
  have hstart := startsSolid_of_mem_paragraphs hp
  have hend := endsSolid_of_mem_paragraphs hp
  have hne := wrap_ne_nil hstart hend width
  have hlast : (rows width text).getLast? = (wrap width p).getLast?.map some := by
    rw [rows, hps, List.map_append, List.map_singleton,
      getLast?_intercalate_concat [none] _ (mt List.map_eq_nil_iff.mp hne), List.getLast?_map]
  cases hline : (wrap width p).getLast? with
  | none => exact absurd (List.getLast?_eq_none_iff.mp hline) hne
  | some line =>
      rw [hline] at hlast
      obtain ⟨front, hfront⟩ := List.getLast?_eq_some_iff.mp hlast
      exact ⟨front, line, hfront, endsSolid_getLast_wrap hstart hend width line hline⟩

/-- The first row is the first line of the first paragraph. -/
theorem exists_rows_eq_cons {text : List Char} (h : isBlank text = false) (width : Nat) :
    ∃ line more, rows width text = some line :: more := by
  obtain ⟨p, ps, hps⟩ := List.exists_cons_of_ne_nil (paragraphs_ne_nil h)
  have hp : p ∈ paragraphs text := hps ▸ List.mem_cons_self
  obtain ⟨line, lines, hwrap⟩ := List.exists_cons_of_ne_nil
    (wrap_ne_nil (startsSolid_of_mem_paragraphs hp) (endsSolid_of_mem_paragraphs hp) width)
  rw [rows, hps, List.map_cons, intercalate_cons_eq_flatMap, hwrap]
  exact ⟨line, _, rfl⟩

theorem rows_ne_nil {text : List Char} (h : isBlank text = false) (width : Nat) :
    rows width text ≠ [] := by
  obtain ⟨front, line, hrows, _⟩ := exists_rows_eq_concat h width
  rw [hrows]
  exact List.concat_ne_nil _ _

/-! ## Decorated rows -/

theorem onlySpaces_indentation (column : Nat) : OnlySpaces (indentation column) := by
  intro c hc
  obtain rfl := List.eq_of_mem_replicate hc
  decide

/-- A decoration with no other white space than spaces keeps the rows that way. -/
theorem onlySpaces_of_mem_map_rows {width : Nat} {text out : List Char}
    {decorate : Option (List Char) → List Char} (hgap : OnlySpaces (decorate none))
    (hline : ∀ line, OnlySpaces line → OnlySpaces (decorate (some line)))
    (h : out ∈ (rows width text).map decorate) : OnlySpaces out := by
  obtain ⟨row, hrow, rfl⟩ := List.mem_map.mp h
  cases row with
  | none => exact hgap
  | some line => exact hline line (isLine_of_mem_rows hrow).onlySpaces

theorem onlySpaces_of_mem_textLines {text line : List Char} {column : Nat}
    (h : line ∈ textLines text column) : OnlySpaces line := by
  refine onlySpaces_of_mem_map_rows ?_ (fun row hrow => ?_) h
  · exact List.forall_mem_nil _
  · exact onlySpaces_append.mpr ⟨onlySpaces_indentation column, hrow⟩

theorem onlySpaces_of_mem_adaLines {text line : List Char} {column : Nat}
    (h : line ∈ adaLines text column) : OnlySpaces line := by
  refine onlySpaces_of_mem_map_rows ?_ (fun row hrow => ?_) h
  · decide
  · exact onlySpaces_append.mpr ⟨by decide, hrow⟩

theorem onlySpaces_of_mem_pythonLines {text line : List Char} {column : Nat}
    (h : line ∈ pythonLines text column) : OnlySpaces line := by
  rcases List.mem_append.mp h with h | h
  · rcases List.mem_cons.mp h with rfl | h
    · decide
    · exact onlySpaces_of_mem_textLines h
  · obtain rfl := List.mem_singleton.mp h
    exact onlySpaces_append.mpr ⟨onlySpaces_indentation column, by decide⟩

/-! ## Output lines -/

/-- The lines of generated source, without their line feeds. -/
def outputLines (text : String) : List (List Char) := text.toList.splitOn '\n'

/-- Lines as they come out: the first where the cursor stands, the others
with their indentation. -/
def indented (column : Nat) : List (List Char) → List (List Char)
  | [] => []
  | first :: later => first :: later.map (indentation column ++ ·)

theorem indented_zero (lines : List (List Char)) : indented 0 lines = lines := by
  cases lines with
  | nil => rfl
  | cons first later => exact congrArg (first :: ·) (List.map_id later)

theorem joinAt_eq_intercalate (column : Nat) (lines : List (List Char)) :
    joinAt column lines = List.intercalate ['\n'] (indented column lines) := by
  cases lines with
  | nil => rfl
  | cons first later =>
      rw [joinAt, indented, intercalate_cons_eq_flatMap, intercalate_cons_eq_flatMap,
        List.flatMap_map]
      rfl

theorem newline_not_mem_indentation (column : Nat) : '\n' ∉ indentation column := by
  intro h
  cases List.eq_of_mem_replicate h

theorem outputLines_joinAt (column : Nat) {lines : List (List Char)} (hne : lines ≠ [])
    (h : ∀ line ∈ lines, '\n' ∉ line) :
    outputLines (String.ofList (joinAt column lines)) = indented column lines := by
  cases lines with
  | nil => exact absurd rfl hne
  | cons first later =>
      rw [outputLines, String.toList_ofList, joinAt_eq_intercalate]
      refine List.splitOn_intercalate '\n' ?_ (List.cons_ne_nil _ _)
      intro line hline
      rcases List.mem_cons.mp hline with rfl | hline
      · exact h line List.mem_cons_self
      · obtain ⟨row, hrow, rfl⟩ := List.mem_map.mp hline
        rw [List.mem_append, not_or]
        exact ⟨newline_not_mem_indentation column, h row (List.mem_cons_of_mem first hrow)⟩

theorem newline_not_mem_of_onlySpaces {line : List Char} (h : OnlySpaces line) : '\n' ∉ line := by
  intro hmem
  cases h '\n' hmem

theorem outputLines_formatText {text : String} (h : isBlank text.toList = false) (column : Nat) :
    outputLines (formatText text column) = textLines text.toList column :=
  (outputLines_joinAt 0 (List.map_eq_nil_iff.not.mpr (rows_ne_nil h _)) fun _ hline =>
    newline_not_mem_of_onlySpaces (onlySpaces_of_mem_textLines hline)).trans (indented_zero _)

theorem outputLines_formatAda {text : String} (h : isBlank text.toList = false) (column : Nat) :
    outputLines (formatAda text column) = indented column (adaLines text.toList column) :=
  outputLines_joinAt column (List.map_eq_nil_iff.not.mpr (rows_ne_nil h _))
    fun _ hline => newline_not_mem_of_onlySpaces (onlySpaces_of_mem_adaLines hline)

theorem outputLines_formatPython (text : String) (column : Nat) :
    outputLines (formatPython text column) = pythonLines text.toList column :=
  (outputLines_joinAt 0 (List.concat_ne_nil _ _) fun _ hline =>
    newline_not_mem_of_onlySpaces (onlySpaces_of_mem_pythonLines hline)).trans (indented_zero _)

/-! ## Widths -/

/-- No line reaches past `limit`; the first one starts at `column`. -/
def Within (limit column : Nat) : List (List Char) → Prop
  | [] => True
  | first :: later => column + first.length ≤ limit ∧ ∀ line ∈ later, line.length ≤ limit

instance (limit column : Nat) (lines : List (List Char)) :
    Decidable (Within limit column lines) := by
  cases lines <;> unfold Within <;> infer_instance

theorem within_indented_iff {limit column : Nat} {lines : List (List Char)} :
    Within limit column (indented column lines) ↔
      ∀ line ∈ lines, column + line.length ≤ limit := by
  cases lines with
  | nil => exact ⟨fun _ => nofun, fun _ => trivial⟩
  | cons first later =>
      simp only [indented, Within, List.forall_mem_cons, List.forall_mem_map,
        List.length_append, indentation, List.length_replicate]

theorem dropLast_indented (column : Nat) (lines : List (List Char)) :
    (indented column lines).dropLast = indented column lines.dropLast := by
  cases lines with
  | nil => rfl
  | cons first later =>
      cases later with
      | nil => rfl
      | cons next later =>
          rw [indented, List.dropLast_cons_of_ne_nil
            (List.map_eq_nil_iff.not.mpr (List.cons_ne_nil next later)), ← List.map_dropLast,
            List.dropLast_cons_of_ne_nil (List.cons_ne_nil next later), indented]

end Bindery.Doc
