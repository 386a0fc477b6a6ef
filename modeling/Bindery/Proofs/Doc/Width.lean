import Bindery.Proofs.Doc.Frame

/-!
# Widths of the layouts

A wrapped line fits the room that its layout leaves, or is a single character
where there is none. So up to the column at which a mark and one character
still fit, no line reaches past the line width, the line with the closing mark
of a C comment aside; and from the column on that leaves room for at most one
character, every line of text is just that (`format_within`).
-/

namespace Bindery.Doc

open Bindery.Unicode Bindery.Text

/-! ## Blank texts -/

section Blank

variable {text : String} (h : isBlank text.toList = true) (column : Nat)

include h

theorem textLines_of_isBlank : textLines text.toList column = [] := by
  rw [textLines, rows, paragraphs_of_isBlank h]
  rfl

theorem formatText_of_isBlank : formatText text column = "" := by
  rw [formatText, textLines_of_isBlank h]
  rfl

theorem formatAda_of_isBlank : formatAda text column = "" := by
  rw [formatAda, adaLines, rows, paragraphs_of_isBlank h]
  rfl

theorem outputLines_formatPython_of_isBlank : outputLines (formatPython text column) =
    [docstringQuotes, indentation column ++ docstringQuotes] := by
  rw [outputLines_formatPython, pythonLines, textLines_of_isBlank h]
  rfl

end Blank

/-! ## Lines that fit -/

/-- Rows behind a mark, in a room that has a column for them. -/
theorem length_le_of_mem_map_rows {width marks : Nat} {text : List Char}
    {decorate : Option (List Char) → List Char} (hwidth : 1 ≤ width)
    (hgap : (decorate none).length ≤ marks)
    (hline : ∀ line, (decorate (some line)).length = marks + line.length) :
    ∀ out ∈ (rows width text).map decorate, out.length ≤ marks + width := by
  intro out hout
  obtain ⟨row, hrow, rfl⟩ := List.mem_map.mp hout
  cases row with
  | none => exact Nat.le_add_right_of_le hgap
  | some line =>
      have hlength := (isLine_of_mem_rows hrow).length_le
      rw [Nat.max_eq_left hwidth] at hlength
      rw [hline]
      exact Nat.add_le_add_left hlength marks

theorem length_le_of_mem_textLines {text : List Char} {column : Nat} (hcolumn : column ≤ 78) :
    ∀ line ∈ textLines text column, line.length ≤ lineWidth := by
  have hroom : column + availableWidth column = lineWidth := by
    unfold availableWidth lineWidth
    omega
  rw [← hroom]
  refine length_le_of_mem_map_rows ?_ (Nat.zero_le _) fun line => ?_
  · unfold lineWidth at hroom
    omega
  · rw [textRow, List.length_append, indentation, List.length_replicate]

theorem length_le_of_mem_formatText (text : String) {column : Nat} (hcolumn : column ≤ 78) :
    ∀ line ∈ outputLines (formatText text column), line.length ≤ lineWidth := by
  cases h : isBlank text.toList with
  | true =>
      rw [formatText_of_isBlank h]
      exact List.forall_mem_singleton.mpr (Nat.zero_le _)
  | false =>
      rw [outputLines_formatText h]
      exact length_le_of_mem_textLines hcolumn

theorem exists_outputLines_formatAda (text : String) (column : Nat) :
    ∃ lines, outputLines (formatAda text column) = indented column lines
      ∧ (column ≤ 74 → ∀ line ∈ lines, column + line.length ≤ lineWidth) := by
  cases h : isBlank text.toList with
  | true =>
      rw [formatAda_of_isBlank h]
      refine ⟨[[]], rfl, fun hcolumn => List.forall_mem_singleton.mpr ?_⟩
      exact Nat.le_trans hcolumn (by decide)
  | false =>
      refine ⟨adaLines text.toList column, outputLines_formatAda h column, fun hcolumn => ?_⟩
      have hroom : column + (4 + (availableWidth column - 4)) = lineWidth := by
        unfold availableWidth lineWidth
        omega
      rw [← hroom]
      intro line hline
      refine Nat.add_le_add_left (length_le_of_mem_map_rows ?_ ?_ (fun line => ?_) line hline) column
      · unfold lineWidth at hroom
        omega
      · decide
      · exact List.length_append

theorem within_pythonLines (text : List Char) {column : Nat} (hcolumn : column ≤ 76) :
    Within lineWidth column (pythonLines text column) := by
  have hquotes : column + docstringQuotes.length ≤ lineWidth := by
    show column + 3 ≤ 79
    omega
  refine ⟨hquotes, List.forall_mem_append.mpr ⟨?_, List.forall_mem_singleton.mpr ?_⟩⟩
  · exact length_le_of_mem_textLines (Nat.le_trans hcolumn (by decide))
  · rwa [List.length_append, indentation, List.length_replicate]

/-! ## Above the closing mark -/

theorem exists_indented_concat (column : Nat) (lines : List (List Char)) :
    ∃ blanks, ∀ line, indented column (lines ++ [line]) = indented column lines ++ [blanks ++ line] := by
  cases lines with
  | nil => exact ⟨[], fun _ => rfl⟩
  | cons first later =>
      refine ⟨indentation column, fun line => ?_⟩
      rw [List.cons_append, indented, indented, List.map_append]
      rfl

/-- The last of the lines carries the mark. A line above it is a part of the
line of text that was cut. -/
theorem Marked.exists_concat {width : Nat} {line : List Char} {closing : List (List Char)}
    (h : Marked width line closing) :
    ∃ upper text, closing = upper ++ [text ++ "*/".toList]
      ∧ ∀ out ∈ upper, out.length ≤ line.length := by
  cases h with
  | whole _ =>
      refine ⟨[], line ++ "  ".toList, ?_, nofun⟩
      rw [List.append_assoc]
      rfl
  | @cut front gap word _ _ _ _ =>
      refine ⟨[front], word ++ "   ".toList, ?_, List.forall_mem_singleton.mpr ?_⟩
      · rw [List.append_assoc]
        rfl
      · simp only [List.length_append]
        omega

theorem exists_formatC_within (text : String) {column : Nat} (hcolumn : column ≤ 75) :
    ∃ above last, outputLines (formatC text column) = above ++ [last]
      ∧ Within lineWidth column above
      ∧ (isBlank text.toList = false → "*/".toList <:+ last) := by
  cases h : isBlank text.toList with
  | true =>
      rw [formatC_of_isBlank h]
      exact ⟨[], [], rfl, trivial, nofun⟩
  | false =>
      obtain ⟨above, line, closing, hrows, hmarked, hlines⟩ := exists_cLines_eq_commentRows h column
      obtain ⟨upper, last, rfl, hupper⟩ := hmarked.exists_concat
      have hfits (row : List Char) (hrow : some row ∈ above ++ [some line]) :
          column + 3 + row.length ≤ lineWidth := by
        have hlength := (isLine_of_mem_rows (hrows ▸ hrow)).length_le
        unfold availableWidth lineWidth at *
        omega
      have hinner (row : List Char) (hrow : some row ∈ above ++ upper.map some) :
          column + 3 + row.length ≤ lineWidth := by
        rcases List.mem_append.mp hrow with habove | hpart
        · exact hfits row (List.mem_append_left _ habove)
        · obtain ⟨part, hmem, heq⟩ := List.mem_map.mp hpart
          obtain rfl := Option.some.inj heq
          have hline := hfits line (List.mem_append_right above List.mem_cons_self)
          exact Nat.le_trans (Nat.add_le_add_left (hupper part hmem) _) hline
      obtain ⟨blanks, hindented⟩ :=
        exists_indented_concat column (commentRows (above ++ upper.map some))
      rw [outputLines_formatC h, hlines, List.map_append, List.map_singleton, ← List.append_assoc,
        commentRows_concat, hindented]
      refine ⟨_, _, rfl, within_indented_iff.mpr ?_, fun _ => ?_⟩
      · refine forall_mem_commentRows ?_ ?_ fun mark row hmark hrow => ?_
        · show column + 3 ≤ 79
          omega
        · show column ≤ 79
          omega
        · have hlength := hinner row hrow
          rw [hmark.length_append]
          omega
      · rw [List.append_cons _ ' ', ← List.append_assoc, ← List.append_assoc]
        exact List.suffix_append _ _

/-! ## One character a line -/

theorem wrap_of_le_one {width : Nat} (h : width ≤ 1) (p : List Char) : wrap width p = wrap 1 p := by
  simp only [wrap, Nat.max_eq_right h, Nat.max_self]

theorem rows_of_le_one {width : Nat} (h : width ≤ 1) (text : List Char) :
    rows width text = rows 1 text := by
  simp only [rows, wrap_of_le_one h]

/-- A row of text in the narrowest room. -/
theorem exists_eq_singleton {text line : List Char} (h : some line ∈ rows 1 text) :
    ∃ c, isWhiteSpace c = false ∧ line = [c] := by
  have hline := isLine_of_mem_rows h
  have hlength := hline.length_le
  cases line with
  | nil => exact absurd rfl hline.startsSolid.ne_nil
  | cons c rest =>
      obtain rfl : rest = [] := by
        rw [List.length_cons, Nat.max_self] at hlength
        exact List.eq_nil_of_length_eq_zero (by omega)
      exact ⟨c, startsSolid_cons.mp hline.startsSolid, rfl⟩

/-- A single character keeps the closing mark. -/
theorem Marked.eq_of_singleton {width : Nat} {c : Char} {closing : List (List Char)}
    (h : Marked width [c] closing) : closing = [c :: "  */".toList] := by
  generalize hline : [c] = line at h
  cases h with
  | whole _ =>
      subst hline
      rfl
  | @cut front gap word hfront hgap hword _ =>
      have hlength := congrArg List.length hline
      have hpos := List.length_pos_iff.mpr hfront.ne_nil
      have hgap := List.length_pos_iff.mpr hgap.ne_nil
      simp only [List.length_append, List.length_singleton] at hlength
      omega

/-- Past the line width the layouts have the same rows, one character in each. -/
theorem exists_lines_of_narrow {text : String} (h : isBlank text.toList = false) {column : Nat}
    (hcolumn : 78 ≤ column) :
    ∃ lines c, (∀ line ∈ lines ++ [[c]], line = [] ∨ ∃ d, isWhiteSpace d = false ∧ line = [d])
      ∧ outputLines (formatText text column) = (Frame.plain column).set (lines ++ [[c]])
      ∧ outputLines (formatAda text column) = (Frame.ada column).set (lines ++ [[c]])
      ∧ outputLines (formatPython text column) =
        docstringQuotes :: (Frame.plain column).set (lines ++ [[c]]) ++
          [indentation column ++ docstringQuotes]
      ∧ outputLines (formatC text column) =
        (Frame.comment column).set (lines ++ [c :: "  */".toList]) := by
  have hnarrow (marks : Nat) : availableWidth (column + marks) ≤ 1 := by
    unfold availableWidth lineWidth
    omega
  have hnone : availableWidth column ≤ 1 := hnarrow 0
  obtain ⟨above, last, closing, hrows, hmarked, hcomment⟩ :=
    exists_outputLines_formatC_eq_set h column
  rw [rows_of_le_one (hnarrow 3)] at hrows
  have hlast : some last ∈ rows 1 text.toList := by
    rw [hrows]
    exact List.mem_append_right above List.mem_cons_self
  obtain ⟨c, hc, rfl⟩ := exists_eq_singleton hlast
  rw [hmarked.eq_of_singleton] at hcomment
  have hlines : (rows 1 text.toList).map rowText = above.map rowText ++ [[c]] := by
    rw [hrows, List.map_append]
    rfl
  have hplain := outputLines_formatText_eq_set h column
  rw [rows_of_le_one hnone, hlines] at hplain
  refine ⟨above.map rowText, c, fun line hline => ?_, hplain, ?_, ?_, hcomment⟩
  · rw [← hlines] at hline
    obtain ⟨row, hrow, rfl⟩ := List.mem_map.mp hline
    cases row with
    | none => exact Or.inl rfl
    | some line => exact Or.inr (exists_eq_singleton hrow)
  · rw [outputLines_formatAda_eq_set h, rows_of_le_one (hnarrow 4), hlines]
  · rw [outputLines_formatPython, pythonLines, ← outputLines_formatText h, hplain]

/-- **Lines of a layout stay within the line width**, as far to the right as the
marks leave room for a character of text: all of them in plain text, Ada and
Python, and in C all above the line with the closing mark. Past that, every
layout has one character of text on each line that has any. A blank text has
no line of text. -/
theorem format_within (text : String) (column : Nat) :
    (column ≤ 78 → ∀ line ∈ outputLines (formatText text column), line.length ≤ lineWidth)
    ∧ (column ≤ 74 → Within lineWidth column (outputLines (formatAda text column)))
    ∧ (column ≤ 76 → Within lineWidth column (outputLines (formatPython text column)))
    ∧ (column ≤ 75 → ∃ above last, outputLines (formatC text column) = above ++ [last]
        ∧ Within lineWidth column above
        ∧ (isBlank text.toList = false → "*/".toList <:+ last))
    ∧ (78 ≤ column → isBlank text.toList = false → ∃ lines c,
        (∀ line ∈ lines ++ [[c]], line = [] ∨ ∃ d, isWhiteSpace d = false ∧ line = [d])
        ∧ outputLines (formatText text column) = (Frame.plain column).set (lines ++ [[c]])
        ∧ outputLines (formatAda text column) = (Frame.ada column).set (lines ++ [[c]])
        ∧ outputLines (formatPython text column) =
          docstringQuotes :: (Frame.plain column).set (lines ++ [[c]]) ++
            [indentation column ++ docstringQuotes]
        ∧ outputLines (formatC text column) =
          (Frame.comment column).set (lines ++ [c :: "  */".toList]))
    ∧ (isBlank text.toList = true → formatText text column = "" ∧ formatAda text column = ""
        ∧ formatC text column = ""
        ∧ outputLines (formatPython text column) =
          [docstringQuotes, indentation column ++ docstringQuotes]) := by
  obtain ⟨lines, hada, hlines⟩ := exists_outputLines_formatAda text column
  refine ⟨length_le_of_mem_formatText text, ?_, ?_, exists_formatC_within text, ?_, ?_⟩
  · intro hcolumn
    rw [hada]
    exact within_indented_iff.mpr (hlines hcolumn)
  · intro hcolumn
    rw [outputLines_formatPython]
    exact within_pythonLines text.toList hcolumn
  · intro hcolumn h
    exact exists_lines_of_narrow h hcolumn
  · intro h
    exact ⟨formatText_of_isBlank h column, formatAda_of_isBlank h column, formatC_of_isBlank h column,
      outputLines_formatPython_of_isBlank h column⟩

/-- The last column with room for an Ada comment, and one without room for text. -/
theorem format_within_no_room :
    74 ≤ 74 ∧ Within lineWidth 74 (outputLines (formatAda "ab c" 74))
    ∧ 78 ≤ 78 ∧ isBlank "ab c".toList = false
    ∧ outputLines (formatAda "ab c" 78) =
      (Frame.ada 78).set ["a".toList, "b".toList, "c".toList]
    ∧ outputLines (formatC "ab c" 78) =
      (Frame.comment 78).set ["a".toList, "b".toList, "c  */".toList] := by
  have htext : isBlank "ab c".toList = false := by decide
  obtain ⟨-, hwithin, -⟩ := format_within "ab c" 74
  obtain ⟨-, -, -, -, hnarrow, -⟩ := format_within "ab c" 78
  obtain ⟨lines, c, -, hplain, hada, -, hcomment⟩ := hnarrow (Nat.le_refl 78) htext
  have hlines : outputLines (formatText "ab c" 78) =
      (Frame.plain 78).set (["a".toList, "b".toList] ++ ["c".toList]) := by
    rw [outputLines_formatText htext]
    decide +kernel
  obtain ⟨rfl, hlast⟩ :=
    List.append_inj' (Frame.set_injective (by decide) (hplain.symm.trans hlines)) rfl
  obtain rfl := List.singleton_inj.mp (List.singleton_inj.mp hlast)
  exact ⟨Nat.le_refl 74, hwithin (Nat.le_refl 74), Nat.le_refl 78, htext, hada, hcomment⟩

end Bindery.Doc
