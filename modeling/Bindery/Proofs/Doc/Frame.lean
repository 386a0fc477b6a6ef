import Bindery.Proofs.Doc.Recovery

/-!
# Lines in their frames

The layouts set the same lines and differ in what stands around them. A
`Frame` says what that is: the indentation and the mark in front of a line of
text, and the line that stands for a gap. No line of text is empty, so the
lines can be told from their frame, and two outputs that have the same lines
in their frames have the same lines (`layouts_share_lines`).

Each decoration leaves a different room for text, and wraps to it. The room is
the one of plain text further to the right, by as many columns as the marks
take (`availableWidth_add`), also where no column is left.

The C comment has one line that the others have not: the last one carries the
closing mark, and may go in two for it (`Marked`).
-/

namespace Bindery.Doc

open Bindery.Unicode Bindery.Text

/-! ## Frames -/

/-- What stands in front of the first line and in front of the lines after it,
and the line that stands for a gap. -/
structure Frame where
  first : List Char
  later : List Char
  gap : List Char

namespace Frame

/-- A line after the first one; an empty line is a gap. -/
def setLater (frame : Frame) : List Char → List Char
  | [] => frame.gap
  | c :: line => frame.later ++ c :: line

def set (frame : Frame) : List (List Char) → List (List Char)
  | [] => []
  | first :: later => (frame.first ++ first) :: later.map frame.setLater

/-! ## Frames of the layouts -/

/-- Indentation only; a gap is an empty line. -/
def plain (column : Nat) : Frame := ⟨indentation column, indentation column, []⟩

def ada (column : Nat) : Frame :=
  ⟨"--  ".toList, indentation column ++ "--  ".toList, indentation column ++ "--".toList⟩

/-- Of a C comment, without its closing mark. -/
def comment (column : Nat) : Frame :=
  ⟨"/* ".toList, indentation column ++ "   ".toList, indentation column⟩

/-! ## Decorated rows -/

variable {frame : Frame} {rows : List (Option (List Char))}

theorem setLater_of_ne_nil {line : List Char} (h : line ≠ []) :
    frame.setLater line = frame.later ++ line := by
  obtain ⟨c, line, rfl⟩ := List.exists_cons_of_ne_nil h
  rfl

/-- The lines can be told from what is set, where the line of a gap is no
longer than a mark. -/
theorem set_injective (h : frame.gap.length ≤ frame.later.length) : Function.Injective frame.set := by
  have hlater : Function.Injective frame.setLater := by
    intro line line' heq
    have hlength := congrArg List.length heq
    cases line with
    | nil =>
        cases line' with
        | nil => rfl
        | cons c line' =>
            simp only [setLater, List.length_append, List.length_cons] at hlength
            omega
    | cons c line =>
        cases line' with
        | nil =>
            simp only [setLater, List.length_append, List.length_cons] at hlength
            omega
        | cons c' line' => exact List.append_cancel_left heq
  intro lines lines' heq
  cases lines with
  | nil =>
      cases lines' with
      | nil => rfl
      | cons _ _ => cases heq
  | cons first lines =>
      cases lines' with
      | nil => cases heq
      | cons first' lines' =>
          obtain ⟨hfirst, hmore⟩ := List.cons.inj heq
          rw [List.append_cancel_left hfirst, hlater.list_map hmore]

theorem map_setLater (decorate : Option (List Char) → List Char)
    (hgap : decorate none = frame.gap) (hline : ∀ line, decorate (some line) = frame.later ++ line)
    (hrows : ∀ line, some line ∈ rows → line ≠ []) :
    (rows.map rowText).map frame.setLater = rows.map decorate := by
  rw [List.map_map]
  refine List.map_congr_left fun row hrow => ?_
  cases row with
  | none => exact hgap.symm
  | some line => exact (setLater_of_ne_nil (hrows line hrow)).trans (hline line).symm

theorem plain_set (column : Nat) {first : List Char}
    (hrows : ∀ line, some line ∈ rows → line ≠ []) :
    (plain column).set ((some first :: rows).map rowText) =
      (some first :: rows).map (textRow column) := by
  rw [List.map_cons, set, map_setLater (textRow column) rfl (fun _ => rfl) hrows]
  rfl

theorem ada_set (column : Nat) {first : List Char}
    (hrows : ∀ line, some line ∈ rows → line ≠ []) :
    (ada column).set ((some first :: rows).map rowText) =
      indented column ((some first :: rows).map adaRow) := by
  have hlater (line : List Char) : indentation column ++ adaRow (some line) =
      (ada column).later ++ line :=
    (List.append_assoc _ _ line).symm
  rw [List.map_cons, set, map_setLater (fun row => indentation column ++ adaRow row) rfl
    hlater hrows, List.map_cons, indented, List.map_map]
  rfl

theorem comment_set (column : Nat) (hrows : ∀ line, some line ∈ rows → line ≠ []) :
    (comment column).set (rows.map rowText) = indented column (commentRows rows) := by
  cases rows with
  | nil => rfl
  | cons row more =>
      have hgap : indentation column ++ innerRow none = (comment column).gap := List.append_nil _
      have hlater (line : List Char) : indentation column ++ innerRow (some line) =
          (comment column).later ++ line :=
        (List.append_assoc _ _ line).symm
      rw [List.map_cons, set, map_setLater (fun row => indentation column ++ innerRow row)
        hgap hlater fun line hline => hrows line (List.mem_cons_of_mem row hline), commentRows,
        indented, List.map_map]
      rfl

end Frame

/-! ## Plain text and Ada -/

/-- Marks take as much room from the text as indentation does. -/
theorem availableWidth_add (column marks : Nat) :
    availableWidth (column + marks) = availableWidth column - marks :=
  (Nat.sub_sub lineWidth column marks).symm

theorem ne_nil_of_mem_rows {width : Nat} {text line : List Char} (h : some line ∈ rows width text) :
    line ≠ [] :=
  (isLine_of_mem_rows h).startsSolid.ne_nil

section Rows

variable {text : String} (h : isBlank text.toList = false) (column : Nat)

include h

theorem outputLines_formatText_eq_set : outputLines (formatText text column) =
    (Frame.plain column).set ((rows (availableWidth column) text.toList).map rowText) := by
  have hlines (line : List Char) : some line ∈ rows (availableWidth column) text.toList → line ≠ [] :=
    ne_nil_of_mem_rows
  obtain ⟨first, more, hrows⟩ := exists_rows_eq_cons h (availableWidth column)
  rw [outputLines_formatText h, textLines]
  rw [hrows] at hlines ⊢
  exact (Frame.plain_set column fun line hline => hlines line (List.mem_cons_of_mem _ hline)).symm

theorem outputLines_formatAda_eq_set : outputLines (formatAda text column) =
    (Frame.ada column).set ((rows (availableWidth (column + 4)) text.toList).map rowText) := by
  have hlines (line : List Char) :
      some line ∈ rows (availableWidth (column + 4)) text.toList → line ≠ [] :=
    ne_nil_of_mem_rows
  obtain ⟨first, more, hrows⟩ := exists_rows_eq_cons h (availableWidth (column + 4))
  rw [outputLines_formatAda h, adaLines, ← availableWidth_add]
  rw [hrows] at hlines ⊢
  exact (Frame.ada_set column fun line hline => hlines line (List.mem_cons_of_mem _ hline)).symm

end Rows

/-! ## C -/

/-- The last line of a comment, and the lines that it becomes with the closing
mark: it stays whole where the mark fits behind it or it is a single word, and
goes in two at its last white space otherwise. -/
inductive Marked (width : Nat) : List Char → List (List Char) → Prop where
  | whole {line} (h : line.length + 7 ≤ width ∨ IsWord line) :
      Marked width line [line ++ "  */".toList]
  | cut {front gap word} (hfront : EndsSolid front) (hgap : IsGap gap) (hword : IsWord word)
      (hfull : width < (front ++ gap ++ word).length + 7) :
      Marked width (front ++ gap ++ word) [front, word ++ "   */".toList]

theorem Marked.ne_nil {width : Nat} {line : List Char} {closing : List (List Char)}
    (h : Marked width line closing) : ∀ out ∈ closing, out ≠ [] := by
  cases h with
  | whole _ => exact List.forall_mem_singleton.mpr (List.append_ne_nil_of_right_ne_nil _ (by decide))
  | cut hfront _ hword _ =>
      exact List.forall_mem_cons.mpr ⟨hfront.ne_nil,
        List.forall_mem_singleton.mpr (List.append_ne_nil_of_left_ne_nil hword.ne_nil _)⟩

/-- All white space before the last word goes where a line is cut. -/
theorem exists_gap (front word : List Char) :
    ∃ gap, front ++ ' ' :: word = trimEnd front ++ gap ++ word ∧ IsGap gap := by
  obtain ⟨blank, hblank, hfront⟩ := exists_trimEnd_append front
  refine ⟨blank ++ [' '], ?_, List.concat_ne_nil _ _, isBlank_iff.mp ?_⟩
  · simp only [List.append_assoc, List.singleton_append]
    rw [← List.append_assoc, hfront]
  · rw [isBlank_append, hblank]
    decide

/-- The lines of a comment are rows of text, the last of them with its mark. -/
theorem exists_cLines_eq_commentRows {text : List Char} (h : isBlank text = false) (column : Nat) :
    ∃ above last closing, rows (availableWidth (column + 3)) text = above ++ [some last]
      ∧ Marked (availableWidth column) last closing
      ∧ cLines text column = commentRows (above ++ closing.map some) := by
  obtain ⟨above, last, hrows, hend⟩ := exists_rows_eq_concat h (availableWidth column - 3)
  have hlast : IsLine (availableWidth column - 3) last :=
    isLine_of_mem_rows (hrows ▸ List.mem_append_right above List.mem_cons_self)
  rw [availableWidth_add]
  rcases closeComment_cases (isMark_markBelow above) hlast.startsSolid hend hlast.onlySpaces
    (availableWidth column) with ⟨hclose, hkind⟩ | ⟨front, word, rfl, hword, hfull, hclose⟩
  · refine ⟨above, last, _, hrows, .whole hkind, ?_⟩
    rw [cLines_of_rows hrows, hclose, List.map_singleton, commentRows_concat, List.append_assoc]
    rfl
  · have hfront := startsSolid_of_append_space hlast.startsSolid
    obtain ⟨gap, hline, hgap⟩ := exists_gap front word
    have hmarked : Marked (availableWidth column) (front ++ ' ' :: word)
        [trimEnd front, word ++ "   */".toList] := by
      rw [hline] at hfull ⊢
      exact .cut (endsSolid_trimEnd hfront.isBlank) hgap hword hfull
    refine ⟨above, _, _, hrows, hmarked, ?_⟩
    rw [cLines_of_rows hrows, hclose, trimEnd_mark_append _ hfront, List.map_cons, List.map_singleton,
      List.append_cons above, commentRows_concat, commentRows_concat, markBelow_concat,
      List.append_assoc, List.append_assoc]
    rfl

theorem exists_outputLines_formatC_eq_set {text : String} (h : isBlank text.toList = false)
    (column : Nat) :
    ∃ above last closing, rows (availableWidth (column + 3)) text.toList = above ++ [some last]
      ∧ Marked (availableWidth column) last closing
      ∧ outputLines (formatC text column) =
        (Frame.comment column).set (above.map rowText ++ closing) := by
  obtain ⟨above, last, closing, hrows, hmarked, hlines⟩ := exists_cLines_eq_commentRows h column
  refine ⟨above, last, closing, hrows, hmarked, ?_⟩
  have hne (line : List Char) (hline : some line ∈ above ++ closing.map some) : line ≠ [] := by
    rcases List.mem_append.mp hline with habove | hclosing
    · exact ne_nil_of_mem_rows (hrows ▸ List.mem_append_left _ habove)
    · obtain ⟨out, hout, heq⟩ := List.mem_map.mp hclosing
      exact Option.some.inj heq ▸ hmarked.ne_nil out hout
  have hclosing : (closing.map some).map rowText = closing := by
    rw [List.map_map]
    exact List.map_id closing
  rw [outputLines_formatC h, hlines, ← Frame.comment_set column hne, List.map_append, hclosing]

/-! ## Python -/

theorem formatPython_eq_formatText {text : String} (h : isBlank text.toList = false) (column : Nat) :
    formatPython text column = "\"\"\"\n" ++ formatText text column ++ "\n" ++
      String.ofList (indentation column) ++ "\"\"\"" := by
  have hne : textLines text.toList column ≠ [] := List.map_eq_nil_iff.not.mpr (rows_ne_nil h _)
  rw [← String.toList_inj]
  simp only [formatPython, formatText, pythonLines, String.toList_append, String.toList_ofList, joinAt]
  rw [intercalate_concat _ (List.cons_ne_nil _ _), List.intercalate_cons_of_ne_nil hne]
  simp only [List.append_assoc]
  rfl

/-! ## All layouts -/

/-- **All layouts set the same lines.** A docstring is plain text at its column
between two lines of quotes. An Ada comment has the lines of plain text four
columns to the right, and a C comment those of plain text three columns to the
right, each line in the frame of its layout instead of that of plain text. Only
the last line of the C comment differs: it carries the closing mark, and may go
in two at its last white space. -/
theorem layouts_share_lines {text : String} (h : isBlank text.toList = false) (column : Nat) :
    formatPython text column = "\"\"\"\n" ++ formatText text column ++ "\n" ++
        String.ofList (indentation column) ++ "\"\"\""
    ∧ (∃ lines, outputLines (formatAda text column) = (Frame.ada column).set lines
        ∧ outputLines (formatText text (column + 4)) = (Frame.plain (column + 4)).set lines)
    ∧ ∃ lines last closing,
        outputLines (formatC text column) = (Frame.comment column).set (lines ++ closing)
        ∧ outputLines (formatText text (column + 3)) =
          (Frame.plain (column + 3)).set (lines ++ [last])
        ∧ Marked (availableWidth column) last closing := by
  refine ⟨formatPython_eq_formatText h column,
    ⟨_, outputLines_formatAda_eq_set h column, outputLines_formatText_eq_set h (column + 4)⟩, ?_⟩
  obtain ⟨above, last, closing, hrows, hmarked, hcomment⟩ :=
    exists_outputLines_formatC_eq_set h column
  refine ⟨above.map rowText, last, closing, hcomment, ?_, hmarked⟩
  rw [outputLines_formatText_eq_set h, hrows, List.map_append]
  rfl

/-- Two paragraphs in a narrow column: the last line has no room for the closing
mark, and loses its last word to it. -/
theorem layouts_share_lines_cut :
    isBlank "aa bb\n\ncccc ddddd".toList = false
    ∧ outputLines (formatText "aa bb\n\ncccc ddddd" 70) =
      (Frame.plain 70).set ["aa bb".toList, [], "cccc".toList, "ddddd".toList]
    ∧ outputLines (formatAda "aa bb\n\ncccc ddddd" 66) =
      (Frame.ada 66).set ["aa bb".toList, [], "cccc".toList, "ddddd".toList]
    ∧ Marked (availableWidth 66) "cccc ddddd".toList ["cccc".toList, "ddddd   */".toList] := by
  have htext : isBlank "aa bb\n\ncccc ddddd".toList = false := by decide
  obtain ⟨-, ⟨lines, hada, hplain⟩, above, last, closing, hcomment, hplain', hmarked⟩ :=
    layouts_share_lines htext 66
  have hseventy : outputLines (formatText "aa bb\n\ncccc ddddd" 70) =
      (Frame.plain 70).set ["aa bb".toList, [], "cccc".toList, "ddddd".toList] := by
    rw [outputLines_formatText htext]
    decide +kernel
  obtain rfl := Frame.set_injective (by decide) (hplain.symm.trans hseventy)
  have hsixtynine : outputLines (formatText "aa bb\n\ncccc ddddd" 69) =
      (Frame.plain 69).set (["aa bb".toList, []] ++ ["cccc ddddd".toList]) := by
    rw [outputLines_formatText htext]
    decide +kernel
  have hmark : outputLines (formatC "aa bb\n\ncccc ddddd" 66) =
      (Frame.comment 66).set (["aa bb".toList, []] ++ ["cccc".toList, "ddddd   */".toList]) := by
    rw [outputLines_formatC htext]
    decide +kernel
  have hrows := Frame.set_injective (by decide) (hplain'.symm.trans hsixtynine)
  obtain ⟨rfl, hlast⟩ := List.append_inj' hrows rfl
  obtain rfl := List.singleton_inj.mp hlast
  obtain rfl := List.append_cancel_left
    (Frame.set_injective (by decide) (hcomment.symm.trans hmark))
  exact ⟨htext, hseventy, hada, hmarked⟩

end Bindery.Doc
