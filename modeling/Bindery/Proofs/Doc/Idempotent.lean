import Bindery.Proofs.Doc.Recovery
import Bindery.Proofs.Doc.Width
import Bindery.Proofs.Text.Rewrap

/-!
# Plain text laid out twice

Read as text again, the output of the plain layout has a paragraph for each
paragraph of the text, made of its wrapped lines (`lineGroups_formatText`): the
indentation is trimmed off, and an empty line stands between two paragraphs and
nowhere else. So where wrapped lines wrap into themselves, the layout of the
output is the output (`formatText_idempotent`).
-/

namespace Bindery.Doc

open Bindery.Unicode Bindery.Text

/-! ## Lines of the output -/

theorem trim_indentation_append {line : List Char} (hstart : StartsSolid line)
    (hend : EndsSolid line) (column : Nat) : trim (indentation column ++ line) = line := by
  have hblank : ∀ c ∈ indentation column, isWhiteSpace c = true :=
    isBlank_iff.mp (isBlank_replicate_space column)
  rw [trim, trimStart, List.dropWhile_append_of_pos hblank, ← trimStart,
    trimStart_of_startsSolid hstart, trimEnd_of_endsSolid hend]

theorem isEmpty_rowText {width : Nat} {text : List Char} {row : Option (List Char)}
    (h : row ∈ rows width text) : (rowText row).isEmpty = (row == none) := by
  cases row with
  | none => rfl
  | some line => exact List.isEmpty_eq_false_iff.mpr (isLine_of_mem_rows h).startsSolid.ne_nil

section Lines

variable {text : String} {column : Nat} (h : isBlank text.toList = false)
  (hend : ∀ p ∈ paragraphs text.toList, ∀ line ∈ wrap (availableWidth column) p, EndsSolid line)

include h hend

theorem trimmedLines_formatText : trimmedLines (formatText text column).toList =
    (rows (availableWidth column) text.toList).map rowText := by
  have hlines : (formatText text column).toList.splitOn '\n' = textLines text.toList column :=
    outputLines_formatText h column
  rw [trimmedLines, ← List.splitOn, hlines, textLines, List.map_map]
  refine List.map_congr_left fun row hrow => ?_
  cases row with
  | none => rfl
  | some line =>
      obtain ⟨p, hp, hline⟩ := exists_mem_wrap_of_mem_rows hrow
      exact trim_indentation_append (isLine_of_mem_rows hrow).startsSolid (hend p hp line hline) column

theorem lineGroups_formatText : lineGroups (formatText text column).toList =
    (paragraphs text.toList).map (wrap (availableWidth column)) := by
  have hgroups : lineGroups (formatText text column).toList =
      groups (trimmedLines (formatText text column).toList) := rfl
  rw [hgroups, trimmedLines_formatText h hend, groups_map_rows h fun row hrow => isEmpty_rowText hrow]
  exact List.map_congr_left fun p _ => List.map_id (wrap (availableWidth column) p)

end Lines

/-! ## Twice -/

/-- **Formatting normally spaced text twice changes nothing.** No trimmed line of
the text has two white space characters next to each other, and every word fits
behind the indentation. -/
theorem formatText_idempotent {text : String} {column : Nat}
    (hspacing : ∀ line ∈ trimmedLines text.toList, SingleSpaced line)
    (hwords : ∀ word ∈ words text.toList, word.length ≤ availableWidth column) :
    formatText (formatText text column) column = formatText text column := by
  cases h : isBlank text.toList with
  | true =>
      rw [formatText_of_isBlank h]
      exact formatText_of_isBlank rfl column
  | false =>
      have hfits {p : List Char} (hp : p ∈ paragraphs text.toList) :
          ∀ word ∈ chunks (spaced p), IsWord word → word.length ≤ max (availableWidth column) 1 :=
        fun word hmem hword =>
          Nat.le_trans (length_le_of_mem_chunks hp hwords hmem hword) (Nat.le_max_left _ 1)
      have hgroups := lineGroups_formatText h fun p hp line hline =>
        endsSolid_of_mem_wrap (startsSolid_of_mem_paragraphs hp) (endsSolid_of_mem_paragraphs hp)
          (hfits hp) hline
      have hrows : rows (availableWidth column) (formatText text column).toList =
          rows (availableWidth column) text.toList := by
        rw [rows, rows, paragraphs, hgroups, List.map_map, List.map_map]
        refine congrArg (List.intercalate [none]) (List.map_congr_left fun p hp => ?_)
        refine congrArg (List.map some) ?_
        exact wrap_rejoined (startsSolid_of_mem_paragraphs hp) (endsSolid_of_mem_paragraphs hp)
          (singleSpaced_of_mem_paragraphs hspacing hp) (hfits hp)
      rw [formatText, textLines, hrows]
      rfl

/-- A word is cut after its first hyphen, and on a line of its own its second
one is no longer a place to cut. -/
theorem formatText_idempotent_hyphens :
    (∀ line ∈ trimmedLines "mnopq xy-a-bc de\n\nf".toList, SingleSpaced line)
    ∧ (∀ word ∈ words "mnopq xy-a-bc de\n\nf".toList, word.length ≤ availableWidth 70)
    ∧ chunks "xy-a-bc".toList = ["xy-".toList, "a-".toList, "bc".toList]
    ∧ chunks "a-bc".toList = ["a-bc".toList]
    ∧ outputLines (formatText (formatText "mnopq xy-a-bc de\n\nf" 70) 70) =
      [indentation 70 ++ "mnopq xy-".toList, indentation 70 ++ "a-bc de".toList, [],
        indentation 70 ++ "f".toList] := by
  have hspacing : ∀ line ∈ trimmedLines "mnopq xy-a-bc de\n\nf".toList, SingleSpaced line := by
    decide +kernel
  have hwords : ∀ word ∈ words "mnopq xy-a-bc de\n\nf".toList,
      word.length ≤ availableWidth 70 := by decide +kernel
  refine ⟨hspacing, hwords, by decide +kernel, by decide +kernel, ?_⟩
  rw [formatText_idempotent hspacing hwords, outputLines_formatText (by decide)]
  decide +kernel

end Bindery.Doc
