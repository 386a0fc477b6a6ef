import Bindery.Doc.Printer
import Bindery.Proofs.Doc.Delimiter
import Bindery.Proofs.Text.Reading

/-!
# Paragraphs and printed text

What a reader of paragraphs can rely on, for any text: how it ends its lines,
where it is blank and which white space it uses (`splitParagraphs_reads_text`).
A text has no paragraph exactly when it is blank, and this is also when a
printer prints nothing: whatever the language, a text with a paragraph comes
out with its mark or its line in front (`format_ne_empty`).
-/

namespace Bindery.Doc

open Bindery.Unicode Bindery.Text

/-! ## Printing -/

theorem format_ne_empty {text : String} (h : isBlank text.toList = false) (lang : Language)
    (column : Nat) : lang.format text column ≠ "" := by
  intro hempty
  cases lang with
  | ada =>
      obtain ⟨line, hline, hmark⟩ := (isAdaComment_formatAda h column).first
      have hout : outputLines (formatAda text column) = [[]] := by
        rw [show formatAda text column = "" from hempty]
        rfl
      rw [hout] at hline
      obtain rfl := Option.some.inj hline
      exact absurd hmark.length_le (by decide)
  | c =>
      obtain ⟨body, -, hout⟩ := exists_formatC_eq h column
      rw [show formatC text column = "" from hempty] at hout
      exact absurd (congrArg List.length hout) (by simp)
  | python =>
      have hout := formatPython_eq text column
      rw [show formatPython text column = "" from hempty] at hout
      exact absurd (congrArg List.length hout) (by simp [docstringQuotes])

theorem print_eq_empty_iff (printer : Printer) (text : String) (column : Nat) :
    printer.print text column = "" ↔ isBlank text.toList = true := by
  unfold Printer.print
  cases h : isBlank text.toList with
  | true => simp
  | false => simpa using format_ne_empty h printer.lang column

/-! ## Paragraphs -/

theorem map_toList_splitParagraphs (text : String) :
    (splitParagraphs text).map String.toList = paragraphs text.toList := by
  rw [splitParagraphs, List.map_map]
  exact (List.map_congr_left fun p _ => String.toList_ofList).trans (List.map_id _)

theorem paragraphs_eq_nil_iff {text : List Char} : paragraphs text = [] ↔ isBlank text = true := by
  refine ⟨fun hnil => ?_, paragraphs_of_isBlank⟩
  cases h : isBlank text with
  | true => rfl
  | false => exact absurd hnil (paragraphs_ne_nil h)

/-- A text whose lines end with carriage return and line feed. -/
def withReturns (text : String) : String := String.ofList (returned text.toList)

/-- **Paragraphs are what a text says**, apart from its white space: trimmed lines
of their own with the words of the text. Put together with blank lines they are
read back, both line endings give the same ones, and there is none exactly if
the text is blank, for which a printer prints nothing. -/
theorem splitParagraphs_reads_text (text : String) :
    (∀ p ∈ splitParagraphs text,
      p ≠ "" ∧ StartsSolid p.toList ∧ EndsSolid p.toList ∧ '\n' ∉ p.toList)
    ∧ (splitParagraphs text).flatMap (fun p => words p.toList) = words text.toList
    ∧ splitParagraphs ("\n\n".intercalate (splitParagraphs text)) = splitParagraphs text
    ∧ splitParagraphs (withReturns text) = splitParagraphs text
    ∧ (splitParagraphs text = [] ↔ trim text.toList = [])
    ∧ ∀ (printer : Printer) (column : Nat),
        printer.print text column = "" ↔ trim text.toList = [] := by
  have hsolid : ∀ p ∈ paragraphs text.toList, StartsSolid p ∧ EndsSolid p ∧ '\n' ∉ p :=
    fun p hp => ⟨startsSolid_of_mem_paragraphs hp, endsSolid_of_mem_paragraphs hp,
      newline_not_mem_of_mem_paragraphs hp⟩
  refine ⟨fun p hp => ?_, ?_, ?_, ?_, ?_, fun printer column => ?_⟩
  · obtain ⟨hstart, hrest⟩ := hsolid p.toList
      (map_toList_splitParagraphs text ▸ List.mem_map_of_mem hp)
    exact ⟨fun hempty => hstart.ne_nil (String.toList_eq_nil_iff.mpr hempty), hstart, hrest⟩
  · rw [← List.flatMap_map String.toList words, map_toList_splitParagraphs, words_paragraphs]
  · have hjoined : ("\n\n".intercalate (splitParagraphs text)).toList =
        List.intercalate ['\n', '\n'] (paragraphs text.toList) := by
      rw [String.toList_intercalate, map_toList_splitParagraphs]
      rfl
    rw [splitParagraphs, hjoined, paragraphs_intercalate hsolid, splitParagraphs]
  · rw [splitParagraphs, withReturns, String.toList_ofList, paragraphs_returned, splitParagraphs]
  · rw [splitParagraphs, List.map_eq_nil_iff, paragraphs_eq_nil_iff, trim_eq_nil_iff]
  · rw [print_eq_empty_iff, trim_eq_nil_iff]

end Bindery.Doc
