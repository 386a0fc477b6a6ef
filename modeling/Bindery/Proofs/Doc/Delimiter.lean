import Bindery.Proofs.Doc.Closing
import Bindery.Proofs.Text.Occurrence

/-!
# Documentation stays inside its comment

A layout gives a single comment of its language (`format_stays_in_comment`).
In Ada every line carries the comment mark. A C comment and a docstring end at
their own closing mark: unless the text holds the mark itself, no other one
comes up in the output. And no white space but the space and the line feed is
left in any layout, so nothing else can end a line.

A mark is a word, so it lies within one line of the text, if anywhere
(`infix_of_infix_row`), and the blanks that every layout puts between the lines
and the marks keep those apart.
-/

namespace Bindery.Doc

open Bindery.Unicode Bindery.Text

/-! ## White space of the output -/

/-- The space and the line feed are the only white space. -/
def PlainBlanks (out : List Char) : Prop :=
  ∀ c ∈ out, isWhiteSpace c = true → c = ' ' ∨ c = '\n'

theorem plainBlanks_append {front rest : List Char} :
    PlainBlanks (front ++ rest) ↔ PlainBlanks front ∧ PlainBlanks rest :=
  List.forall_mem_append

theorem plainBlanks_of_isWord {word : List Char} (h : IsWord word) : PlainBlanks word := by
  intro c hc hblank
  cases (h.solid c hc).symm.trans hblank

theorem plainBlanks_joinAt (column : Nat) {lines : List (List Char)}
    (h : ∀ line ∈ lines, OnlySpaces line) : PlainBlanks (joinAt column lines) := by
  intro c hc hblank
  rcases mem_intercalate hc with hsep | ⟨line, hline, hmem⟩
  · rcases List.mem_cons.mp hsep with rfl | hindent
    · exact Or.inr rfl
    · exact Or.inl (List.eq_of_mem_replicate hindent)
  · have hspace := (h line hline c hmem).symm.trans hblank
    exact Or.inl (beq_iff_eq.mp hspace)

theorem plainBlanks_formatText (text : String) (column : Nat) :
    PlainBlanks (formatText text column).toList := by
  rw [formatText, String.toList_ofList]
  exact plainBlanks_joinAt 0 fun _ => onlySpaces_of_mem_textLines

theorem plainBlanks_formatAda (text : String) (column : Nat) :
    PlainBlanks (formatAda text column).toList := by
  rw [formatAda, String.toList_ofList]
  exact plainBlanks_joinAt column fun _ => onlySpaces_of_mem_adaLines

theorem plainBlanks_formatC (text : String) (column : Nat) :
    PlainBlanks (formatC text column).toList := by
  cases h : isBlank text.toList with
  | true =>
      rw [formatC_of_isBlank h]
      exact List.forall_mem_nil _
  | false =>
      obtain ⟨body, hclosed, hout⟩ := exists_formatC_eq h column
      have hlines := hclosed.onlySpaces_of_mem_bodyLines fun line hline =>
        (isLine_of_mem_rows hline).onlySpaces
      rw [hout, plainBlanks_append, plainBlanks_append]
      exact ⟨⟨plainBlanks_of_isWord (by decide), plainBlanks_joinAt column hlines⟩,
        plainBlanks_of_isWord (by decide)⟩

theorem plainBlanks_formatPython (text : String) (column : Nat) :
    PlainBlanks (formatPython text column).toList := by
  rw [formatPython, String.toList_ofList]
  exact plainBlanks_joinAt 0 fun _ => onlySpaces_of_mem_pythonLines

/-! ## Marks come from the text -/

theorem infix_of_infix_row {mark : List Char} (hmark : IsWord mark) {width : Nat}
    {text line : List Char} (hline : some line ∈ rows width text) (h : mark <:+: line) :
    mark <:+: text := by
  rcases mem_intercalate hline with hgap | ⟨lines, hlines, hmem⟩
  · cases List.mem_singleton.mp hgap
  · obtain ⟨p, hp, rfl⟩ := List.mem_map.mp hlines
    obtain ⟨wrapped, hwrapped, hsome⟩ := List.mem_map.mp hmem
    obtain rfl := Option.some.inj hsome
    exact infix_of_infix_line hmark hp hwrapped h

theorem isBlank_indentation (column : Nat) : isBlank (indentation column) = true :=
  isBlank_replicate_space column

theorem infix_joinAt_iff {mark : List Char} (hmark : IsWord mark) (column : Nat)
    {lines : List (List Char)} :
    mark <:+: joinAt column lines ↔ ∃ line ∈ lines, mark <:+: line := by
  refine infix_intercalate_iff hmark ?_ (List.cons_ne_nil _ _)
  rw [isBlank_cons, isBlank_indentation]
  decide

/-! ## Ada -/

/-- Every line is a comment, indented after the first one. -/
structure IsAdaComment (column : Nat) (out : String) : Prop where
  first : ∃ line ∈ (outputLines out).head?, "--".toList <+: line
  later : ∀ line ∈ (outputLines out).tail, indentation column ++ "--".toList <+: line

theorem mark_prefix_of_mem_adaLines {text line : List Char} {column : Nat}
    (h : line ∈ adaLines text column) : "--".toList <+: line := by
  obtain ⟨row, _, rfl⟩ := List.mem_map.mp h
  cases row with
  | none => exact List.prefix_rfl
  | some line => exact List.prefix_append "--".toList ("  ".toList ++ line)

theorem isAdaComment_formatAda {text : String} (h : isBlank text.toList = false) (column : Nat) :
    IsAdaComment column (formatAda text column) := by
  have hne : adaLines text.toList column ≠ [] := List.map_eq_nil_iff.not.mpr (rows_ne_nil h _)
  have hmark : ∀ line ∈ adaLines text.toList column, "--".toList <+: line :=
    fun _ => mark_prefix_of_mem_adaLines
  obtain ⟨first, later, hlines⟩ := List.exists_cons_of_ne_nil hne
  rw [hlines, List.forall_mem_cons] at hmark
  refine ⟨⟨first, ?_, hmark.1⟩, ?_⟩
  · rw [outputLines_formatAda h, hlines]
    rfl
  · rw [outputLines_formatAda h, hlines, indented, List.tail_cons, List.forall_mem_map]
    exact fun line hline => (List.prefix_append_right_inj _).mpr (hmark.2 line hline)

/-! ## C -/

/-- A comment between its two marks, which does not end before the second one. -/
structure IsCComment (out : String) : Prop where
  opens : "/* ".toList <+: out.toList
  closes : "*/".toList <:+ out.toList
  once : ∀ i, OccursAt "*/".toList out.toList i ↔ i + 2 = out.toList.length

theorem exists_joinAt_bodyLines_eq_cons (column : Nat) {body : List (Option (List Char))}
    (h : body ≠ []) : ∃ rest, joinAt column (bodyLines body) = ' ' :: rest := by
  cases body with
  | nil => exact absurd rfl h
  | cons row more =>
      rw [bodyLines, joinAt, intercalate_cons_eq_flatMap]
      exact ⟨_, rfl⟩

theorem Closed.blankEnds {rows body : List (Option (List Char))} (h : Closed rows body)
    (column : Nat) : BlankEnds (joinAt column (bodyLines body)) := by
  obtain ⟨above, line, rfl⟩ := h.exists_concat
  obtain ⟨rest, hrest⟩ := exists_joinAt_bodyLines_eq_cons column
    (List.concat_ne_nil (some (line ++ [' '])) above)
  obtain ⟨front, hfront⟩ := exists_joinAt_bodyLines column above
  have hlast : joinAt column (bodyLines (above ++ [some (line ++ [' '])])) = front ++ line ++ [' '] := by
    rw [hfront, List.append_assoc]
  exact blankEnds_of_eq hrest (by decide) hlast (List.cons_ne_nil _ _) (by decide)

theorem not_infix_bodyLines {mark : List Char} (hmark : IsWord mark) {width : Nat} (column : Nat)
    {text : List Char} {body : List (Option (List Char))} (hclosed : Closed (rows width text) body)
    (htext : ¬mark <:+: text) : ¬mark <:+: joinAt column (bodyLines body) := by
  have hrow : ∀ line, some line ∈ body → ¬mark <:+: line := by
    intro line hline hinside
    obtain ⟨row, part, blanks, hrow, hpart, rfl⟩ := hclosed.exists_part hline
    rw [infix_append_blank_iff hmark (isBlank_replicate_space blanks)] at hinside
    exact htext (infix_of_infix_row hmark hrow (hinside.trans hpart))
  rw [infix_joinAt_iff hmark, not_exists]
  simp only [not_and]
  refine forall_mem_bodyLines (not_infix_of_isBlank hmark (by decide)) (not_infix_nil hmark) ?_
  intro line hline
  constructor
  · rw [← List.singleton_append, infix_blank_append_iff hmark (by decide)]
    exact hrow line hline
  · rw [infix_blank_append_iff hmark (by decide)]
    exact hrow line hline

theorem isCComment_formatC {text : String} (h : isBlank text.toList = false)
    (htext : ¬"*/".toList <:+: text.toList) (column : Nat) : IsCComment (formatC text column) := by
  have hmark : IsWord "*/".toList := by decide
  obtain ⟨body, hclosed, hout⟩ := exists_formatC_eq h column
  have hfree := not_infix_bodyLines hmark column hclosed htext
  refine ⟨?_, ?_, fun i => ?_⟩
  · obtain ⟨rest, hrest⟩ := exists_joinAt_bodyLines_eq_cons column hclosed.ne_nil
    rw [hout, hrest]
    exact ⟨rest ++ "*/".toList, rfl⟩
  · rw [hout]
    exact List.suffix_append _ _
  · have hopening : ¬OccursAt "*/".toList "/*".toList i := fun hi =>
      absurd (infix_iff_exists_occursAt.mpr ⟨i, hi⟩) (by decide)
    rw [hout, occursAt_enclosed_self_iff hmark (hclosed.blankEnds column) hfree,
      or_iff_right hopening]
    exact Iff.rfl

/-! ## Python -/

/-- A docstring that opens on a line of its own and does not end before its last line. -/
structure IsDocstring (column : Nat) (out : String) : Prop where
  opens : docstringQuotes ++ ['\n'] <+: out.toList
  closes : (outputLines out).getLast? = some (indentation column ++ docstringQuotes)
  twice : ∀ i, OccursAt docstringQuotes out.toList i ↔ i = 0 ∨ i + 3 = out.toList.length

/-- What stands between the quotes of a docstring. -/
def docstringBody (text : List Char) (column : Nat) : List Char :=
  joinAt 0 ([] :: textLines text column ++ [indentation column])

theorem formatPython_eq (text : String) (column : Nat) :
    (formatPython text column).toList =
      docstringQuotes ++ docstringBody text.toList column ++ docstringQuotes := by
  obtain ⟨front, hfront⟩ :=
    exists_intercalate_concat ['\n'] ([] :: textLines text.toList column)
  have hquotes : joinAt 0 (pythonLines text.toList column) = docstringQuotes ++
      joinAt 0 ([] :: textLines text.toList column ++ [indentation column ++ docstringQuotes]) := by
    simp only [pythonLines, joinAt, List.cons_append, intercalate_cons_eq_flatMap, List.nil_append]
  rw [formatPython, String.toList_ofList, hquotes, docstringBody]
  show _ ++ List.intercalate ['\n'] _ = _ ++ List.intercalate ['\n'] _ ++ _
  rw [hfront, hfront, List.append_assoc, List.append_assoc]

theorem exists_docstringBody_eq_cons (text : List Char) (column : Nat) :
    ∃ rest, docstringBody text column = '\n' :: rest := by
  rw [docstringBody, joinAt, List.cons_append, intercalate_cons_eq_flatMap]
  cases textLines text column with
  | nil => exact ⟨_, rfl⟩
  | cons line lines => exact ⟨_, rfl⟩

theorem blankEnds_docstringBody (text : List Char) (column : Nat) :
    BlankEnds (docstringBody text column) := by
  obtain ⟨rest, hrest⟩ := exists_docstringBody_eq_cons text column
  refine blankEnds_of_eq hrest (by decide) (intercalate_concat _ (List.cons_ne_nil _ _) _)
    (List.cons_ne_nil _ _) ?_
  rw [isBlank_append, isBlank_cons, isBlank_indentation, isBlank_indentation]
  decide

theorem not_infix_docstringBody {mark : List Char} (hmark : IsWord mark) {text : List Char}
    (htext : ¬mark <:+: text) (column : Nat) : ¬mark <:+: docstringBody text column := by
  rw [docstringBody, infix_joinAt_iff hmark]
  rintro ⟨line, hline, hinside⟩
  rcases List.mem_append.mp hline with hline | hline
  · rcases List.mem_cons.mp hline with rfl | hline
    · exact not_infix_nil hmark hinside
    · obtain ⟨row, hrow, rfl⟩ := List.mem_map.mp hline
      cases row with
      | none => exact not_infix_nil hmark hinside
      | some line =>
          rw [textRow, infix_blank_append_iff hmark (isBlank_indentation column)] at hinside
          exact htext (infix_of_infix_row hmark hrow hinside)
  · obtain rfl := List.mem_singleton.mp hline
    exact not_infix_of_isBlank hmark (isBlank_indentation column) hinside

theorem isDocstring_formatPython {text : String} (htext : ¬docstringQuotes <:+: text.toList)
    (column : Nat) : IsDocstring column (formatPython text column) := by
  have hquotes : IsWord docstringQuotes := by decide
  have hout := formatPython_eq text column
  refine ⟨?_, ?_, fun i => ?_⟩
  · obtain ⟨rest, hrest⟩ := exists_docstringBody_eq_cons text.toList column
    rw [hout, hrest]
    exact ⟨rest ++ docstringQuotes, rfl⟩
  · rw [outputLines_formatPython]
    exact List.getLast?_concat
  · rw [hout, occursAt_enclosed_self_iff hquotes (blankEnds_docstringBody _ column)
      (not_infix_docstringBody hquotes htext column), occursAt_self_iff hquotes]
    exact Iff.rfl

/-! ## All layouts -/

/-- **Documentation stays inside its comment.** The text has no way out: it ends
no line of its own, and the closing mark of a C comment or of a docstring stands
at the end only. -/
theorem format_stays_in_comment (text : String) (column : Nat) :
    (∀ out ∈ [formatText text column, formatAda text column, formatC text column,
        formatPython text column], PlainBlanks out.toList)
    ∧ (isBlank text.toList = false → IsAdaComment column (formatAda text column))
    ∧ (isBlank text.toList = false → ¬"*/".toList <:+: text.toList →
        IsCComment (formatC text column))
    ∧ (¬docstringQuotes <:+: text.toList → IsDocstring column (formatPython text column)) := by
  refine ⟨?_, fun h => isAdaComment_formatAda h column,
    fun h htext => isCComment_formatC h htext column,
    fun htext => isDocstring_formatPython htext column⟩
  simp only [List.forall_mem_cons, List.not_mem_nil, false_imp_iff, implies_true, and_true]
  exact ⟨plainBlanks_formatText text column, plainBlanks_formatAda text column,
    plainBlanks_formatC text column, plainBlanks_formatPython text column⟩

/-- Marks in two pieces, on two lines of the text: where the lines join, a space
keeps the pieces apart. -/
theorem format_stays_in_comment_marks_apart :
    isBlank "a *\r\n/ \"\"\n\" b".toList = false
    ∧ ¬"*/".toList <:+: "a *\r\n/ \"\"\n\" b".toList
    ∧ ¬docstringQuotes <:+: "a *\r\n/ \"\"\n\" b".toList
    ∧ splitParagraphs "a *\r\n/ \"\"\n\" b" = ["a * / \"\" \" b"]
    ∧ IsAdaComment 2 (formatAda "a *\r\n/ \"\"\n\" b" 2)
    ∧ IsCComment (formatC "a *\r\n/ \"\"\n\" b" 2)
    ∧ IsDocstring 2 (formatPython "a *\r\n/ \"\"\n\" b" 2) := by
  have htext : isBlank "a *\r\n/ \"\"\n\" b".toList = false := by decide
  have hmark : ¬"*/".toList <:+: "a *\r\n/ \"\"\n\" b".toList := by decide
  have hquotes : ¬docstringQuotes <:+: "a *\r\n/ \"\"\n\" b".toList := by decide
  obtain ⟨_, hada, hc, hpython⟩ := format_stays_in_comment "a *\r\n/ \"\"\n\" b" 2
  exact ⟨htext, hmark, hquotes, by decide +kernel, hada htext, hc htext hmark, hpython hquotes⟩

end Bindery.Doc
