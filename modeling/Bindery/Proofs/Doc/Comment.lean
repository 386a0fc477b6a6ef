import Bindery.Proofs.Doc.Row

/-!
# Width of a C comment

The text of a comment is wrapped so that every line fits with the three
columns in front of it. The closing mark needs more, and it is placed after
wrapping: on the last line if it fits there, or else below it with the last
word. A last line of a single word has nothing to leave behind, so it takes
the mark where it is, and a moved word may be as long as the line it came
from: both can reach past the line width, by at most four columns.

`formatC_within_iff` says exactly when no line does.
-/

namespace Bindery.Doc

open Bindery.Unicode Bindery.Text

/-! ## The last word -/

theorem isWord_or_exists_last_word {line : List Char} (hend : EndsSolid line)
    (hspaces : OnlySpaces line) :
    IsWord line ∨ ∃ front word, line = front ++ ' ' :: word ∧ IsWord word := by
  induction line with
  | nil =>
      obtain ⟨c, hc, _⟩ := hend
      cases hc
  | cons c rest ih =>
      cases rest with
      | nil =>
          refine Or.inl ⟨List.cons_ne_nil c [], ?_⟩
          intro d hd
          obtain rfl := List.mem_singleton.mp hd
          obtain ⟨e, he, hsolid⟩ := hend
          obtain rfl : d = e := Option.some.inj he
          exact hsolid
      | cons next rest =>
          have hrest := ih (by rwa [EndsSolid, List.getLast?_cons_cons] at hend)
            fun d hd => hspaces d (List.mem_cons_of_mem c hd)
          rcases hrest with hword | ⟨front, word, hrest, hword⟩
          · cases hc : isWhiteSpace c with
            | true =>
                obtain rfl : c = ' ' :=
                  beq_iff_eq.mp ((hspaces c List.mem_cons_self).symm.trans hc)
                exact Or.inr ⟨[], next :: rest, rfl, hword⟩
            | false =>
                refine Or.inl ⟨List.cons_ne_nil c _, ?_⟩
                intro d hd
                rcases List.mem_cons.mp hd with rfl | hd
                · exact hc
                · exact hword.solid d hd
          · exact Or.inr ⟨c :: front, word, congrArg (c :: ·) hrest, hword⟩

theorem splitLastWord_append (front : List Char) {word : List Char} (hword : IsWord word) :
    splitLastWord (front ++ ' ' :: word) = some (trimEnd front, word) := by
  have hends : EndsSolid (front ++ ' ' :: word) :=
    List.append_cons .. ▸ hword.endsSolid.append (front ++ [' '])
  have hsolid : ∀ c ∈ word.reverse, (!isWhiteSpace c) = true := by
    intro c hc
    rw [hword.solid c (List.mem_reverse.mp hc)]
    rfl
  have hspace : (!isWhiteSpace ' ') = false := by decide
  simp only [splitLastWord, trimEnd_of_endsSolid hends, List.reverse_append, List.reverse_cons,
    List.append_assoc, List.singleton_append, List.dropWhile_append_of_pos hsolid,
    List.takeWhile_append_of_pos hsolid, List.dropWhile_cons, List.takeWhile_cons, hspace,
    Bool.false_eq_true, ↓reduceIte, List.append_nil, List.reverse_reverse]

theorem eq_of_append_word_eq {front front' word word' : List Char} (hword : IsWord word)
    (hword' : IsWord word') (h : front ++ ' ' :: word = front' ++ ' ' :: word') :
    word = word' := by
  have hsplit := splitLastWord_append front hword
  rw [h, splitLastWord_append front' hword', Option.some.injEq, Prod.mk.injEq] at hsplit
  exact hsplit.2.symm

theorem not_isWord_append (front word : List Char) : ¬IsWord (front ++ ' ' :: word) := by
  intro h
  cases h.solid ' ' (List.mem_append_right front List.mem_cons_self)

/-! ## Rows of a comment -/

/-- The opening mark of a comment, or the blanks below it. -/
def IsMark (mark : List Char) : Prop := mark = "/*".toList ∨ mark = "  ".toList

theorem IsMark.length {mark : List Char} (h : IsMark mark) : mark.length = 2 := by
  rcases h with rfl | rfl <;> rfl

theorem IsMark.length_append {mark : List Char} (h : IsMark mark) (line : List Char) :
    (mark ++ ' ' :: line).length = line.length + 3 := by
  rw [List.length_append, h.length, List.length_cons]
  omega

theorem IsMark.newline_not_mem {mark line : List Char} (h : IsMark mark) (hline : '\n' ∉ line) :
    '\n' ∉ mark ++ ' ' :: line := by
  have hmark : '\n' ∉ mark := by
    rcases h with rfl | rfl <;> decide
  simp [hmark, hline]

/-- The mark in front of a row below `above`. -/
def markBelow : List (Option (List Char)) → List Char
  | [] => "/*".toList
  | _ :: _ => "  ".toList

theorem isMark_markBelow (above : List (Option (List Char))) : IsMark (markBelow above) := by
  cases above with
  | nil => exact Or.inl rfl
  | cons _ _ => exact Or.inr rfl

theorem markBelow_concat (above : List (Option (List Char))) (row : Option (List Char)) :
    markBelow (above ++ [row]) = "  ".toList := by
  cases above <;> rfl

theorem commentRows_concat (above : List (Option (List Char))) (line : List Char) :
    commentRows (above ++ [some line]) = commentRows above ++ [markBelow above ++ ' ' :: line] := by
  cases above with
  | nil => rfl
  | cons row above =>
      rw [List.cons_append, commentRows, commentRows, List.map_append]
      rfl

theorem forall_mem_commentRows {P : List Char → Prop} {l : List (Option (List Char))}
    (hopen : P "/* ".toList) (hgap : P [])
    (hline : ∀ mark line, IsMark mark → some line ∈ l → P (mark ++ ' ' :: line)) :
    ∀ line ∈ commentRows l, P line := by
  cases l with
  | nil => exact nofun
  | cons row more =>
      intro line hmem
      rcases List.mem_cons.mp hmem with rfl | hmem
      · cases row with
        | none => exact hopen
        | some line => exact hline "/*".toList line (Or.inl rfl) List.mem_cons_self
      · obtain ⟨row', hrow, rfl⟩ := List.mem_map.mp hmem
        cases row' with
        | none => exact hgap
        | some line =>
            exact hline "  ".toList line (Or.inr rfl) (List.mem_cons_of_mem row hrow)

/-! ## The closing mark -/

section Closing

variable {mark line : List Char} {width : Nat}

theorem closeComment_ne_nil (width : Nat) (line : List Char) : closeComment width line ≠ [] := by
  unfold closeComment
  split
  · exact List.cons_ne_nil _ _
  · split
    · exact List.cons_ne_nil _ _
    · split <;> exact List.cons_ne_nil _ _

theorem closeComment_of_fits (h : line.length + 4 ≤ width) :
    closeComment width line = [line ++ "  */".toList] := by
  rw [closeComment, if_pos (by omega)]

/-- A single word keeps the closing mark, whether it fits or not. -/
theorem closeComment_of_isWord (hmark : IsMark mark) (hword : IsWord line) :
    closeComment width (mark ++ ' ' :: line) = [mark ++ ' ' :: line ++ "  */".toList] := by
  have hends : EndsSolid (mark ++ ' ' :: line) :=
    List.append_cons .. ▸ hword.endsSolid.append (mark ++ [' '])
  have hstays : (isBlank (trimEnd mark) || trimEnd mark == "/*".toList) = true := by
    rcases hmark with rfl | rfl <;> decide
  simp only [closeComment, splitLastWord_append mark hword, hstays, ↓reduceIte,
    trimEnd_of_endsSolid hends, ite_self]

theorem trimEnd_mark_append (mark : List Char) {front : List Char} (hfront : StartsSolid front) :
    trimEnd (mark ++ ' ' :: front) = mark ++ ' ' :: trimEnd front := by
  rw [List.append_cons, trimEnd_append _ hfront.isBlank, ← List.append_cons]

theorem closeComment_of_words {front word : List Char} (hmark : IsMark mark)
    (hfront : StartsSolid front) (hword : IsWord word)
    (hfull : width < (mark ++ ' ' :: (front ++ ' ' :: word)).length + 4) :
    closeComment width (mark ++ ' ' :: (front ++ ' ' :: word)) =
      [trimEnd (mark ++ ' ' :: front), "   ".toList ++ word ++ "   */".toList] := by
  have hsplit : splitLastWord (mark ++ ' ' :: (front ++ ' ' :: word)) =
      some (trimEnd (mark ++ ' ' :: front), word) := by
    rw [← splitLastWord_append (mark ++ ' ' :: front) hword, List.append_assoc]
    rfl
  have hmoves : (isBlank (trimEnd (mark ++ ' ' :: front)) ||
      trimEnd (mark ++ ' ' :: front) == "/*".toList) = false := by
    rw [trimEnd_mark_append mark hfront, Bool.or_eq_false_iff, List.append_cons, isBlank_append,
      hfront.trimEnd.isBlank, Bool.and_false]
    refine ⟨rfl, beq_eq_false_iff_ne.mpr ?_⟩
    intro heq
    have hlen := congrArg List.length heq
    have hpos := List.length_pos_iff.mpr hfront.trimEnd.ne_nil
    simp only [List.length_append, List.length_cons, hmark.length] at hlen
    have : "/*".toList.length = 2 := rfl
    omega
  rw [closeComment, if_neg (by omega), hsplit]
  simp only [hmoves, Bool.false_eq_true, ↓reduceIte]

theorem startsSolid_of_append_space {front rest : List Char}
    (h : StartsSolid (front ++ ' ' :: rest)) : StartsSolid front := by
  cases front with
  | nil => cases startsSolid_cons.mp h
  | cons c front => exact startsSolid_cons.mpr (startsSolid_cons.mp h)

/-- Where the closing mark of a line of text goes: on the line, if it fits or
the line is a single word, or below it with the last word. -/
theorem closeComment_cases (hmark : IsMark mark) (hstart : StartsSolid line)
    (hend : EndsSolid line) (hspaces : OnlySpaces line) (width : Nat) :
    (closeComment width (mark ++ ' ' :: line) = [mark ++ ' ' :: line ++ "  */".toList]
      ∧ (line.length + 7 ≤ width ∨ IsWord line))
    ∨ ∃ front word, line = front ++ ' ' :: word ∧ IsWord word ∧ width < line.length + 7
      ∧ closeComment width (mark ++ ' ' :: line) =
        [trimEnd (mark ++ ' ' :: front), "   ".toList ++ word ++ "   */".toList] := by
  have hlen := hmark.length_append line
  by_cases hfits : line.length + 7 ≤ width
  · exact Or.inl ⟨closeComment_of_fits (by omega), Or.inl hfits⟩
  rcases isWord_or_exists_last_word hend hspaces with hword | ⟨front, word, rfl, hword⟩
  · exact Or.inl ⟨closeComment_of_isWord hmark hword, Or.inr hword⟩
  · refine Or.inr ⟨front, word, rfl, hword, by omega, ?_⟩
    exact closeComment_of_words hmark (startsSolid_of_append_space hstart) hword (by omega)

theorem newline_not_mem_closeComment (hmark : IsMark mark) (hstart : StartsSolid line)
    (hend : EndsSolid line) (hspaces : OnlySpaces line) (width : Nat) :
    ∀ out ∈ closeComment width (mark ++ ' ' :: line), '\n' ∉ out := by
  have hline := newline_not_mem_of_onlySpaces hspaces
  rcases closeComment_cases hmark hstart hend hspaces width with
    ⟨hclose, _⟩ | ⟨before, word, rfl, _, _, hclose⟩
  · have hmarked := hmark.newline_not_mem hline
    simp only [hclose, List.forall_mem_singleton, List.mem_append, hmarked, false_or]
    decide
  · simp only [List.mem_append, List.mem_cons, not_or] at hline
    rw [hclose, List.forall_mem_cons, List.forall_mem_singleton]
    refine ⟨?_, ?_⟩
    · intro hmem
      exact hmark.newline_not_mem hline.1 ((trimEnd_prefix_self _).subset hmem)
    · simp [hline.2.2]

end Closing

/-! ## The whole comment -/

theorem cLines_of_rows {text line : List Char} {column : Nat} {front : List (Option (List Char))}
    (h : rows (availableWidth column - 3) text = front ++ [some line]) :
    cLines text column = commentRows front ++
      closeComment (availableWidth column) (markBelow front ++ ' ' :: line) := by
  simp only [cLines, h, commentRows_concat, List.getLast?_concat, List.dropLast_concat]

/-- The rows above the last line of text, then that line with the mark. -/
theorem exists_cLines_eq {text : List Char} (h : isBlank text = false) (column : Nat) :
    ∃ front line mark, rows (availableWidth column - 3) text = front ++ [some line]
      ∧ (∀ row, some row ∈ front → IsLine (availableWidth column - 3) row)
      ∧ IsLine (availableWidth column - 3) line ∧ EndsSolid line ∧ IsMark mark
      ∧ cLines text column = commentRows front ++
          closeComment (availableWidth column) (mark ++ ' ' :: line) := by
  obtain ⟨front, line, hrows, hend⟩ := exists_rows_eq_concat h (availableWidth column - 3)
  have hmem : ∀ row, some row ∈ front ++ [some line] → IsLine (availableWidth column - 3) row := by
    intro row hrow
    exact isLine_of_mem_rows (hrows ▸ hrow)
  refine ⟨front, line, markBelow front, hrows, ?_, ?_, hend, isMark_markBelow front,
    cLines_of_rows hrows⟩
  · exact fun row hrow => hmem row (List.mem_append_left _ hrow)
  · exact hmem line (List.mem_append_right front List.mem_cons_self)

theorem newline_not_mem_cLines {text : List Char} (h : isBlank text = false) (column : Nat) :
    ∀ line ∈ cLines text column, '\n' ∉ line := by
  obtain ⟨front, last, mark, _, hfront, hlast, hend, hmark, hlines⟩ := exists_cLines_eq h column
  rw [hlines, List.forall_mem_append]
  constructor
  · refine forall_mem_commentRows (by decide) List.not_mem_nil ?_
    intro mark line hmark hline
    exact hmark.newline_not_mem (newline_not_mem_of_onlySpaces (hfront line hline).onlySpaces)
  · exact newline_not_mem_closeComment hmark hlast.startsSolid hend hlast.onlySpaces _

/-- The output falls into the lines of the comment. -/
theorem outputLines_formatC {text : String} (h : isBlank text.toList = false) (column : Nat) :
    outputLines (formatC text column) = indented column (cLines text.toList column) := by
  refine outputLines_joinAt column ?_ (newline_not_mem_cLines h column)
  obtain ⟨front, last, mark, _, _, _, _, _, hlines⟩ := exists_cLines_eq h column
  rw [hlines]
  exact List.append_ne_nil_of_right_ne_nil _ (closeComment_ne_nil _ _)

/-! ## Width -/

/-- Above the closing mark every line fits. -/
theorem length_le_of_mem_commentRows {width : Nat} {l : List (Option (List Char))}
    (hwidth : 4 ≤ width) (hl : ∀ line, some line ∈ l → IsLine (width - 3) line) :
    ∀ line ∈ commentRows l, line.length ≤ width := by
  refine forall_mem_commentRows (Nat.le_trans (by decide) hwidth) (Nat.zero_le _) ?_
  intro mark line hmark hline
  have hlen := (hl line hline).length_le
  rw [hmark.length_append]
  omega

/-- The line of text that carries the closing mark, alone: only the last of
its lines can be too long, by four columns at most. -/
theorem length_le_of_mem_closeComment {mark line : List Char} (hmark : IsMark mark)
    (hstart : StartsSolid line) (hend : EndsSolid line) (hspaces : OnlySpaces line)
    (width : Nat) (hlen : line.length + 3 ≤ width) :
    (∀ out ∈ (closeComment width (mark ++ ' ' :: line)).dropLast, out.length ≤ width)
    ∧ (∀ out ∈ closeComment width (mark ++ ' ' :: line), out.length ≤ width + 4)
    ∧ ((∀ out ∈ closeComment width (mark ++ ' ' :: line), out.length ≤ width) ↔
        line.length + 7 ≤ width
        ∨ ∃ before word, line = before ++ ' ' :: word ∧ IsWord word ∧ word.length + 8 ≤ width) := by
  rcases closeComment_cases hmark hstart hend hspaces width with
    ⟨hclose, hkind⟩ | ⟨before, word, rfl, hword, hfull, hclose⟩
  · have hout : (mark ++ ' ' :: line ++ "  */".toList).length = line.length + 7 := by
      rw [List.length_append, hmark.length_append]
      rfl
    rw [hclose, List.dropLast_singleton, List.forall_mem_singleton, List.forall_mem_singleton, hout]
    refine ⟨nofun, by omega, Or.inl, ?_⟩
    rintro (hfits | ⟨before, word, rfl, _, _⟩)
    · exact hfits
    · exact hkind.resolve_right (not_isWord_append before word)
  · have habove : (trimEnd (mark ++ ' ' :: before)).length ≤ before.length + 3 := by
      rw [← hmark.length_append before]
      exact (trimEnd_prefix_self _).length_le
    have hbelow : ("   ".toList ++ word ++ "   */".toList).length = word.length + 8 := by
      simp only [List.length_append]
      show 3 + word.length + 5 = _
      omega
    rw [List.length_append, List.length_cons] at hlen hfull
    rw [hclose, List.dropLast_cons_cons, List.dropLast_singleton]
    simp only [List.forall_mem_cons, List.not_mem_nil, false_imp_iff, implies_true, and_true, hbelow,
      List.length_append, List.length_cons]
    refine ⟨by omega, ⟨by omega, by omega⟩, fun hfits => Or.inr ⟨before, word, rfl, hword, hfits.2⟩, ?_⟩
    rintro (hfits | ⟨before', word', heq, hword', hfits⟩)
    · omega
    · rw [eq_of_append_word_eq hword hword' heq]
      exact ⟨by omega, hfits⟩

/-- **The width of a C comment, exactly.** At a column that leaves room for
text, all lines but the last are within the line width, and no line is more
than four columns past it. They are all within it exactly when the last line
of text has room for the closing mark next to it, or consists of several words
the last of which has room for its blanks and the mark on a line of its own. -/
theorem formatC_within_iff {text : String} {column : Nat} (htext : isBlank text.toList = false)
    (hcolumn : column ≤ 75) :
    ∃ last, (rows (availableWidth column - 3) text.toList).getLast? = some (some last)
      ∧ Within lineWidth column (outputLines (formatC text column)).dropLast
      ∧ Within (lineWidth + 4) column (outputLines (formatC text column))
      ∧ (Within lineWidth column (outputLines (formatC text column)) ↔
          column + last.length + 7 ≤ lineWidth
          ∨ ∃ before word, last = before ++ ' ' :: word ∧ IsWord word
              ∧ column + word.length + 8 ≤ lineWidth) := by
  obtain ⟨front, last, mark, hrows, hfront, hlast, hend, hmark, hlines⟩ :=
    exists_cLines_eq htext column
  have hwidth : column + availableWidth column = lineWidth := by
    unfold availableWidth lineWidth
    omega
  have hroom : 4 ≤ availableWidth column := by
    unfold lineWidth at hwidth
    omega
  have hlen := hlast.length_le
  have habove := length_le_of_mem_commentRows hroom hfront
  obtain ⟨hupper, hpast, hfits⟩ := length_le_of_mem_closeComment hmark hlast.startsSolid hend
    hlast.onlySpaces (availableWidth column) (by omega)
  have hshift : ∀ n, column + n ≤ lineWidth ↔ n ≤ availableWidth column := by omega
  refine ⟨last, hrows ▸ List.getLast?_concat, ?_⟩
  rw [outputLines_formatC htext, dropLast_indented, within_indented_iff, within_indented_iff,
    within_indented_iff, hlines, List.dropLast_append_of_ne_nil (closeComment_ne_nil _ _)]
  simp only [Nat.add_assoc, hshift, List.forall_mem_append]
  refine ⟨⟨habove, hupper⟩, ⟨?_, ?_⟩, ?_⟩
  · intro line hline
    have hle := habove line hline
    omega
  · intro line hline
    have hle := hpast line hline
    omega
  · rw [← hfits]
    exact ⟨fun h => h.2, fun h => ⟨habove, h⟩⟩

/-- Text that fills its line: as a single word it keeps the mark, and as two
words it moves all that the line had room for. Both end past column 79. -/
theorem formatC_not_within :
    isBlank "aaaaaaaaaaaaaaaa".toList = false
    ∧ outputLines (formatC "aaaaaaaaaaaaaaaa" 60) = ["/* aaaaaaaaaaaaaaaa  */".toList]
    ∧ ¬Within lineWidth 60 (outputLines (formatC "aaaaaaaaaaaaaaaa" 60))
    ∧ isBlank "a bbbbbbbbbbbbbb".toList = false
    ∧ outputLines (formatC "a bbbbbbbbbbbbbb" 60) =
        ["/* a".toList, indentation 60 ++ "   bbbbbbbbbbbbbb   */".toList]
    ∧ ¬Within lineWidth 60 (outputLines (formatC "a bbbbbbbbbbbbbb" 60)) := by
  decide +kernel

/-- A full line whose last word is short: moving the word makes room. -/
theorem formatC_moves_last_word :
    isBlank "aaaa bbbb cccccc".toList = false ∧ 60 ≤ 75
    ∧ Within lineWidth 60 (outputLines (formatC "aaaa bbbb cccccc" 60)) := by
  have htext : isBlank "aaaa bbbb cccccc".toList = false := by decide
  obtain ⟨last, hlast, _, _, hwithin⟩ := formatC_within_iff htext (by decide : 60 ≤ 75)
  have hrows : (rows (availableWidth 60 - 3) "aaaa bbbb cccccc".toList).getLast? =
      some (some "aaaa bbbb cccccc".toList) := by decide +kernel
  obtain rfl := Option.some.inj (Option.some.inj (hlast.symm.trans hrows))
  have hword : IsWord "cccccc".toList := by decide
  exact ⟨htext, by decide,
    hwithin.mpr (Or.inr ⟨"aaaa bbbb".toList, "cccccc".toList, rfl, hword, by decide⟩)⟩

end Bindery.Doc
