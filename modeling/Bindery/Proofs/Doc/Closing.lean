import Bindery.Proofs.Doc.Comment
import Bindery.Proofs.Text.Recovery

/-!
# Inside of a C comment

The output of a C comment is its opening mark, the lines of its body and its
closing mark (`exists_formatC_eq`). The rows of the body are those of the text,
up to what closing does to the last one (`Closed`): blanks go in front of the
mark, and the last word may move to a row of its own. Every row of the body is
still a part of a row of the text, with blanks behind it.
-/

namespace Bindery.Doc

open Bindery.Unicode Bindery.Text

/-! ## Closed rows -/

/-- Rows of a text, and the same rows with room for the closing mark behind them. -/
inductive Closed : List (Option (List Char)) → List (Option (List Char)) → Prop where
  | same {above line} : Closed (above ++ [some line]) (above ++ [some (line ++ "  ".toList)])
  | moved {above front word} : StartsSolid front → IsWord word →
      Closed (above ++ [some (front ++ ' ' :: word)])
        (above ++ [some (trimEnd front), some (word ++ "   ".toList)])

namespace Closed

variable {rows body : List (Option (List Char))}

/-- Closing adds blanks and nothing else. -/
theorem exists_part (h : Closed rows body) {line : List Char} (hline : some line ∈ body) :
    ∃ row part blanks, some row ∈ rows ∧ part <:+: row ∧ line = part ++ List.replicate blanks ' ' := by
  cases h with
  | @same above last =>
      rcases List.mem_append.mp hline with habove | hlast
      · exact ⟨line, line, 0, List.mem_append_left _ habove, List.infix_rfl, (List.append_nil _).symm⟩
      · obtain rfl := Option.some.inj (List.mem_singleton.mp hlast)
        exact ⟨last, last, 2, List.mem_append_right above List.mem_cons_self, List.infix_rfl, rfl⟩
  | @moved above front word _ _ =>
      have hrow : some (front ++ ' ' :: word) ∈ above ++ [some (front ++ ' ' :: word)] :=
        List.mem_append_right above List.mem_cons_self
      simp only [List.mem_append, List.mem_cons, Option.some.injEq, List.not_mem_nil, or_false] at hline
      rcases hline with habove | rfl | rfl
      · exact ⟨line, line, 0, List.mem_append_left _ habove, List.infix_rfl, (List.append_nil _).symm⟩
      · refine ⟨_, trimEnd front, 0, hrow, ?_, (List.append_nil _).symm⟩
        exact ((trimEnd_prefix_self front).trans (List.prefix_append _ _)).isInfix
      · refine ⟨_, word, 3, hrow, ?_, rfl⟩
        exact ((List.suffix_cons ' ' word).trans (List.suffix_append front _)).isInfix

theorem onlySpaces (h : Closed rows body) (hrows : ∀ line, some line ∈ rows → OnlySpaces line)
    {line : List Char} (hline : some line ∈ body) : OnlySpaces line := by
  obtain ⟨row, part, blanks, hrow, hpart, rfl⟩ := h.exists_part hline
  refine onlySpaces_append.mpr ⟨fun c hc => hrows row hrow c (hpart.subset hc), ?_⟩
  exact onlySpaces_indentation blanks

/-- The last row leaves a blank in front of the closing mark. -/
theorem exists_concat (h : Closed rows body) : ∃ above line, body = above ++ [some (line ++ [' '])] := by
  cases h with
  | @same above line =>
      refine ⟨above, line ++ [' '], ?_⟩
      rw [List.append_assoc]
      rfl
  | @moved above front word _ _ =>
      refine ⟨above ++ [some (trimEnd front)], word ++ "  ".toList, ?_⟩
      rw [List.append_assoc, List.append_assoc]
      rfl

theorem ne_nil (h : Closed rows body) : body ≠ [] := by
  obtain ⟨above, line, rfl⟩ := h.exists_concat
  exact List.concat_ne_nil _ _

end Closed

/-! ## The body -/

/-- The lines of a comment behind its opening mark. -/
def bodyLines : List (Option (List Char)) → List (List Char)
  | [] => []
  | row :: more => (' ' :: row.getD []) :: more.map innerRow

theorem forall_mem_bodyLines {P : List Char → Prop} {rows : List (Option (List Char))}
    (hopen : P [' ']) (hgap : P [])
    (hline : ∀ line, some line ∈ rows → P (' ' :: line) ∧ P ("   ".toList ++ line)) :
    ∀ out ∈ bodyLines rows, P out := by
  cases rows with
  | nil => exact nofun
  | cons row more =>
      rw [bodyLines, List.forall_mem_cons, List.forall_mem_map]
      constructor
      · cases row with
        | none => exact hopen
        | some line => exact (hline line List.mem_cons_self).1
      · intro row' hrow
        cases row' with
        | none => exact hgap
        | some line => exact (hline line (List.mem_cons_of_mem row hrow)).2

theorem Closed.onlySpaces_of_mem_bodyLines {rows body : List (Option (List Char))}
    (h : Closed rows body) (hrows : ∀ line, some line ∈ rows → OnlySpaces line) :
    ∀ out ∈ bodyLines body, OnlySpaces out := by
  refine forall_mem_bodyLines (by decide) (by decide) fun line hline => ?_
  have hspaces := h.onlySpaces hrows hline
  exact ⟨List.forall_mem_cons.mpr ⟨by decide, hspaces⟩, onlySpaces_append.mpr ⟨by decide, hspaces⟩⟩

theorem joinAt_commentRows (column : Nat) {rows : List (Option (List Char))} (h : rows ≠ []) :
    joinAt column (commentRows rows) = "/*".toList ++ joinAt column (bodyLines rows) := by
  cases rows with
  | nil => exact absurd rfl h
  | cons row more =>
      rw [commentRows, bodyLines, joinAt, joinAt, intercalate_cons_eq_flatMap,
        intercalate_cons_eq_flatMap]
      rfl

theorem exists_bodyLines_concat (above : List (Option (List Char))) :
    ∃ blanks, ∀ line, bodyLines (above ++ [some line]) = bodyLines above ++ [blanks ++ line] := by
  cases above with
  | nil => exact ⟨[' '], fun line => rfl⟩
  | cons row above =>
      refine ⟨"   ".toList, fun line => ?_⟩
      rw [List.cons_append, bodyLines, bodyLines, List.map_append]
      rfl

/-- The last line of the body ends the output. -/
theorem exists_joinAt_bodyLines (column : Nat) (above : List (Option (List Char))) :
    ∃ front, ∀ line, joinAt column (bodyLines (above ++ [some line])) = front ++ line := by
  obtain ⟨blanks, hlast⟩ := exists_bodyLines_concat above
  obtain ⟨front, hjoin⟩ := exists_intercalate_concat ('\n' :: indentation column) (bodyLines above)
  refine ⟨front ++ blanks, fun line => ?_⟩
  rw [joinAt, hlast, hjoin, List.append_assoc]

theorem joinAt_commentRows_concat (column : Nat) (above : List (Option (List Char)))
    (line mark : List Char) :
    joinAt column (commentRows (above ++ [some (line ++ mark)])) =
      "/*".toList ++ joinAt column (bodyLines (above ++ [some line])) ++ mark := by
  obtain ⟨front, hfront⟩ := exists_joinAt_bodyLines column above
  rw [joinAt_commentRows column (List.concat_ne_nil _ _), hfront, hfront, List.append_assoc,
    List.append_assoc]

/-! ## The whole comment -/

theorem formatC_of_isBlank {text : String} (h : isBlank text.toList = true) (column : Nat) :
    formatC text column = "" := by
  rw [formatC, cLines, rows, paragraphs_of_isBlank h]
  rfl

/-- **A C comment is its body between the two marks.** -/
theorem exists_formatC_eq {text : String} (h : isBlank text.toList = false) (column : Nat) :
    ∃ body, Closed (rows (availableWidth column - 3) text.toList) body
      ∧ (formatC text column).toList =
        "/*".toList ++ joinAt column (bodyLines body) ++ "*/".toList := by
  obtain ⟨above, last, hrows, hend⟩ := exists_rows_eq_concat h (availableWidth column - 3)
  have hlast : IsLine (availableWidth column - 3) last :=
    isLine_of_mem_rows (hrows ▸ List.mem_append_right above List.mem_cons_self)
  rw [formatC, String.toList_ofList, cLines_of_rows hrows, hrows]
  rcases closeComment_cases (isMark_markBelow above) hlast.startsSolid hend hlast.onlySpaces
    (availableWidth column) with ⟨hclose, _⟩ | ⟨front, word, rfl, hword, _, hclose⟩
  · refine ⟨_, .same, ?_⟩
    rw [hclose, ← joinAt_commentRows_concat, commentRows_concat, List.append_assoc, List.append_assoc,
      List.cons_append]
    rfl
  · have hfront := startsSolid_of_append_space hlast.startsSolid
    refine ⟨_, .moved hfront hword, ?_⟩
    rw [hclose, trimEnd_mark_append _ hfront, List.append_cons above, ← joinAt_commentRows_concat,
      commentRows_concat, commentRows_concat, markBelow_concat, List.append_assoc, List.append_assoc,
      List.append_assoc]
    rfl

end Bindery.Doc
