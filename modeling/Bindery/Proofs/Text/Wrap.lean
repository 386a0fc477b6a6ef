import Bindery.Proofs.Text.Fill

/-!
# Lines of a wrapped paragraph

One line is a step from the pending chunks to fewer of them (`LineStep`), and
wrapping is a run of steps until no chunk is left (`Wraps`). What holds of
every line is read off the step; what holds of the last one comes by
induction over the run, as only the last step leaves no chunk behind.

For a paragraph with two solid ends, every line fits, starts solid and holds
characters of the paragraph only, and the last line ends solid. Another line
may end with spaces, right before a broken chunk.
-/

namespace Bindery.Text

open Bindery.Unicode

/-! ## Blanks at the ends of a line -/

theorem dropBlankLast_concat (line : List (List Char)) (chunk : List Char) :
    dropBlankLast (line ++ [chunk]) = if isBlank chunk then line else line ++ [chunk] := by
  simp only [dropBlankLast, List.reverse_append, List.reverse_singleton, List.singleton_append,
    dropBlankHead]
  split
  · exact List.reverse_reverse line
  · rw [List.reverse_cons, List.reverse_reverse]

/-- Only a blank end is lost. -/
theorem exists_dropBlankLast_append (line : List (List Char)) :
    ∃ blank, isBlank blank = true ∧ (dropBlankLast line).flatten ++ blank = line.flatten := by
  induction line using List.reverseRecOn with
  | nil => exact ⟨[], rfl, rfl⟩
  | append_singleton line chunk _ =>
      rw [dropBlankLast_concat]
      split
      · next h => exact ⟨chunk, h, by rw [List.flatten_append, List.flatten_singleton]⟩
      · exact ⟨[], rfl, List.append_nil _⟩

theorem dropBlankLast_head_isWord {line : List (List Char)}
    (h : ∃ word ∈ line.head?, IsWord word) : ∃ word ∈ (dropBlankLast line).head?, IsWord word := by
  induction line using List.reverseRecOn with
  | nil => exact h
  | append_singleton line chunk _ =>
      rw [dropBlankLast_concat]
      split
      · next hblank =>
        cases line with
        | nil =>
            obtain ⟨word, hmem, hword⟩ := h
            obtain rfl : chunk = word := Option.some.inj hmem
            cases hblank.symm.trans hword.isBlank
        | cons first line => exact h
      · exact h

/-- After the first line, the pending chunks start with a word again. -/
theorem dropBlankHead_orderly {pending : List (List Char)} (h : Orderly pending)
    (hne : pending ≠ []) :
    (∃ word ∈ (dropBlankHead pending).head?, IsWord word) ∧ Orderly (dropBlankHead pending) := by
  cases h with
  | nil => exact absurd rfl hne
  | word hword hrest =>
      rw [dropBlankHead, hword.isBlank]
      exact ⟨⟨_, rfl, hword⟩, .word hword hrest⟩
  | gap hgap hword hrest =>
      rw [dropBlankHead, hgap.isBlank]
      exact ⟨⟨_, rfl, hword⟩, .word hword hrest⟩

theorem exists_append_dropBlankHead (pending : List (List Char)) :
    ∃ blank, isBlank blank = true ∧ blank ++ (dropBlankHead pending).flatten = pending.flatten := by
  cases pending with
  | nil => exact ⟨[], rfl, rfl⟩
  | cons chunk rest =>
      rw [dropBlankHead]
      split
      · next h => exact ⟨chunk, h, rfl⟩
      · exact ⟨[], rfl, rfl⟩

/-! ## A step -/

/-- One line, made of the first of the pending chunks, and those after it.
Apart from blanks on both sides, no character is lost. -/
structure LineStep (width : Nat) (pending line rest : List (List Char)) : Prop where
  flatten_eq : ∃ before after, isBlank before = true ∧ isBlank after = true ∧
    pending.flatten = before ++ line.flatten ++ after ++ rest.flatten
  length_le : line.flatten.length ≤ width
  head_isWord : ∃ word ∈ line.head?, IsWord word
  orderly : Orderly rest
  last_isWord : rest = [] → ∃ word ∈ line.getLast?, IsWord word

namespace LineStep

variable {width : Nat} {pending line rest : List (List Char)}

theorem line_infix (h : LineStep width pending line rest) : line.flatten <:+: pending.flatten := by
  obtain ⟨before, after, _, _, hflatten⟩ := h.flatten_eq
  exact ⟨before, after ++ rest.flatten, by rw [hflatten, List.append_assoc _ after]⟩

theorem rest_suffix (h : LineStep width pending line rest) : rest.flatten <:+ pending.flatten := by
  obtain ⟨before, after, _, _, hflatten⟩ := h.flatten_eq
  rw [hflatten]
  exact List.suffix_append _ _

end LineStep

theorem lineStep_of_filled {width : Nat} {pending line rest : List (List Char)}
    (hwidth : 0 < width) (h : Filled width pending line rest) (horder : Orderly pending)
    (hhead : ∃ word ∈ pending.head?, IsWord word) :
    LineStep width pending (dropBlankLast line) rest where
  flatten_eq := by
    obtain ⟨after, hafter, hline⟩ := exists_dropBlankLast_append line
    exact ⟨[], after, rfl, hafter, by rw [List.nil_append, hline, h.flatten_append]⟩
  length_le := by
    obtain ⟨after, _, hline⟩ := exists_dropBlankLast_append line
    refine Nat.le_trans ?_ h.length_le
    rw [← hline, List.length_append]
    exact Nat.le_add_right _ _
  head_isWord := dropBlankLast_head_isWord (h.head_isWord hwidth hhead)
  orderly := h.orderly horder
  last_isWord hrest := by
    obtain rfl := h.eq_of_rest_eq_nil hrest
    induction line using List.reverseRecOn with
    | nil =>
        obtain ⟨word, hmem, _⟩ := hhead
        cases hmem
    | append_singleton line chunk _ =>
        have hword := horder.getLast_isWord
        rw [dropBlankLast_concat, hword.isBlank]
        exact ⟨chunk, List.getLast?_concat, hword⟩

theorem lineStep_nextLine {width : Nat} (hwidth : 0 < width) {first : Bool}
    {pending : List (List Char)} (h : Orderly pending) (hne : pending ≠ [])
    (hfirst : first = true → ∃ word ∈ pending.head?, IsWord word) :
    LineStep width pending (nextLine width first pending).1 (nextLine width first pending).2 := by
  cases first with
  | true =>
      exact lineStep_of_filled hwidth (filled_fillBreaking width pending) h (hfirst rfl)
  | false =>
      obtain ⟨hhead, horder⟩ := dropBlankHead_orderly h hne
      have hstep := lineStep_of_filled hwidth
        (filled_fillBreaking width (dropBlankHead pending)) horder hhead
      refine { hstep with flatten_eq := ?_ }
      obtain ⟨blank, hblank, hpending⟩ := exists_append_dropBlankHead pending
      obtain ⟨before, after, hbefore, hafter, hflatten⟩ := hstep.flatten_eq
      refine ⟨blank ++ before, after, ?_, hafter, ?_⟩
      · simp [hblank, hbefore]
      · rw [← hpending, hflatten]
        simp only [List.append_assoc]
        rfl

/-! ## A run -/

/-- Lines made one after another until no chunk is left. -/
inductive Wraps (width : Nat) : List (List Char) → List (List (List Char)) → Prop where
  | done : Wraps width [] []
  | step {pending line rest lines} : LineStep width pending line rest → Wraps width rest lines →
      Wraps width pending (line :: lines)

theorem wraps_linePieces {width : Nat} (hwidth : 0 < width) {first : Bool}
    {pending : List (List Char)} (h : Orderly pending)
    (hfirst : first = true → ∀ chunk ∈ pending.head?, IsWord chunk) :
    Wraps width pending (linePieces width hwidth first pending) := by
  fun_induction linePieces width hwidth first pending with
  | case1 => exact .done
  | case2 first chunk rest step hempty _ =>
      have hstep : LineStep width (chunk :: rest) step.1 step.2 :=
        lineStep_nextLine hwidth h (List.cons_ne_nil chunk rest)
          fun htrue => ⟨chunk, rfl, hfirst htrue chunk rfl⟩
      exact absurd (List.isEmpty_iff.mp hempty) (ne_nil_of_head_isWord hstep.head_isWord)
  | case3 first chunk rest step hempty ih =>
      have hstep : LineStep width (chunk :: rest) step.1 step.2 :=
        lineStep_nextLine hwidth h (List.cons_ne_nil chunk rest)
          fun htrue => ⟨chunk, rfl, hfirst htrue chunk rfl⟩
      exact .step hstep (ih hstep.orderly nofun)

namespace Wraps

variable {width : Nat} {pending : List (List Char)} {lines : List (List (List Char))}

theorem exists_step (h : Wraps width pending lines) {line : List (List Char)}
    (hline : line ∈ lines) :
    ∃ now after, LineStep width now line after ∧ line.flatten <:+: pending.flatten := by
  induction h with
  | done => cases hline
  | @step pending first rest lines hstep _ ih =>
      rcases List.mem_cons.mp hline with rfl | hline
      · exact ⟨pending, rest, hstep, hstep.line_infix⟩
      · obtain ⟨now, after, hnow, hinside⟩ := ih hline
        exact ⟨now, after, hnow, hinside.trans hstep.rest_suffix.isInfix⟩

theorem ne_nil (h : Wraps width pending lines) (hne : pending ≠ []) : lines ≠ [] := by
  cases h with
  | done => exact absurd rfl hne
  | step _ _ => exact List.cons_ne_nil _ _

theorem getLast_isWord (h : Wraps width pending lines) :
    ∀ line ∈ lines.getLast?, ∃ word ∈ line.getLast?, IsWord word := by
  induction h with
  | done => exact nofun
  | @step pending first rest lines hstep hrun ih =>
      cases hrun with
      | done =>
          intro line hline
          obtain rfl : first = line := Option.some.inj hline
          exact hstep.last_isWord rfl
      | step _ _ =>
          rw [List.getLast?_cons_cons]
          exact ih

end Wraps

/-! ## Lines of a paragraph -/

theorem wraps_of_solid {p : List Char} (hstart : StartsSolid p) (hend : EndsSolid p) {width : Nat}
    (hwidth : 0 < width) :
    Wraps width (chunks (spaced p)) (linePieces width hwidth true (chunks (spaced p))) := by
  have horder : Orderly (chunks (spaced p)) :=
    orderly_chunks (onlySpaces_spaced p) fun _ => endsSolid_spaced.mpr hend
  refine wraps_linePieces hwidth horder fun _ => horder.head_isWord ?_
  rw [flatten_chunks]
  exact startsSolid_spaced.mpr hstart

/-- A line of text that fits, starts solid, and has no white space but the
space. -/
structure IsLine (width : Nat) (line : List Char) : Prop where
  length_le : line.length ≤ max width 1
  startsSolid : StartsSolid line
  onlySpaces : OnlySpaces line

/-- The characters of a line stand next to each other in the paragraph too. -/
theorem infix_of_mem_wrap {p line : List Char} (hstart : StartsSolid p) (hend : EndsSolid p)
    {width : Nat} (h : line ∈ wrap width p) : line <:+: spaced p := by
  obtain ⟨pieces, hpieces, rfl⟩ := List.mem_map.mp h
  obtain ⟨_, _, _, hinside⟩ :=
    (wraps_of_solid hstart hend (by omega : 0 < max width 1)).exists_step hpieces
  rwa [flatten_chunks] at hinside

theorem isLine_of_mem_wrap {p line : List Char} (hstart : StartsSolid p) (hend : EndsSolid p)
    {width : Nat} (h : line ∈ wrap width p) : IsLine width line := by
  have hinside := infix_of_mem_wrap hstart hend h
  obtain ⟨pieces, hpieces, rfl⟩ := List.mem_map.mp h
  obtain ⟨_, _, hstep, _⟩ :=
    (wraps_of_solid hstart hend (by omega : 0 < max width 1)).exists_step hpieces
  exact ⟨hstep.length_le, startsSolid_flatten hstep.head_isWord,
    fun c hc => onlySpaces_spaced p c (hinside.subset hc)⟩

theorem wrap_ne_nil {p : List Char} (hstart : StartsSolid p) (hend : EndsSolid p) (width : Nat) :
    wrap width p ≠ [] := by
  have hpieces := (wraps_of_solid hstart hend (by omega : 0 < max width 1)).ne_nil ?_
  · rwa [wrap, ne_eq, List.map_eq_nil_iff]
  · intro hnil
    have hflatten := flatten_chunks (spaced p)
    rw [hnil] at hflatten
    exact (startsSolid_spaced.mpr hstart).ne_nil hflatten.symm

theorem endsSolid_getLast_wrap {p : List Char} (hstart : StartsSolid p) (hend : EndsSolid p)
    (width : Nat) : ∀ line ∈ (wrap width p).getLast?, EndsSolid line := by
  intro line hline
  rw [wrap, List.getLast?_map, Option.mem_def, Option.map_eq_some_iff] at hline
  obtain ⟨pieces, hpieces, rfl⟩ := hline
  have hrun := wraps_of_solid hstart hend (by omega : 0 < max width 1)
  exact endsSolid_flatten (hrun.getLast_isWord pieces hpieces)

end Bindery.Text
