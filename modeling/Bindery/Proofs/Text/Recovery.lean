import Bindery.Proofs.Text.Paragraph
import Bindery.Proofs.Text.Wrap

/-!
# Wrapped lines hold the whole text

Nothing of a paragraph is lost in wrapping but blanks between two lines: with
some spaces put back before each line after the first, the lines are the
paragraph again, its white space counted as spaces (`wrap_recovers`).

Each step drops blanks before and behind its line. Those behind one line and
before the next come together in one gap. The two outer ends of the paragraph
are solid, so no blank is dropped in front of the first line or behind the
last one.
-/

namespace Bindery.Text

open Bindery.Unicode

variable {width : Nat} {pending : List (List Char)} {lines : List (List (List Char))}

/-! ## Gaps -/

/-- Lines in a row, each behind so many spaces. -/
def padded (lines : List (Nat × List Char)) : List Char :=
  lines.flatMap fun line => List.replicate line.1 ' ' ++ line.2

theorem padded_cons (gap : Nat) (line : List Char) (more : List (Nat × List Char)) :
    padded ((gap, line) :: more) = List.replicate gap ' ' ++ line ++ padded more := rfl

theorem eq_replicate_of_isBlank {blank : List Char} (hspaces : OnlySpaces blank)
    (hblank : isBlank blank = true) : blank = List.replicate blank.length ' ' := by
  refine List.eq_replicate_iff.mpr ⟨rfl, fun c hc => ?_⟩
  have hspace := (hspaces c hc).symm.trans (isBlank_iff.mp hblank c hc)
  exact beq_iff_eq.mp hspace

/-- Spaces in front of lines in a row make the first gap wider. Without a line
they add to the spaces at the end. -/
theorem exists_padded_eq_replicate_append (blank : Nat) (later : List (Nat × List Char))
    (trail : Nat) :
    ∃ later' trail', later'.map Prod.snd = later.map Prod.snd
      ∧ List.replicate blank ' ' ++ (padded later ++ List.replicate trail ' ') =
        padded later' ++ List.replicate trail' ' ' := by
  cases later with
  | nil => exact ⟨[], blank + trail, rfl, by simp [padded]⟩
  | cons line later =>
      refine ⟨(blank + line.1, line.2) :: later, trail, rfl, ?_⟩
      simp only [padded, List.flatMap_cons, List.append_assoc, ← List.replicate_append_replicate]

/-! ## A run -/

/-- A run takes the pending text apart into its lines and the gaps around them. -/
theorem Wraps.exists_padded (h : Wraps width pending lines) (hspaces : OnlySpaces pending.flatten) :
    ∃ padding trail, lines.map List.flatten = padding.map Prod.snd
      ∧ pending.flatten = padded padding ++ List.replicate trail ' ' := by
  induction h with
  | done => exact ⟨[], 0, rfl, rfl⟩
  | @step pending line rest lines hstep _ ih =>
      obtain ⟨before, after, hbefore, hafter, hflatten⟩ := hstep.flatten_eq
      simp only [hflatten, onlySpaces_append] at hspaces ⊢
      obtain ⟨⟨⟨hbefore_spaces, _⟩, hafter_spaces⟩, hrest_spaces⟩ := hspaces
      have hbefore := eq_replicate_of_isBlank hbefore_spaces hbefore
      have hafter := eq_replicate_of_isBlank hafter_spaces hafter
      obtain ⟨later, trail, hlater, hrest⟩ := ih hrest_spaces
      obtain ⟨later', trail', hlater', hmerged⟩ :=
        exists_padded_eq_replicate_append after.length later trail
      refine ⟨(before.length, line.flatten) :: later', trail', ?_, ?_⟩
      · rw [List.map_cons, List.map_cons, hlater, hlater']
      · rw [padded_cons, List.append_assoc, List.append_assoc, List.append_assoc, ← hmerged,
          ← hrest, ← hafter, ← hbefore]
        simp only [List.append_assoc]

/-! ## Paragraphs -/

theorem not_startsSolid_replicate_append (n : Nat) (rest : List Char) :
    ¬StartsSolid (List.replicate (n + 1) ' ' ++ rest) := by
  intro h
  cases startsSolid_cons.mp h

theorem not_endsSolid_append_replicate (front : List Char) (n : Nat) :
    ¬EndsSolid (front ++ List.replicate (n + 1) ' ') :=
  not_endsSolid_append front (List.cons_ne_nil _ _) (isBlank_replicate_space (n + 1))

/-- Between two solid ends there is no space outside the lines. -/
theorem padded_of_solid {text : List Char} {padding : List (Nat × List Char)} {trail : Nat}
    (hstart : StartsSolid text) (hend : EndsSolid text)
    (h : text = padded padding ++ List.replicate trail ' ') :
    ∃ first more, padding = (0, first) :: more ∧ text = first ++ padded more := by
  obtain rfl : trail = 0 := by
    cases trail with
    | zero => rfl
    | succ n => exact absurd (h ▸ hend) (not_endsSolid_append_replicate _ n)
  rw [List.replicate_zero, List.append_nil] at h
  cases padding with
  | nil => exact absurd h hstart.ne_nil
  | cons line more =>
      obtain ⟨gap, first⟩ := line
      rw [padded_cons, List.append_assoc] at h
      obtain rfl : gap = 0 := by
        cases gap with
        | zero => rfl
        | succ n => exact absurd (h ▸ hstart) (not_startsSolid_replicate_append n _)
      exact ⟨first, more, rfl, h⟩

/-- **Wrapping loses only blanks between lines.** The lines of a paragraph, with
some spaces, possibly none, put back between each two of them, are the
paragraph again, its white space counted as spaces. There is a first line, and
every line starts solid and fits. -/
theorem wrap_recovers {text p : String} (hp : p ∈ splitParagraphs text) (width : Nat) :
    ∃ first more, wrap width p.toList = first :: more.map Prod.snd
      ∧ spaced p.toList = first ++ padded more
      ∧ ∀ line ∈ wrap width p.toList, StartsSolid line ∧ line.length ≤ max width 1 := by
  obtain ⟨p, hmem, rfl⟩ := List.mem_map.mp hp
  rw [String.toList_ofList]
  have hstart := startsSolid_of_mem_paragraphs hmem
  have hend := endsSolid_of_mem_paragraphs hmem
  have hrun := wraps_of_solid hstart hend (by omega : 0 < max width 1)
  obtain ⟨padding, trail, hlines, htext⟩ := hrun.exists_padded <| by
    rw [flatten_chunks]
    exact onlySpaces_spaced p
  rw [flatten_chunks] at htext
  obtain ⟨first, more, rfl, hrecovered⟩ :=
    padded_of_solid (startsSolid_spaced.mpr hstart) (endsSolid_spaced.mpr hend) htext
  refine ⟨first, more, hlines, hrecovered, fun line hline => ?_⟩
  have hisLine := isLine_of_mem_wrap hstart hend hline
  exact ⟨hisLine.startsSolid, hisLine.length_le⟩

/-- A wide gap between two lines, and none inside a word that no line holds. -/
theorem wrap_recovers_broken_word :
    "aa    bbbbbb" ∈ splitParagraphs "aa    bbbbbb"
    ∧ ∃ first more, ["aa".toList, "bbbb".toList, "bb".toList] = first :: more.map Prod.snd
        ∧ "aa    bbbbbb".toList = first ++ padded more := by
  have hp : "aa    bbbbbb" ∈ splitParagraphs "aa    bbbbbb" := by decide +kernel
  have hwrap : wrap 4 "aa    bbbbbb".toList = ["aa".toList, "bbbb".toList, "bb".toList] := by
    decide +kernel
  have hspaced : spaced "aa    bbbbbb".toList = "aa    bbbbbb".toList := by decide +kernel
  obtain ⟨first, more, hlines, htext, -⟩ := wrap_recovers hp 4
  exact ⟨hp, first, more, hwrap.symm.trans hlines, hspaced.symm.trans htext⟩

end Bindery.Text
