import Bindery.Proofs.Text.Cut
import Bindery.Proofs.Text.Packing
import Bindery.Proofs.Text.Spacing

/-!
# Wrapping wrapped lines

The lines of a paragraph, joined with single spaces, wrap into the same lines
again (`wrap_rejoined`), if the paragraph is single spaced and its words fit.

The text between two lines changes: a gap or nothing at all was there, and now
there is a space. A line cut off after a hyphen so becomes a word of its own,
and inside a line hyphens may no longer be places to cut, now that less stands
around them. Both can only make the first chunk of a line longer
(`Packed.exists_head`), which did not fit on the line before, and does not fit
there now. So the lines are packed (`Packed.repacked`), and packed lines are the
wrapped ones.
-/

namespace Bindery.Text

open Bindery.Unicode

variable {width : Nat} {left : List Char} {pending line : List (List Char)}
  {lines : List (List (List Char))}

/-! ## Lines joined again -/

/-- The text of the lines, with a space between two of them. -/
def rejoined (lines : List (List (List Char))) : List Char :=
  List.intercalate [' '] (lines.map List.flatten)

theorem rejoined_singleton (line : List (List Char)) : rejoined [line] = line.flatten :=
  List.intercalate_singleton

theorem rejoined_cons (line : List (List Char)) (hne : lines ≠ []) :
    rejoined (line :: lines) = line.flatten ++ ' ' :: rejoined lines := by
  rw [rejoined, List.map_cons, List.intercalate_cons_of_ne_nil (List.map_eq_nil_iff.not.mpr hne),
    List.append_assoc]
  rfl

theorem Packed.startsSolid_rejoined (h : Packed width pending lines) : StartsSolid (rejoined lines) := by
  obtain ⟨line, more, rfl, htrimmed, _⟩ := h.exists_cons
  exact startsSolid_intercalate _ htrimmed.startsSolid

theorem chunks_rejoined_cons (htrimmed : Trimmed line) (h : Packed width pending lines) :
    chunks (rejoined (line :: lines)) =
      chunks line.flatten ++ [' '] :: chunks (rejoined lines) := by
  have hne : lines ≠ [] := by
    rintro rfl
    cases h
  obtain ⟨c, hc, hsolidc⟩ := htrimmed.endsSolid
  obtain ⟨d, hd, hsolidd⟩ := h.startsSolid_rejoined
  rw [rejoined_cons line hne]
  refine chunks_append_space (fun e he => ?_) fun e he => ?_
  · obtain rfl := Option.some.inj (hc.symm.trans he)
    exact isSpace_of_not_isWhiteSpace hsolidc
  · obtain rfl := Option.some.inj (hd.symm.trans he)
    exact isSpace_of_not_isWhiteSpace hsolidd

/-! ## First chunks -/

/-- The first chunk of a line is as long or longer when the line stands alone. -/
theorem exists_chunks_of_prefix {chunk : List Char} {rest : List (List Char)} (hline : Trimmed line)
    (hpre : line <+: chunk :: rest) (hcut : cutFrom left (chunk :: rest).flatten = chunk :: rest) :
    ∃ first more, chunks line.flatten = first :: more ∧ chunk.length ≤ first.length := by
  obtain ⟨later, hlater⟩ := hpre
  obtain ⟨head, tail, rfl⟩ := List.exists_cons_of_ne_nil hline.ne_nil
  obtain ⟨rfl, -⟩ := List.cons.inj hlater
  rw [← hlater, List.flatten_append, hlater, ← List.nil_append left] at hcut
  have hlen : head.length ≤ (head :: tail).flatten.length := by simp
  obtain ⟨first, more, hfirst, hle⟩ :=
    exists_prefix_of_cutFrom hline.startsSolid.ne_nil hcut hlen
  rw [chunks_eq_cutFrom]
  exact ⟨first, more, hfirst, hle.length_le⟩

/-- The first chunk does not get shorter by what becomes of the text around it. -/
theorem Packed.exists_head {chunk : List Char} {rest : List (List Char)}
    (h : Packed width (chunk :: rest) lines)
    (hcut : cutFrom left (chunk :: rest).flatten = chunk :: rest) :
    ∃ first more, chunks (rejoined lines) = first :: more ∧ chunk.length ≤ first.length := by
  obtain ⟨line, later, rfl, htrimmed, hpre⟩ := h.exists_cons
  obtain ⟨first, more, hfirst, hle⟩ := exists_chunks_of_prefix htrimmed hpre hcut
  generalize hpending : chunk :: rest = pending at h
  cases h with
  | last _ _ => exact ⟨first, more, by rwa [rejoined_singleton], hle⟩
  | more _ _ _ _ _ hlater =>
      exact ⟨first, _, by rw [chunks_rejoined_cons htrimmed hlater, hfirst]; rfl, hle⟩

/-! ## Packed again -/

theorem isGap_space : IsGap [' '] := ⟨List.cons_ne_nil ' ' [], List.forall_mem_singleton.mpr rfl⟩

/-- A gap between single spaced lines is no wider than the space that replaces it. -/
theorem length_gap_le_one {gap : Option (List Char)} {rest : List (List Char)}
    (hsingle : SingleSpaced (line ++ gap.toList ++ rest).flatten) (hgap : ∀ g ∈ gap, IsGap g) :
    gap.toList.flatten.length ≤ 1 := by
  cases gap with
  | none => exact Nat.zero_le 1
  | some g =>
      rw [Option.toList_some, List.flatten_singleton]
      refine length_le_one_of_isGap hsingle (hgap g rfl) ⟨line.flatten, rest.flatten, ?_⟩
      simp

/-- Packed lines are packed again when they are joined with single spaces, if no
gap between two of them was wider. -/
theorem Packed.repacked (h : Packed width pending lines) (hspaces : OnlySpaces pending.flatten)
    (hsingle : SingleSpaced pending.flatten) (hcut : cutFrom left pending.flatten = pending) :
    Packed width (chunks (rejoined lines)) (lines.map (chunks ·.flatten)) := by
  induction h generalizing left with
  | @last line htrimmed hlen =>
      rw [rejoined_singleton]
      refine .last (trimmed_chunks htrimmed.startsSolid htrimmed.endsSolid hspaces) ?_
      rwa [flatten_chunks]
  | @more line word rest lines gap htrimmed hlen hgap hword hbreak hlater ih =>
      have hlater_cut := cutFrom_append_right hcut
      have hgap_length := length_gap_le_one hsingle hgap
      rw [List.flatten_append] at hspaces hsingle
      obtain ⟨hupper_spaces, hlater_spaces⟩ := onlySpaces_append.mp hspaces
      rw [List.flatten_append] at hupper_spaces
      have hline_spaces := (onlySpaces_append.mp hupper_spaces).1
      have hpacked := ih hlater_spaces (hsingle.suffix (List.suffix_append _ _)) hlater_cut
      obtain ⟨first, more, hfirst, hle⟩ := hlater.exists_head hlater_cut
      rw [hfirst] at hpacked
      obtain ⟨head, hhead, hfirst_isWord⟩ := hpacked.trimmed.head_isWord
      obtain rfl := Option.some.inj hhead
      rw [chunks_rejoined_cons htrimmed hlater, hfirst]
      have hspace : ∀ g ∈ some [' '], IsGap g := by
        rintro g ⟨⟩
        exact isGap_space
      have hrepacked := Packed.more
        (trimmed_chunks htrimmed.startsSolid htrimmed.endsSolid hline_spaces)
        (by rwa [flatten_chunks]) hspace hfirst_isWord ?_ hpacked
      · simpa using hrepacked
      · -- The space is as wide as the gap, and the first chunk as long as the word was.
        simp only [List.flatten_append, List.length_append, flatten_chunks,
          List.flatten_singleton, Option.toList_some, List.length_singleton] at hbreak ⊢
        omega

/-! ## Paragraphs -/

/-- Packed lines are the wrapped ones. -/
theorem Packed.wrap_eq {text : List Char} (h : Packed (max width 1) (chunks text) lines)
    (hspaces : OnlySpaces text) : wrap width text = lines.map List.flatten := by
  have hstart := h.trimmed.startsSolid
  have hend := h.trimmed.endsSolid
  have hfits := h.length_le_of_isWord
  rw [flatten_chunks] at hstart hend
  have hwrapped := packed_of_solid hstart hend (by omega : 0 < max width 1)
  rw [spaced_of_onlySpaces hspaces] at hwrapped
  rw [wrap, h.unique (hwrapped hfits), spaced_of_onlySpaces hspaces]

/-- The lines of a paragraph wrap into themselves. -/
theorem wrap_rejoined {p : List Char} (hstart : StartsSolid p) (hend : EndsSolid p)
    (hsingle : SingleSpaced p)
    (hfits : ∀ word ∈ chunks (spaced p), IsWord word → word.length ≤ max width 1) :
    wrap width (List.intercalate [' '] (wrap width p)) = wrap width p := by
  have hspaces : OnlySpaces (List.intercalate [' '] (wrap width p)) := by
    intro c hc
    rcases mem_intercalate hc with hc | ⟨line, hline, hc⟩
    · obtain rfl := List.mem_singleton.mp hc
      decide
    · exact (isLine_of_mem_wrap hstart hend hline).onlySpaces c hc
  obtain ⟨lines, hlines, hpacked⟩ : ∃ lines, wrap width p = lines.map List.flatten
      ∧ Packed (max width 1) (chunks (spaced p)) lines :=
    ⟨_, rfl, packed_of_solid hstart hend (by omega) hfits⟩
  have hflatten := flatten_chunks (spaced p)
  have hcut : cutFrom [] (chunks (spaced p)).flatten = chunks (spaced p) := by
    rw [hflatten, chunks_eq_cutFrom]
  have hrepacked := hpacked.repacked (by rw [hflatten]; exact onlySpaces_spaced p)
    (by rw [hflatten]; exact singleSpaced_spaced.mpr hsingle) hcut
  rw [hlines, ← rejoined] at hspaces ⊢
  rw [hrepacked.wrap_eq hspaces, List.map_map]
  exact List.map_congr_left fun line _ => flatten_chunks line.flatten

/-- The lines of a paragraph end solid as well, where all words fit. -/
theorem endsSolid_of_mem_wrap {p line : List Char} (hstart : StartsSolid p) (hend : EndsSolid p)
    (hfits : ∀ word ∈ chunks (spaced p), IsWord word → word.length ≤ max width 1)
    (h : line ∈ wrap width p) : EndsSolid line := by
  obtain ⟨pieces, hpieces, rfl⟩ := List.mem_map.mp h
  exact ((packed_of_solid hstart hend (by omega) hfits).trimmed_of_mem pieces hpieces).endsSolid

end Bindery.Text
