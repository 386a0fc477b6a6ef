import Bindery.Proofs.Text.Succession

/-!
# Packed lines

What the lines of a paragraph are when every word fits a line. `Packed` says it
without a word about how they are made: each line starts and ends with a word
and fits, at most one gap stands between two of them, and the word that starts
the next line would not have fitted any more, with the gap before it.

Wrapping makes such lines (`packed_of_solid`), since without words that no line
can hold there is one way only in which a line follows another (`Laid.packed`).
And there is no other way to pack the chunks (`Packed.unique`).
-/

namespace Bindery.Text

open Bindery.Unicode

/-! ## Packed chunks -/

inductive Packed (width : Nat) : List (List Char) → List (List (List Char)) → Prop where
  | last {line} : Trimmed line → line.flatten.length ≤ width → Packed width line [line]
  | more {line word rest lines} {gap : Option (List Char)} : Trimmed line →
      line.flatten.length ≤ width → (∀ g ∈ gap, IsGap g) → IsWord word →
      width < (line ++ gap.toList ++ [word]).flatten.length → Packed width (word :: rest) lines →
      Packed width (line ++ gap.toList ++ word :: rest) (line :: lines)

variable {width : Nat} {pending line rest : List (List Char)} {lines : List (List (List Char))}

namespace Packed

theorem exists_cons (h : Packed width pending lines) :
    ∃ line more, lines = line :: more ∧ Trimmed line ∧ line <+: pending := by
  cases h with
  | last htrimmed _ => exact ⟨pending, [], rfl, htrimmed, List.prefix_rfl⟩
  | @more line word rest lines gap htrimmed _ _ _ _ _ =>
      refine ⟨line, lines, rfl, htrimmed, ?_⟩
      rw [List.append_assoc]
      exact List.prefix_append line _

theorem trimmed (h : Packed width pending lines) : Trimmed pending := by
  induction h with
  | last htrimmed _ => exact htrimmed
  | more htrimmed _ _ _ _ _ ih =>
      obtain ⟨last, hmem, hlast⟩ := ih.last_isWord
      refine ⟨?_, last, ?_, hlast⟩
      · rw [List.append_assoc, List.head?_append_of_ne_nil _ htrimmed.ne_nil]
        exact htrimmed.head_isWord
      · rwa [List.getLast?_append_of_ne_nil _ ih.ne_nil]

theorem trimmed_of_mem (h : Packed width pending lines) : ∀ line ∈ lines, Trimmed line := by
  induction h with
  | last htrimmed _ => exact List.forall_mem_singleton.mpr htrimmed
  | more htrimmed _ _ _ _ _ ih => exact List.forall_mem_cons.mpr ⟨htrimmed, ih⟩

theorem length_le_of_isWord (h : Packed width pending lines) :
    ∀ word ∈ pending, IsWord word → word.length ≤ width := by
  have hline {line : List (List Char)} (hlen : line.flatten.length ≤ width) :
      ∀ word ∈ line, word.length ≤ width := fun word hmem =>
    Nat.le_trans (List.sublist_flatten_of_mem hmem).length_le hlen
  induction h with
  | last _ hlen => exact fun word hmem _ => hline hlen word hmem
  | more _ hlen hgap _ _ _ ih =>
      intro word hmem hword
      rcases List.mem_append.mp hmem with hmem | hmem
      · rcases List.mem_append.mp hmem with hmem | hmem
        · exact hline hlen word hmem
        · exact absurd (hgap word (Option.mem_toList.mp hmem)) hword.not_isGap
      · exact ih word hmem hword

end Packed

/-- Where all words fit, no line ends in front of a word that none could hold, or inside one. -/
theorem Laid.packed {n : Nat} {placed : List (Nat × List Char)}
    (h : Laid width n pending lines placed)
    (hfits : ∀ word ∈ pending, IsWord word → word.length ≤ width) : Packed width pending lines := by
  induction h with
  | last htrimmed hlen => exact .last htrimmed hlen
  | more hfollows _ ih =>
      cases hfollows with
      | between htrimmed hlen hgap hword hlt _ =>
          refine .more htrimmed hlen hgap hword hlt (ih fun word hmem => hfits word ?_)
          exact List.mem_append_right _ hmem
      | behindGap _ _ hword _ hbig =>
          exact absurd (hfits _ (by simp) hword) (Nat.not_le_of_lt hbig)
      | inside _ hword _ hbig =>
          exact absurd (hfits _ (by simp) hword) (Nat.not_le_of_lt hbig)

/-! ## One packing only -/

/-- A line that fits cannot reach past the place where another one breaks. -/
theorem prefix_of_break {line' : List (List Char)} {gap : Option (List Char)} {word : List Char}
    (hgap : ∀ g ∈ gap, IsGap g) (hbreak : width < (line ++ gap.toList ++ [word]).flatten.length)
    (htrimmed : Trimmed line') (hlen : line'.flatten.length ≤ width)
    (hpre : line' <+: line ++ gap.toList ++ word :: rest) : line' <+: line := by
  have hshort : ¬line ++ gap.toList ++ [word] <+: line' := fun h =>
    Nat.not_le_of_lt hbreak (Nat.le_trans h.flatten.length_le hlen)
  have hword : line ++ gap.toList ++ [word] <+: line ++ gap.toList ++ word :: rest :=
    ⟨rest, by simp⟩
  have hle := (List.prefix_or_prefix_of_prefix hword hpre).resolve_left hshort
  rcases List.prefix_concat_iff.mp hle with rfl | hle
  · exact absurd List.prefix_rfl hshort
  · cases gap with
    | none => simpa using hle
    | some g =>
        rcases List.prefix_concat_iff.mp hle with rfl | hle
        · obtain ⟨last, hmem, hlast⟩ := htrimmed.last_isWord
          obtain rfl : g = last := by simpa using hmem
          exact absurd (hgap g rfl) hlast.not_isGap
        · exact hle

theorem not_prefix_of_append_cons (line more : List (List Char)) {word : List Char}
    {later : List (List Char)} : ¬line ++ more ++ word :: later <+: line := by
  intro h
  have hlen := h.length_le
  simp only [List.length_append, List.length_cons] at hlen
  omega

/-- The next line starts right after the gap. -/
theorem gap_inj {gap gap' : Option (List Char)} {word word' : List Char}
    {later later' : List (List Char)} (hgap : ∀ g ∈ gap, IsGap g) (hgap' : ∀ g ∈ gap', IsGap g)
    (hword : IsWord word) (hword' : IsWord word')
    (h : gap.toList ++ word :: later = gap'.toList ++ word' :: later') :
    word :: later = word' :: later' := by
  cases gap with
  | none =>
      cases gap' with
      | none => exact h
      | some g =>
          obtain rfl : word = g := (List.cons.inj h).1
          exact absurd (hgap' word rfl) hword.not_isGap
  | some g =>
      cases gap' with
      | none =>
          obtain rfl : g = word' := (List.cons.inj h).1
          exact absurd (hgap g rfl) hword'.not_isGap
      | some g' => exact (List.cons.inj h).2

theorem Packed.unique {lines' : List (List (List Char))} (h : Packed width pending lines)
    (h' : Packed width pending lines') : lines = lines' := by
  induction h generalizing lines' with
  | @last line htrimmed hlen =>
      cases h' with
      | last _ _ => rfl
      | more _ _ hgap _ hbreak _ =>
          exact absurd (prefix_of_break hgap hbreak htrimmed hlen List.prefix_rfl)
            (not_prefix_of_append_cons _ _)
  | @more line word later lines gap htrimmed hlen hgap hword hbreak _ ih =>
      generalize hpending : line ++ gap.toList ++ word :: later = pending at h'
      cases h' with
      | last htrimmed' hlen' =>
          subst hpending
          exact absurd (prefix_of_break hgap hbreak htrimmed' hlen' List.prefix_rfl)
            (not_prefix_of_append_cons _ _)
      | @more line' word' later' lines' gap' htrimmed' hlen' hgap' hword' hbreak' hlater' =>
          have hpre := prefix_of_break hgap' hbreak' htrimmed hlen
            (hpending ▸ List.append_assoc line _ _ ▸ List.prefix_append line _)
          have hpre' := prefix_of_break hgap hbreak htrimmed' hlen'
            (hpending ▸ List.append_assoc line' _ _ ▸ List.prefix_append line' _)
          obtain rfl := hpre.eq_of_length_le hpre'.length_le
          simp only [List.append_assoc, List.append_cancel_left_eq] at hpending
          rw [← gap_inj hgap hgap' hword hword' hpending] at hlater'
          rw [ih hlater']

/-! ## Paragraphs -/

theorem packed_of_solid {p : List Char} (hstart : StartsSolid p) (hend : EndsSolid p)
    (hwidth : 0 < width) (hfits : ∀ word ∈ chunks (spaced p), IsWord word → word.length ≤ width) :
    Packed width (chunks (spaced p)) (linePieces width hwidth true (chunks (spaced p))) := by
  obtain ⟨placed, hlaid⟩ := laid_of_solid hstart hend hwidth
  exact hlaid.packed hfits

end Bindery.Text
