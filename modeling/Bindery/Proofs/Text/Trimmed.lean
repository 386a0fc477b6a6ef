import Mathlib.Data.List.Infix
import Bindery.Proofs.Text.Wrap

/-!
# Lines between two words

A line without its blank chunks starts and ends with a word (`Trimmed`). Where the
chunks are in order, dropping one blank chunk at each end is enough for that, and
between the words of a line and the next word there is at most one gap, on
whichever side of the break (`Orderly.exists_break`).
-/

namespace Bindery.Text

open Bindery.Unicode

/-- Words at both ends. -/
structure Trimmed (line : List (List Char)) : Prop where
  head_isWord : ∃ word ∈ line.head?, IsWord word
  last_isWord : ∃ word ∈ line.getLast?, IsWord word

namespace Trimmed

variable {line : List (List Char)}

theorem ne_nil (h : Trimmed line) : line ≠ [] := ne_nil_of_head_isWord h.head_isWord

theorem startsSolid (h : Trimmed line) : StartsSolid line.flatten :=
  startsSolid_flatten h.head_isWord

theorem endsSolid (h : Trimmed line) : EndsSolid line.flatten := endsSolid_flatten h.last_isWord

theorem dropBlankHead_append (h : Trimmed line) (more : List (List Char)) :
    dropBlankHead (line ++ more) = line ++ more := by
  obtain ⟨word, hmem, hword⟩ := h.head_isWord
  obtain ⟨later, rfl⟩ := List.head?_eq_some_iff.mp hmem
  rw [List.cons_append, dropBlankHead, hword.isBlank]
  rfl

theorem dropBlankHead_eq (h : Trimmed line) : dropBlankHead line = line := by
  simpa using h.dropBlankHead_append []

theorem dropBlankLast_eq (h : Trimmed line) : dropBlankLast line = line := by
  obtain ⟨word, hmem, hword⟩ := h.last_isWord
  obtain ⟨front, rfl⟩ := List.getLast?_eq_some_iff.mp hmem
  rw [dropBlankLast_concat, hword.isBlank]
  rfl

end Trimmed

variable {width : Nat} {line pending rest taken : List (List Char)} {chunk : List Char}

/-! ## Blanks at the ends -/

theorem dropBlankHead_of_isBlank (h : isBlank chunk = true) : dropBlankHead (chunk :: rest) = rest := by
  rw [dropBlankHead, if_pos h]

theorem dropBlankHead_suffix (pending : List (List Char)) : dropBlankHead pending <:+ pending := by
  cases pending with
  | nil => exact List.suffix_rfl
  | cons chunk rest =>
      rw [dropBlankHead]
      split
      · exact List.suffix_cons chunk rest
      · exact List.suffix_rfl

theorem isBlank_sublist {part : List Char} (h : isBlank chunk = true) (hsub : part.Sublist chunk) :
    isBlank part = true :=
  isBlank_iff.mpr fun c hc => isBlank_iff.mp h c (hsub.subset hc)

theorem length_dropBlankLast_le (line : List (List Char)) :
    (dropBlankLast line).flatten.length ≤ line.flatten.length := by
  obtain ⟨blank, _, hline⟩ := exists_dropBlankLast_append line
  rw [← hline, List.length_append]
  exact Nat.le_add_right _ _

theorem Orderly.trimmed (horder : Orderly line) (hhead : ∃ word ∈ line.head?, IsWord word) :
    Trimmed line := by
  obtain ⟨front, last, rfl⟩ :=
    (List.eq_nil_or_concat' line).resolve_left (ne_nil_of_head_isWord hhead)
  exact ⟨hhead, last, List.getLast?_concat, horder.getLast_isWord⟩

/-! ## Where a line ends -/

theorem ne_nil_of_gap_behind {gap : List Char}
    (hhead : ∃ word ∈ (taken ++ gap :: rest).head?, IsWord word) (hgap : IsGap gap) : taken ≠ [] := by
  rintro rfl
  obtain ⟨word, hmem, hword⟩ := hhead
  obtain rfl : gap = word := Option.some.inj hmem
  exact absurd hgap hword.not_isGap

/-- In front of a gap stands a word. -/
theorem Orderly.last_isWord_of_gap {gap : List Char} (h : Orderly (taken ++ gap :: rest))
    (hgap : IsGap gap) (hne : taken ≠ []) : ∃ word ∈ taken.getLast?, IsWord word := by
  obtain ⟨front, last, rfl⟩ := (List.eq_nil_or_concat' taken).resolve_left hne
  rw [List.append_assoc] at h
  cases h.of_append with
  | word hlast _ => exact ⟨last, by simp, hlast⟩
  | gap _ hword _ => exact absurd hgap hword.not_isGap

/-- Between the words of a line and the next word there is at most one gap,
whether it has been taken or not. -/
theorem Orderly.exists_break (h : Orderly (taken ++ chunk :: rest))
    (hhead : ∃ word ∈ taken.head?, IsWord word) :
    ∃ gap word later, Trimmed (dropBlankLast taken) ∧ (∀ g ∈ gap, IsGap g) ∧ IsWord word
      ∧ taken ++ chunk :: rest = dropBlankLast taken ++ Option.toList gap ++ word :: later
      ∧ dropBlankHead (chunk :: rest) = word :: later
      ∧ taken ++ [chunk] <+: dropBlankLast taken ++ Option.toList gap ++ [word] := by
  have hdropped := dropBlankLast_head_isWord hhead
  obtain ⟨front, last, rfl⟩ :=
    (List.eq_nil_or_concat' taken).resolve_left (ne_nil_of_head_isWord hhead)
  have hsplit := h
  rw [List.append_assoc] at hsplit
  rw [dropBlankLast_concat] at hdropped ⊢
  cases hsplit.of_append with
  | word hlast hrest =>
      rw [hlast.isBlank, if_neg Bool.false_ne_true] at hdropped ⊢
      have htrimmed : Trimmed (front ++ [last]) := ⟨hdropped, last, by simp, hlast⟩
      cases hrest with
      | word hchunk _ =>
          exact ⟨none, chunk, rest, htrimmed, nofun, hchunk, by simp,
            by rw [dropBlankHead, hchunk.isBlank]; rfl, by simp⟩
      | @gap _ word later hchunk hword _ =>
          refine ⟨some chunk, word, later, htrimmed, ?_, hword, by simp,
            by rw [dropBlankHead, hchunk.isBlank]; rfl, by simp⟩
          rintro g ⟨⟩
          exact hchunk
  | gap hlast hchunk _ =>
      rw [hlast.isBlank, if_pos rfl] at hdropped ⊢
      have hfront := hsplit.last_isWord_of_gap hlast (ne_nil_of_head_isWord hdropped)
      refine ⟨some last, chunk, rest, ⟨hdropped, hfront⟩, ?_,
        hchunk, by simp, by rw [dropBlankHead, hchunk.isBlank]; rfl, by simp⟩
      rintro g ⟨⟩
      exact hlast

/-! ## Paragraphs -/

/-- Where no blank chunk is in front, a line is made alike at the beginning and later. -/
theorem nextLine_eq {first : Bool} (hfirst : first = true → ∃ word ∈ pending.head?, IsWord word) :
    nextLine width first pending =
      (dropBlankLast (fillBreaking width (dropBlankHead pending)).1,
        (fillBreaking width (dropBlankHead pending)).2) := by
  cases first with
  | false => rfl
  | true =>
      obtain ⟨word, hmem, hword⟩ := hfirst rfl
      obtain ⟨more, rfl⟩ := List.head?_eq_some_iff.mp hmem
      rw [nextLine, if_pos rfl, dropBlankHead, hword.isBlank, if_neg Bool.false_ne_true]

theorem trimmed_chunks {text : List Char} (hstart : StartsSolid text) (hend : EndsSolid text)
    (hspaces : OnlySpaces text) : Trimmed (chunks text) := by
  have horder : Orderly (chunks text) := orderly_chunks hspaces fun _ => hend
  have hflatten := flatten_chunks text
  cases hchunks : chunks text with
  | nil =>
      rw [hchunks] at hflatten
      exact absurd hflatten.symm hstart.ne_nil
  | cons first more =>
      rw [hchunks] at horder hflatten
      exact horder.trimmed ⟨first, rfl, horder.head_isWord (hflatten ▸ hstart) first rfl⟩

theorem wrap_eq (hwidth : 0 < width) (p : List Char) :
    wrap width p = (linePieces width hwidth true (chunks (spaced p))).map List.flatten := by
  simp only [wrap, Nat.max_eq_left hwidth]

end Bindery.Text
