import Bindery.Proofs.Text.Boundary
import Bindery.Proofs.Text.Placement

/-!
# Where two lines meet

The seams of a wrapped paragraph are of three kinds (`Seam`): at a gap, which is
left out or kept as a whole; behind a breakable hyphen; or inside a word longer
than a line, of which the upper line then holds what fits, or less, up to the
last hyphen that fits.

So a chunk that is not longer than a line is never taken apart. It stands whole
in a line, unless it is a gap that is left out between two of them
(`wrap_breaks_at_seams`).
-/

namespace Bindery.Text

open Bindery.Unicode

/-! ## Seams -/

/-- A piece of a word that ends with a hyphen: the last one within the room, with
something else than hyphens before it. -/
structure EndsAtHyphen (room : Nat) (piece rest : List Char) : Prop where
  exists_body : ∃ body, piece = body ++ ['-'] ∧ ∃ c ∈ body, c ≠ '-'
  last : '-' ∉ rest.take (room - piece.length)

/-- What stands between two lines of a text. `through` is the text up to the end of
the upper line, and `gap` is the number of spaces that are left out behind it. -/
inductive Seam (width : Nat) (text upper through : List Char) (gap : Nat) : Prop where
  /-- At a gap of the text. All of it is left out, or none. -/
  | atGap {before run after} : chunks text = before ++ run :: after → IsGap run →
      through ++ List.replicate gap ' ' = before.flatten ++ run → gap = run.length ∨ gap = 0 →
      Seam width text upper through gap
  /-- Behind a breakable hyphen, between two chunks. -/
  | behindHyphen {front rest} : gap = 0 → text = front ++ '-' :: rest → through = front ++ ['-'] →
      Breakable front rest → IsBoundary (chunks text) through.length →
      Seam width text upper through gap
  /-- Inside a chunk longer than the width. The upper line ends with a piece of it,
  and starts with that piece if earlier lines hold some of the chunk. -/
  | inside {before gone piece rest after ahead} : gap = 0 →
      chunks text = before ++ (gone ++ piece ++ rest) :: after →
      width < (gone ++ piece ++ rest).length → piece ≠ [] → rest ≠ [] →
      through = before.flatten ++ gone ++ piece → upper = ahead ++ piece → gone = [] ∨ ahead = [] →
      upper.length = width ∨ EndsAtHyphen (width - ahead.length) piece rest →
      Seam width text upper through gap

variable {width n room : Nat} {start line next rest : List (List Char)}
  {lines : List (List (List Char))} {placed : List (Nat × List Char)}
  {gap : Option (List Char)} {text chunk word done : List Char}

/-- A piece fills the room, or ends at a hyphen. -/
theorem headPiece_fills_or_endsAtHyphen (hroom : room < chunk.length) :
    (headPiece room chunk).length = room
    ∨ EndsAtHyphen room (headPiece room chunk) (chunk.drop (headPiece room chunk).length) := by
  simp only [headPiece]
  split
  · next hcut =>
    right
    obtain ⟨c, hmem, hc⟩ := List.any_eq_true.mp hcut
    obtain ⟨body, hbody⟩ := exists_throughLastHyphen_eq (List.ne_nil_of_mem hmem)
    obtain ⟨later, hlater, hsplit⟩ := exists_throughLastHyphen_append (chunk.take room)
    refine ⟨⟨body, hbody, c, ?_, by simpa using hc⟩, ?_⟩
    · rw [hbody, List.mem_append] at hmem
      refine hmem.resolve_right fun hlast => ?_
      rw [List.mem_singleton.mp hlast] at hc
      simp at hc
    · rw [← List.drop_take]
      generalize throughLastHyphen (chunk.take room) = cut at hsplit
      rw [← hsplit, List.drop_left]
      exact hlater
  · exact Or.inl (List.length_take_of_le (Nat.le_of_lt hroom))

/-- Two words that meet have a breakable hyphen between them. -/
theorem behindHyphen_of_endsSolid {through rest : List Char} (hend : EndsSolid through)
    (hstart : StartsSolid rest) (hmeet : IsBoundary (chunks (through ++ rest)) through.length) :
    ∃ front, through = front ++ ['-'] ∧ Breakable front rest := by
  obtain ⟨c, hc, hsolidc⟩ := hend
  obtain ⟨front, rfl⟩ := List.getLast?_eq_some_iff.mp hc
  obtain ⟨d, hd, hsolidd⟩ := hstart
  obtain ⟨later, rfl⟩ := List.head?_eq_some_iff.mp hd
  rw [List.append_assoc, List.singleton_append, List.length_append, List.length_singleton,
    isBoundary_chunks_iff] at hmeet
  rcases hmeet with hspace | ⟨rfl, hbreak⟩
  · have hneither {c : Char} (hc : isWhiteSpace c = false) : c ≠ ' ' := by
      rintro rfl
      cases hc
    exact absurd (iff_of_false (hneither hsolidc) (hneither hsolidd)) hspace
  · exact ⟨front, rfl, hbreak⟩

/-- A line that ends with a word, and starts the next one with a word, with no gap
in between. -/
theorem seam_of_words (hrem : Remaining (chunks text) done (line ++ word :: rest))
    (htrimmed : Trimmed line) (hword : IsWord word) :
    Seam width text line.flatten (done ++ line.flatten) 0 := by
  obtain ⟨before, hall, hdone⟩ := hrem.exists_whole htrimmed.ne_nil
  have htext : text = (done ++ line.flatten) ++ (word :: rest).flatten := by
    rw [← flatten_chunks text, hall, hdone, List.flatten_append]
  have hmeet : IsBoundary (chunks text) (done ++ line.flatten).length :=
    ⟨before, word :: rest, hall, by rw [hdone]⟩
  obtain ⟨front, hthrough, hbreak⟩ := behindHyphen_of_endsSolid
    (htrimmed.endsSolid.append done) (hword.startsSolid.append rest.flatten) (htext ▸ hmeet)
  refine .behindHyphen rfl ?_ hthrough hbreak hmeet
  rw [htext, hthrough, List.append_assoc]
  rfl

/-- A line that ends with a piece of a word that no line can hold. -/
theorem seam_of_piece (hrem : Remaining (chunks text) done (line ++ word :: rest)) (hword : IsWord word)
    (hroom : line.flatten.length < width) (hbig : width < word.length) :
    Seam width text (line ++ [headPiece (width - line.flatten.length) word]).flatten
      (done ++ (line ++ [headPiece (width - line.flatten.length) word]).flatten) 0 := by
  obtain ⟨before, gone, hall, hdone, hfirst⟩ := hrem.exists_chunk
  have hshort : width - line.flatten.length < word.length :=
    Nat.lt_of_le_of_lt (Nat.sub_le _ _) hbig
  have hpiece := isWord_headPiece hword (Nat.sub_pos_of_lt hroom)
  have hleft := isWord_drop_headPiece hword hshort
  have hcut := headPiece_fills_or_endsAtHyphen hshort
  have hsplit := headPiece_append_drop (width - line.flatten.length) word
  generalize headPiece (width - line.flatten.length) word = piece at *
  generalize word.drop piece.length = left at *
  subst hsplit
  have hall' : chunks text = before ++ (gone ++ piece ++ left) :: rest := by
    rw [hall, List.append_assoc]
  have hlong : width < (gone ++ piece ++ left).length := by
    rw [List.append_assoc, List.length_append]
    exact Nat.lt_add_left _ hbig
  have hline : (line ++ [piece]).flatten = line.flatten ++ piece := by
    rw [List.flatten_append, List.flatten_singleton]
  have hthrough : done ++ (line ++ [piece]).flatten = before.flatten ++ gone ++ piece := by
    rw [hline, ← List.append_assoc, hdone]
  refine .inside rfl hall' hlong hpiece.ne_nil hleft.ne_nil hthrough hline
    (hfirst.imp_right (congrArg List.flatten)) (hcut.imp_left fun hfull => ?_)
  rw [hline, List.length_append, hfull]
  omega

theorem Follows.seam (h : Follows width start line gap next)
    (hrem : Remaining (chunks text) done start) (hspaces : OnlySpaces start.flatten) :
    Seam width text line.flatten (done ++ line.flatten) (gap.getD []).length := by
  have hgap := h.getD_eq_replicate hspaces
  cases h with
  | @between line word rest gap htrimmed _ hisGap hword _ _ =>
      cases gap with
      | some g =>
          have hstart : line ++ (some g).toList ++ word :: rest = line ++ g :: word :: rest := by simp
          rw [hstart] at hrem
          obtain ⟨before, hall, hdone⟩ := hrem.exists_whole htrimmed.ne_nil
          refine .atGap hall (hisGap g rfl) ?_ (Or.inl rfl)
          rw [← hgap, hdone]
          rfl
      | none =>
          rw [Option.toList_none, List.append_nil] at hrem
          exact seam_of_words hrem htrimmed hword
  | @behindGap line gap word rest htrimmed hisGap _ _ _ =>
      obtain ⟨before, hall, hdone⟩ := hrem.exists_whole htrimmed.ne_nil
      refine .atGap hall hisGap ?_ (Or.inr rfl)
      rw [List.flatten_append, List.flatten_singleton, ← List.append_assoc, hdone]
      exact List.append_nil _
  | inside _ hword hroom hbig => exact seam_of_piece hrem hword hroom hbig

/-! ## Whole chunks -/

/-- A chunk with this text before it stands whole in a line. -/
def HeldWhole (placed : List (Nat × List Char)) (before chunk : List Char) : Prop :=
  ∃ above line below ahead behind, placed = above ++ line :: below
    ∧ line.2 = ahead ++ chunk ++ behind
    ∧ padded above ++ List.replicate line.1 ' ' ++ ahead = before

/-- A chunk with this text before it is what is left out between two lines. -/
def LeftOut (placed : List (Nat × List Char)) (before chunk : List Char) : Prop :=
  ∃ above upper lower below, placed = above ++ upper :: lower :: below
    ∧ padded (above ++ [upper]) = before ∧ List.replicate lower.1 ' ' = chunk

variable {before after : List (List Char)}

theorem heldWhole_cons (n : Nat) (h : line = before ++ chunk :: after) :
    HeldWhole ((n, line.flatten) :: placed) (List.replicate n ' ' ++ before.flatten) chunk :=
  ⟨[], _, placed, before.flatten, after.flatten, rfl, by simp [h], rfl⟩

theorem HeldWhole.cons (h : HeldWhole placed done chunk) (n : Nat) (front : List Char) :
    HeldWhole ((n, front) :: placed) (List.replicate n ' ' ++ front ++ done) chunk := by
  obtain ⟨above, line, below, ahead, behind, rfl, hline, hdone⟩ := h
  refine ⟨(n, front) :: above, line, below, ahead, behind, rfl, hline, ?_⟩
  rw [padded_cons, ← hdone]
  simp only [List.append_assoc]

theorem LeftOut.cons (h : LeftOut placed done chunk) (n : Nat) (front : List Char) :
    LeftOut ((n, front) :: placed) (List.replicate n ' ' ++ front ++ done) chunk := by
  obtain ⟨above, upper, lower, below, rfl, hdone, hchunk⟩ := h
  refine ⟨(n, front) :: above, upper, lower, below, rfl, ?_, hchunk⟩
  rw [List.cons_append, padded_cons, hdone]

/-- Where a chunk that fits a line goes: onto the line, between it and the next
one, or on from there. -/
theorem Follows.locate (h : Follows width start line gap next)
    (hstart : start = before ++ chunk :: after) (hfits : chunk.length ≤ width) :
    (∃ behind, line = before ++ chunk :: behind)
    ∨ (gap = some chunk ∧ before.flatten = line.flatten)
    ∨ ∃ ahead, next = ahead ++ chunk :: after
        ∧ before.flatten = line.flatten ++ gap.getD [] ++ ahead.flatten := by
  cases h with
  | @between line word rest gap _ _ _ _ _ _ =>
      rcases left_or_right hstart.symm with ⟨later, hlater⟩ | ⟨ahead, rfl, hnext⟩
      · rcases left_or_right hlater.symm with hline | ⟨ahead, rfl, hgap⟩
        · exact Or.inl hline
        · obtain ⟨rfl, rfl, -⟩ := toList_eq_append_cons hgap
          exact Or.inr (Or.inl ⟨rfl, by rw [List.append_nil]⟩)
      · refine Or.inr (Or.inr ⟨ahead, hnext, ?_⟩)
        cases gap <;> simp
  | @behindGap line gap word rest _ _ _ _ _ =>
      rw [← List.singleton_append, ← List.append_assoc] at hstart
      rcases left_or_right hstart.symm with hline | ⟨ahead, rfl, hnext⟩
      · exact Or.inl hline
      · exact Or.inr (Or.inr ⟨ahead, hnext, by simp⟩)
  | @inside line word rest _ _ _ hbig =>
      have hword := headPiece_append_drop (width - line.flatten.length) word
      generalize headPiece (width - line.flatten.length) word = piece at hword ⊢
      rcases left_or_right hstart.symm with ⟨later, rfl⟩ | ⟨ahead, rfl, hnext⟩
      · exact Or.inl ⟨later ++ [piece], by simp⟩
      · cases ahead with
        | nil =>
            obtain ⟨rfl, -⟩ := List.cons.inj hnext
            exact absurd hfits (Nat.not_le_of_lt hbig)
        | cons first ahead =>
            obtain ⟨rfl, rfl⟩ := List.cons.inj hnext
            refine Or.inr (Or.inr ⟨word.drop piece.length :: ahead, rfl, ?_⟩)
            simp only [List.flatten_append, List.flatten_cons, List.flatten_nil, List.append_nil,
              Option.getD_none, List.append_assoc]
            rw [← List.append_assoc piece, hword]

theorem Laid.heldWhole_or_leftOut (h : Laid width n start lines placed)
    (hspaces : OnlySpaces start.flatten) (hstart : start = before ++ chunk :: after)
    (hfits : chunk.length ≤ width) :
    HeldWhole placed (List.replicate n ' ' ++ before.flatten) chunk
    ∨ IsGap chunk ∧ LeftOut placed (List.replicate n ' ' ++ before.flatten) chunk := by
  induction h generalizing before with
  | last _ _ => exact Or.inl (heldWhole_cons _ hstart)
  | @more n start line next lines placed gap hfollows hlater ih =>
      have hgap := hfollows.getD_eq_replicate hspaces
      rcases hfollows.locate hstart hfits with ⟨behind, hline⟩ | ⟨rfl, hbefore⟩ | ⟨ahead, hnext, hbefore⟩
      · exact Or.inl (heldWhole_cons n hline)
      · obtain ⟨lower, below, rfl⟩ := hlater.exists_cons
        refine Or.inr ⟨hfollows.isGap chunk rfl, [], _, lower, below, rfl, ?_, ?_⟩
        · rw [hbefore, List.nil_append, padded_cons, padded, List.flatMap_nil, List.append_nil]
        · rw [hlater.fst_eq, ← hgap]
          rfl
      · have hdone : List.replicate n ' ' ++ before.flatten = List.replicate n ' ' ++ line.flatten
            ++ (List.replicate (gap.getD []).length ' ' ++ ahead.flatten) := by
          rw [hbefore, ← hgap]
          simp only [List.append_assoc]
        rw [hdone]
        exact (ih (hfollows.onlySpaces hspaces) hnext).imp (·.cons n line.flatten)
          (And.imp_right (·.cons n line.flatten))

/-! ## Paragraphs -/

/-- **Where lines break.** Each seam of a wrapped paragraph is at a gap, behind a
breakable hyphen or inside a chunk longer than the width. A chunk that is not
longer stands whole in a line, unless it is a gap that is left out between two
lines. -/
theorem wrap_breaks_at_seams {text p : String} (hp : p ∈ splitParagraphs text) {width : Nat}
    (hwidth : 0 < width) :
    ∃ placed, IsPlacement (spaced p.toList) (wrap width p.toList) placed
      ∧ (∀ above upper lower below, placed = above ++ upper :: lower :: below →
          Seam width (spaced p.toList) upper.2 (padded (above ++ [upper])) lower.1)
      ∧ ∀ before chunk after, chunks (spaced p.toList) = before ++ chunk :: after →
          chunk.length ≤ width →
          HeldWhole placed before.flatten chunk ∨ IsGap chunk ∧ LeftOut placed before.flatten chunk := by
  obtain ⟨lines, placed, hplaced, hlaid⟩ := exists_laid hp hwidth
  have hspaces := onlySpaces_spaced p.toList
  refine ⟨placed, hplaced, ?_, ?_⟩
  · intro above upper lower below hsplit
    obtain ⟨start, lines', hfrom, hspaces', hrem⟩ := hlaid.exists_in_text hspaces hsplit
    obtain ⟨n, upper⟩ := upper
    cases hfrom with
    | @more _ _ line next _ _ gap hfollows hlater =>
        rw [hlater.fst_eq, padded_concat]
        exact hfollows.seam hrem hspaces'
  · intro before chunk after hchunks hfits
    exact hlaid.heldWhole_or_leftOut (by rwa [flatten_chunks]) hchunks hfits

/-- Each kind of seam once: behind a hyphen, at a gap, and inside a word, of which
the line takes what comes before its hyphen. -/
theorem wrap_breaks_at_seams_hyphens :
    "ee-ff a bb-1dddd" ∈ splitParagraphs "ee-ff a bb-1dddd" ∧ 0 < 4
    ∧ IsPlacement (spaced "ee-ff a bb-1dddd".toList) (wrap 4 "ee-ff a bb-1dddd".toList)
      [(0, "ee-".toList), (0, "ff a".toList), (1, "bb-".toList), (0, "1ddd".toList), (0, "d".toList)]
    ∧ Seam 4 (spaced "ee-ff a bb-1dddd".toList) "ee-".toList "ee-".toList 0
    ∧ Seam 4 (spaced "ee-ff a bb-1dddd".toList) "ff a".toList "ee-ff a".toList 1
    ∧ Seam 4 (spaced "ee-ff a bb-1dddd".toList) "bb-".toList "ee-ff a bb-".toList 0
    ∧ chunks (spaced "ee-ff a bb-1dddd".toList) = ["ee-".toList] ++ "ff".toList ::
      [" ".toList, "a".toList, " ".toList, "bb-1dddd".toList]
    ∧ "ff".toList.length ≤ 4
    ∧ HeldWhole [(0, "ee-".toList), (0, "ff a".toList), (1, "bb-".toList), (0, "1ddd".toList),
      (0, "d".toList)] "ee-".toList "ff".toList := by
  have hp : "ee-ff a bb-1dddd" ∈ splitParagraphs "ee-ff a bb-1dddd" := by decide +kernel
  have hplace : IsPlacement (spaced "ee-ff a bb-1dddd".toList) (wrap 4 "ee-ff a bb-1dddd".toList)
      [(0, "ee-".toList), (0, "ff a".toList), (1, "bb-".toList), (0, "1ddd".toList),
        (0, "d".toList)] := by decide +kernel
  have hchunks : chunks (spaced "ee-ff a bb-1dddd".toList) = ["ee-".toList] ++ "ff".toList ::
      [" ".toList, "a".toList, " ".toList, "bb-1dddd".toList] := by decide +kernel
  have hword : ¬IsGap "ff".toList := fun hgap => absurd hgap.isBlank (by decide)
  obtain ⟨placed, hplaced, hseams, hwhole⟩ := wrap_breaks_at_seams hp (by decide : 0 < 4)
  obtain rfl := hplaced.unique hplace
  refine ⟨hp, by decide, hplace, hseams [] _ _ _ rfl, hseams [(0, "ee-".toList)] _ _ _ rfl,
    hseams [(0, "ee-".toList), (0, "ff a".toList)] _ _ _ rfl, hchunks, by decide, ?_⟩
  exact (hwhole _ _ _ hchunks (by decide)).resolve_right fun hleft => hword hleft.1

/-- A gap of one space is no longer than the width, and in no line. -/
theorem wrap_leaves_gap_out :
    "aaa b" ∈ splitParagraphs "aaa b" ∧ 0 < 4
    ∧ " ".toList ∈ chunks (spaced "aaa b".toList) ∧ " ".toList.length ≤ 4
    ∧ ¬∃ line ∈ wrap 4 "aaa b".toList, " ".toList <:+: line := by
  refine ⟨by decide +kernel, by decide, by decide +kernel, by decide, ?_⟩
  have hwrap : wrap 4 "aaa b".toList = ["aaa".toList, "b".toList] := by decide +kernel
  rw [hwrap]
  rintro ⟨line, hline, hinside⟩
  have hspace : ' ' ∈ line := hinside.subset (by decide)
  have hnone : ∀ line ∈ ["aaa".toList, "b".toList], ' ' ∉ line := by decide
  exact hnone line hline hspace

end Bindery.Text
