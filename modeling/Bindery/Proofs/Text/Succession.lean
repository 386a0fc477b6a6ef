import Bindery.Proofs.Text.Recovery
import Bindery.Proofs.Text.Trimmed

/-!
# How one line follows another

Lines told by where they end. A line ends where the next word does not fit any
more, behind a gap that fills it up in front of a word that no line can hold, or
inside such a word (`Follows`). In the first case the gap in between, if there
is one, is left out; in the others nothing is.

A run of lines (`Laid`) goes from the chunks of a text to its lines, each with
the number of spaces that are left out before it. Wrapping makes such runs
(`laid_linePieces`), whatever it does with gaps on the way: gaps that fit at the
end of a line, gaps that do not fit, and gaps that no line could hold, of which
it leaves a piece behind.
-/

namespace Bindery.Text

open Bindery.Unicode

/-! ## Lines -/

/-- From the chunks at the start of a line: the line, the gap that is left out
behind it, and the chunks at the start of the next one. -/
inductive Follows (width : Nat) : List (List Char) → List (List Char) → Option (List Char) →
    List (List Char) → Prop where
  | between {line word rest} {gap : Option (List Char)} : Trimmed line →
      line.flatten.length ≤ width → (∀ g ∈ gap, IsGap g) → IsWord word →
      width < (line ++ gap.toList ++ [word]).flatten.length →
      (∀ g ∈ gap, width < word.length → width < line.flatten.length + g.length) →
      Follows width (line ++ gap.toList ++ word :: rest) line gap (word :: rest)
  | behindGap {line gap word rest} : Trimmed line → IsGap gap → IsWord word →
      (line ++ [gap]).flatten.length = width → width < word.length →
      Follows width (line ++ gap :: word :: rest) (line ++ [gap]) none (word :: rest)
  | inside {line word rest} : (∀ first ∈ line.head?, IsWord first) → IsWord word →
      line.flatten.length < width → width < word.length →
      Follows width (line ++ word :: rest)
        (line ++ [headPiece (width - line.flatten.length) word]) none
        (word.drop (headPiece (width - line.flatten.length) word).length :: rest)

/-- Lines one after another, as pieces and as text. With the text of each line
stands the number of spaces that are left out before it; `n` is that of the
first one. -/
inductive Laid (width : Nat) : Nat → List (List Char) → List (List (List Char)) →
    List (Nat × List Char) → Prop where
  | last {n line} : Trimmed line → line.flatten.length ≤ width →
      Laid width n line [line] [(n, line.flatten)]
  | more {n start line next lines placed} {gap : Option (List Char)} :
      Follows width start line gap next → Laid width (gap.getD []).length next lines placed →
      Laid width n start (line :: lines) ((n, line.flatten) :: placed)

variable {width n : Nat} {start pending line rest next taken : List (List Char)}
  {lines : List (List (List Char))} {placed : List (Nat × List Char)} {gap : Option (List Char)}
  {chunk word : List Char}

/-! ## One line -/

namespace Follows

theorem ne_nil (h : Follows width start line gap next) : start ≠ [] := by
  cases h <;> exact List.append_ne_nil_of_right_ne_nil _ (List.cons_ne_nil _ _)

/-- What is left out is a gap, and nothing else is lost. -/
theorem flatten_eq (h : Follows width start line gap next) :
    start.flatten = line.flatten ++ gap.getD [] ++ next.flatten := by
  cases h with
  | @between _ word rest _ => cases gap <;> simp
  | behindGap _ _ _ _ _ => simp
  | @inside line word rest _ _ _ _ =>
      have hword := headPiece_append_drop (width - line.flatten.length) word
      simp only [List.flatten_append, List.flatten_cons, List.flatten_nil, List.append_nil,
        Option.getD_none, List.append_assoc]
      rw [← List.append_assoc (headPiece _ _), hword]

theorem isGap (h : Follows width start line gap next) : ∀ g ∈ gap, IsGap g := by
  cases h with
  | between _ _ hgap _ _ _ => exact hgap
  | behindGap _ _ _ _ _ => exact nofun
  | inside _ _ _ _ => exact nofun

theorem head_isWord (h : Follows width start line gap next) : ∃ word ∈ line.head?, IsWord word := by
  cases h with
  | between htrimmed _ _ _ _ _ => exact htrimmed.head_isWord
  | @behindGap line gap _ _ htrimmed _ _ _ _ =>
      rw [List.head?_append_of_ne_nil _ htrimmed.ne_nil]
      exact htrimmed.head_isWord
  | @inside line word _ hfirst hword hroom _ =>
      cases line with
      | nil => exact ⟨_, rfl, isWord_headPiece hword (Nat.sub_pos_of_lt hroom)⟩
      | cons first line => exact ⟨first, rfl, hfirst first rfl⟩

end Follows

/-- A line ends where the next chunk does not fit. A word too long for any line
does not come right behind a gap here. -/
theorem follows_of_break (horder : Orderly (taken ++ chunk :: rest))
    (hhead : ∃ word ∈ taken.head?, IsWord word) (hlen : taken.flatten.length ≤ width)
    (hlt : width < taken.flatten.length + chunk.length)
    (hshort : ∀ last ∈ taken.getLast?, IsGap last → chunk.length ≤ width) :
    ∃ gap, Follows width (taken ++ chunk :: rest) (dropBlankLast taken) gap
      (dropBlankHead (chunk :: rest)) := by
  obtain ⟨gap, word, later, htrimmed, hgap, hword, hpending, hrest, hpre⟩ := horder.exists_break hhead
  refine ⟨gap, ?_⟩
  rw [hpending, hrest]
  refine .between htrimmed (Nat.le_trans (length_dropBlankLast_le taken) hlen) hgap hword ?_ ?_
  · refine Nat.lt_of_lt_of_le ?_ hpre.flatten.length_le
    simpa using hlt
  · intro g hg hbig
    obtain rfl : gap = some g := hg
    rcases horder.of_append.isWord_or_isGap with hchunk | hchunk
    · -- The gap is the last chunk of the line, and the word the one that does not fit.
      rw [dropBlankHead, hchunk.isBlank] at hrest
      obtain ⟨rfl, rfl⟩ := List.cons.inj hrest
      have htaken : taken = dropBlankLast taken ++ [g] := List.append_cancel_right hpending
      have hlast : g ∈ taken.getLast? := by
        rw [htaken]
        exact List.getLast?_concat
      exact absurd (hshort g hlast (hgap g rfl)) (Nat.not_le_of_lt hbig)
    · rw [dropBlankHead_of_isBlank hchunk.isBlank] at hrest
      have hboth : taken ++ [chunk] = dropBlankLast taken ++ [g] := by
        refine (List.append_left_inj (word :: later)).mp ?_
        rw [List.append_assoc, List.singleton_append, ← hrest, hpending, hrest]
        rfl
      have hlengths := congrArg (fun line => line.flatten.length) hboth
      simp only [List.flatten_append, List.length_append, List.flatten_singleton] at hlengths
      omega

theorem follows_of_broken_gap (horder : Orderly (taken ++ chunk :: rest))
    (hhead : ∃ word ∈ taken.head?, IsWord word) (hlen : taken.flatten.length ≤ width)
    (hbig : width < chunk.length) (hchunk : IsGap chunk) (room : Nat) :
    ∃ gap, Follows width (taken ++ chunk :: rest) (dropBlankLast (taken ++ [headPiece room chunk])) gap
      (dropBlankHead (chunk.drop (headPiece room chunk).length :: rest)) := by
  have hlast := horder.last_isWord_of_gap hchunk (ne_nil_of_head_isWord hhead)
  have hpiece := isBlank_sublist hchunk.isBlank (headPiece_prefix_self room chunk).sublist
  have hleft := isBlank_sublist hchunk.isBlank (List.drop_sublist (headPiece room chunk).length chunk)
  -- Both parts of the gap are dropped, which leaves what dropping it as a whole would.
  have hkept : dropBlankLast taken = taken := Trimmed.dropBlankLast_eq ⟨hhead, hlast⟩
  rw [dropBlankLast_concat, if_pos hpiece, dropBlankHead_of_isBlank hleft]
  have hbreak := follows_of_break horder hhead hlen (Nat.lt_add_left _ hbig) ?_
  · rwa [hkept, dropBlankHead_of_isBlank hchunk.isBlank] at hbreak
  · intro last hmem hgap
    obtain ⟨word, hword, hsolid⟩ := hlast
    obtain rfl := Option.some.inj (hword.symm.trans hmem)
    exact absurd hgap hsolid.not_isGap

/-- A line that is full in front of a word too long for any line. -/
theorem follows_of_full (horder : Orderly (taken ++ word :: rest))
    (hhead : ∃ word ∈ taken.head?, IsWord word) (hlen : taken.flatten.length = width)
    (hbig : width < word.length) (hword : IsWord word) :
    ∃ gap, Follows width (taken ++ word :: rest) taken gap (word :: rest) := by
  obtain ⟨front, last, rfl⟩ :=
    (List.eq_nil_or_concat' taken).resolve_left (ne_nil_of_head_isWord hhead)
  have hsplit : Orderly (front ++ last :: word :: rest) := by simpa using horder
  rcases hsplit.of_append.isWord_or_isGap with hlast | hlast
  · have hkept : dropBlankLast (front ++ [last]) = front ++ [last] := by
      rw [dropBlankLast_concat, hlast.isBlank]
      rfl
    have hsame : dropBlankHead (word :: rest) = word :: rest := by
      rw [dropBlankHead, hword.isBlank]
      rfl
    have hbreak := follows_of_break horder hhead (Nat.le_of_eq hlen) (Nat.lt_add_left _ hbig) ?_
    · rwa [hkept, hsame] at hbreak
    · intro last' hmem hgap
      obtain rfl := Option.some.inj (List.getLast?_concat.symm.trans hmem)
      exact absurd hgap hlast.not_isGap
  · have hfront : front ≠ [] := ne_nil_of_gap_behind hhead hlast
    rw [List.head?_append_of_ne_nil _ hfront] at hhead
    refine ⟨none, ?_⟩
    rw [List.append_assoc]
    exact .behindGap ⟨hhead, hsplit.last_isWord_of_gap hlast hfront⟩ hlast hword hlen hbig

/-- What a word too long for any line leaves on this one. If there is no room, its
piece is empty, and the last chunk before it stays on the line. -/
theorem follows_of_broken_word (horder : Orderly (taken ++ word :: rest))
    (hhead : taken ≠ [] → ∃ first ∈ taken.head?, IsWord first) (hwidth : 0 < width)
    (hlen : taken.flatten.length ≤ width) (hbig : width < word.length) (hword : IsWord word) :
    ∃ gap, Follows width (taken ++ word :: rest)
      (dropBlankLast (taken ++ [headPiece (width - taken.flatten.length) word])) gap
      (dropBlankHead (word.drop (headPiece (width - taken.flatten.length) word).length :: rest)) := by
  rcases Nat.lt_or_eq_of_le hlen with hroom | hfull
  · have hshort : width - taken.flatten.length < word.length :=
      Nat.lt_of_le_of_lt (Nat.sub_le _ _) hbig
    have hpiece := isWord_headPiece hword (Nat.sub_pos_of_lt hroom)
    have hleft := isWord_drop_headPiece hword hshort
    rw [dropBlankLast_concat, hpiece.isBlank, dropBlankHead, hleft.isBlank]
    refine ⟨none, .inside (fun first hmem => ?_) hword hroom hbig⟩
    obtain ⟨first', hmem', hfirst⟩ := hhead fun hnil => by simp [hnil] at hmem
    obtain rfl := Option.some.inj (hmem.symm.trans hmem')
    exact hfirst
  · have hnil : headPiece (width - taken.flatten.length) word = [] := by
      refine List.length_eq_zero_iff.mp (Nat.le_zero.mp ?_)
      rw [hfull, Nat.sub_self]
      exact length_headPiece_le 0 word
    have hne : taken ≠ [] := by
      rintro rfl
      rw [List.flatten_nil, List.length_nil] at hfull
      omega
    rw [hnil, dropBlankLast_concat, List.length_nil, List.drop_zero, dropBlankHead, hword.isBlank]
    exact follows_of_full horder (hhead hne) hfull hbig hword

/-- A filled line, without the blank chunks at its end and behind it. -/
theorem Filled.follows (h : Filled width start line rest) (hwidth : 0 < width)
    (horder : Orderly start) (hhead : ∃ word ∈ start.head?, IsWord word) (hrest : rest ≠ []) :
    ∃ gap, Follows width start (dropBlankLast line) gap (dropBlankHead rest) := by
  cases h with
  | all _ => exact absurd rfl hrest
  | @full _ chunk later hlen hsmall hlt =>
      have hne : line ≠ [] := by
        rintro rfl
        rw [List.flatten_nil, List.length_nil, Nat.zero_add] at hlt
        exact Nat.lt_irrefl _ (Nat.lt_of_lt_of_le hlt hsmall)
      rw [List.head?_append_of_ne_nil _ hne] at hhead
      exact follows_of_break horder hhead hlen hlt fun _ _ _ => hsmall
  | @broken taken chunk later hlen hbig =>
      have hfirst : taken ≠ [] → ∃ word ∈ taken.head?, IsWord word := fun hne => by
        rwa [List.head?_append_of_ne_nil _ hne] at hhead
      rcases horder.of_append.isWord_or_isGap with hword | hgap
      · exact follows_of_broken_word horder hfirst hwidth hlen hbig hword
      · have hne := ne_nil_of_gap_behind hhead hgap
        exact follows_of_broken_gap horder (hfirst hne) hlen hbig hgap _

/-! ## A run -/

/-- Wrapping lays its lines one after another. -/
theorem laid_linePieces (hwidth : 0 < width) (first : Bool) (horder : Orderly pending)
    (hne : pending ≠ []) (hfirst : first = true → ∃ word ∈ pending.head?, IsWord word) (n : Nat) :
    ∃ placed, Laid width n (dropBlankHead pending) (linePieces width hwidth first pending) placed := by
  fun_induction linePieces width hwidth first pending generalizing n with
  | case1 => exact absurd rfl hne
  | case2 first chunk rest step hempty _ =>
      have hstep : LineStep width (chunk :: rest) step.1 step.2 :=
        lineStep_nextLine hwidth horder hne hfirst
      exact absurd (List.isEmpty_iff.mp hempty) (ne_nil_of_head_isWord hstep.head_isWord)
  | case3 first chunk rest step hempty ih =>
      obtain ⟨hhead, hstart⟩ := dropBlankHead_orderly horder hne
      have hfilled := filled_fillBreaking width (dropBlankHead (chunk :: rest))
      have hstep : step = _ := nextLine_eq hfirst
      rw [hstep] at ih ⊢
      by_cases hrest : (fillBreaking width (dropBlankHead (chunk :: rest))).2 = []
      · have hlen := hfilled.length_le
        have htrimmed := hstart.trimmed hhead
        rw [hfilled.eq_of_rest_eq_nil hrest] at hlen ⊢
        rw [hrest, linePieces, htrimmed.dropBlankLast_eq]
        exact ⟨_, .last htrimmed hlen⟩
      · obtain ⟨gap, hfollows⟩ := hfilled.follows hwidth hstart hhead hrest
        obtain ⟨placed, hlaid⟩ := ih (hfilled.orderly hstart) hrest (absurd · Bool.false_ne_true)
          (gap.getD []).length
        exact ⟨_, .more hfollows hlaid⟩

theorem laid_of_solid {p : List Char} (hstart : StartsSolid p) (hend : EndsSolid p)
    (hwidth : 0 < width) : ∃ placed,
      Laid width 0 (chunks (spaced p)) (linePieces width hwidth true (chunks (spaced p))) placed := by
  have hspaces := onlySpaces_spaced p
  have htrimmed := trimmed_chunks (startsSolid_spaced.mpr hstart) (endsSolid_spaced.mpr hend) hspaces
  have horder := orderly_chunks hspaces fun _ => endsSolid_spaced.mpr hend
  obtain ⟨placed, hlaid⟩ := laid_linePieces hwidth true horder htrimmed.ne_nil
    (fun _ => htrimmed.head_isWord) 0
  rw [htrimmed.dropBlankHead_eq] at hlaid
  exact ⟨placed, hlaid⟩

namespace Laid

theorem ne_nil (h : Laid width n start lines placed) : start ≠ [] := by
  cases h with
  | last htrimmed _ => exact htrimmed.ne_nil
  | more hfollows _ => exact hfollows.ne_nil

theorem exists_cons (h : Laid width n start lines placed) :
    ∃ now below, placed = now :: below := by
  cases h with
  | last _ _ => exact ⟨_, _, rfl⟩
  | more _ _ => exact ⟨_, _, rfl⟩

theorem map_snd (h : Laid width n start lines placed) :
    placed.map Prod.snd = lines.map List.flatten := by
  induction h with
  | last _ _ => rfl
  | more _ _ ih => exact congrArg (_ :: ·) ih

theorem startsSolid (h : Laid width n start lines placed) : ∀ line ∈ placed, StartsSolid line.2 := by
  induction h with
  | last htrimmed _ => exact List.forall_mem_singleton.mpr htrimmed.startsSolid
  | more hfollows _ ih =>
      exact List.forall_mem_cons.mpr ⟨startsSolid_flatten hfollows.head_isWord, ih⟩

end Laid

theorem Follows.onlySpaces (h : Follows width start line gap next)
    (hspaces : OnlySpaces start.flatten) : OnlySpaces next.flatten := by
  rw [h.flatten_eq, onlySpaces_append] at hspaces
  exact hspaces.2

/-- What is left out are spaces. -/
theorem Follows.getD_eq_replicate (h : Follows width start line gap next)
    (hspaces : OnlySpaces start.flatten) :
    gap.getD [] = List.replicate (gap.getD []).length ' ' := by
  rw [h.flatten_eq, onlySpaces_append, onlySpaces_append] at hspaces
  refine eq_replicate_of_isBlank hspaces.1.2 ?_
  cases gap with
  | none => rfl
  | some g => exact (h.isGap g rfl).isBlank

theorem Laid.padded_eq (h : Laid width n start lines placed) (hspaces : OnlySpaces start.flatten) :
    padded placed = List.replicate n ' ' ++ start.flatten := by
  induction h with
  | last _ _ => rw [padded_cons, padded, List.flatMap_nil, List.append_nil]
  | more hfollows _ ih =>
      rw [padded_cons, ih (hfollows.onlySpaces hspaces), ← hfollows.getD_eq_replicate hspaces,
        hfollows.flatten_eq]
      simp only [List.append_assoc]

end Bindery.Text
