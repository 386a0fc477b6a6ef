import Bindery.Proofs.Text.Placement

/-!
# Lines that end with spaces

A line ends with spaces in one case only: it is full, and the next one starts
with a chunk that no line can hold (`Follows.of_not_endsSolid`). Such a chunk
gets the room that is left, which is none, and so it keeps the gap before it
from being dropped. Where a gap fills a line up in front of such a chunk, this
is what happens (`Follows.eq_of_fills`): the line takes what is before the gap,
since all of it fits, then the gap, and nothing more.
-/

namespace Bindery.Text

open Bindery.Unicode

variable {width : Nat} {start line next front after rest later : List (List Char)}
  {gap : Option (List Char)} {run chunk word : List Char}

/-! ## One line -/

/-- A line that does not end solid is full, and a word longer than any line is next. -/
theorem Follows.of_not_endsSolid (h : Follows width start line gap next)
    (hend : ¬EndsSolid line.flatten) : line.flatten.length = width ∧ gap = none
      ∧ ∃ word rest, start = line ++ word :: rest ∧ IsWord word ∧ width < word.length := by
  cases h with
  | between htrimmed _ _ _ _ _ => exact absurd htrimmed.endsSolid hend
  | @behindGap line gap word rest _ _ hword hfull hbig =>
      exact ⟨hfull, rfl, word, rest, by simp, hword, hbig⟩
  | @inside line word rest _ hword hroom hbig =>
      have hpiece := isWord_headPiece hword (Nat.sub_pos_of_lt hroom)
      refine absurd ?_ hend
      rw [List.flatten_append, List.flatten_singleton]
      exact hpiece.endsSolid.append line.flatten

/-- A line that reaches the end of a gap that fills it up ends there. -/
theorem eq_concat_of_fills (hline : line = front ++ run :: later)
    (hstart : line ++ rest = front ++ run :: chunk :: after) (hlen : line.flatten.length ≤ width)
    (hfills : (front ++ [run]).flatten.length = width) (hbig : width < chunk.length) :
    line = front ++ [run] := by
  subst hline
  cases later with
  | nil => rfl
  | cons first later =>
      obtain ⟨rfl, -⟩ : first = chunk ∧ later ++ rest = after := by simpa using hstart
      simp only [List.flatten_append, List.flatten_cons, List.flatten_nil, List.append_nil,
        List.length_append] at hlen hfills
      omega

/-- A word in a row is not a gap, so it comes before one. -/
theorem length_le_of_gap_behind (hfront : front = line ++ later)
    (hnext : word :: rest = later ++ run :: after) (hword : IsWord word) (hrun : IsGap run) :
    line.flatten.length + word.length ≤ front.flatten.length := by
  cases later with
  | nil =>
      obtain ⟨rfl, -⟩ := List.cons.inj hnext
      exact absurd hrun hword.not_isGap
  | cons first later =>
      obtain ⟨rfl, -⟩ := List.cons.inj hnext
      rw [hfront, List.flatten_append, List.length_append, List.flatten_cons, List.length_append]
      omega

/-- **A gap that fills a line up is kept** in front of a chunk longer than the line. -/
theorem Follows.eq_of_fills (h : Follows width start line gap next)
    (hstart : start = front ++ run :: chunk :: after) (hrun : IsGap run)
    (hfills : (front ++ [run]).flatten.length = width) (hbig : width < chunk.length) :
    line = front ++ [run] := by
  have hfront : front.flatten.length ≤ width := by
    rw [← hfills, List.flatten_append, List.length_append]
    exact Nat.le_add_right _ _
  cases h with
  | @between line word rest gap _ hlen _ hword hlt hshort =>
      rcases left_or_right hstart.symm with ⟨later, hlater⟩ | ⟨earlier, hearlier, hnext⟩
      · rcases left_or_right hlater.symm with ⟨later', hline⟩ | ⟨earlier, rfl, hgap⟩
        · rw [List.append_assoc] at hstart
          exact eq_concat_of_fills hline hstart hlen hfills hbig
        · -- The gap is what is left out, though it fits and leaves no room for the word.
          obtain ⟨rfl, rfl, rfl⟩ := toList_eq_append_cons hgap
          obtain ⟨rfl, -⟩ : word = chunk ∧ rest = after := by simpa using hstart
          have hroom := hshort run rfl hbig
          simp only [List.flatten_append, List.append_nil, List.length_append,
            List.flatten_singleton] at hfills
          omega
      · have hle := length_le_of_gap_behind hearlier hnext hword hrun
        rw [List.flatten_append, List.flatten_singleton, List.length_append] at hlt
        omega
  | @behindGap line gap word rest _ _ hword hlen hword' =>
      rw [← List.singleton_append, ← List.append_assoc] at hstart
      rcases left_or_right hstart.symm with ⟨later, hline⟩ | ⟨earlier, hearlier, hnext⟩
      · exact eq_concat_of_fills hline hstart (Nat.le_of_eq hlen) hfills hbig
      · have hle := length_le_of_gap_behind hearlier hnext hword hrun
        omega
  | @inside line word rest _ hword hlen hword' =>
      rcases left_or_right hstart.symm with ⟨later, hline⟩ | ⟨earlier, hearlier, hnext⟩
      · have hfull := eq_concat_of_fills hline hstart (Nat.le_of_lt hlen) hfills hbig
        rw [hfull, hfills] at hlen
        exact absurd hlen (Nat.lt_irrefl width)
      · have hle := length_le_of_gap_behind hearlier hnext hword hrun
        omega

/-! ## A run -/

/-- Right behind this text begins a word of it that is longer than the width. -/
def LongWordBehind (width : Nat) (text through : List Char) : Prop :=
  ∃ before word after, chunks text = before ++ word :: after ∧ before.flatten = through
    ∧ IsWord word ∧ width < word.length

namespace Laid

variable {n : Nat} {lines : List (List (List Char))} {now : Nat × List Char}
  {below : List (Nat × List Char)} {text done : List Char}

theorem of_not_endsSolid (h : Laid width n start lines (now :: below))
    (hrem : Remaining (chunks text) done start) (hend : ¬EndsSolid now.2) :
    now.2.length = width ∧ ∃ lower more, below = lower :: more ∧ lower.1 = 0
      ∧ LongWordBehind width text (done ++ now.2) := by
  cases h with
  | last htrimmed _ => exact absurd htrimmed.endsSolid hend
  | more hfollows hlater =>
      obtain ⟨hfull, rfl, word, rest, rfl, hword, hbig⟩ := hfollows.of_not_endsSolid hend
      obtain ⟨before, hall, hdone⟩ := hrem.exists_whole (ne_nil_of_head_isWord hfollows.head_isWord)
      obtain ⟨lower, more, rfl⟩ := hlater.exists_cons
      exact ⟨hfull, lower, more, rfl, hlater.fst_eq, before, word, rest, hall, hdone.symm, hword, hbig⟩

theorem eq_of_fills (h : Laid width n start lines (now :: below))
    (hstart : start = front ++ run :: chunk :: after) (hrun : IsGap run)
    (hfills : (front ++ [run]).flatten.length = width) (hbig : width < chunk.length) :
    now.2 = (front ++ [run]).flatten := by
  cases h with
  | last _ hlen =>
      subst hstart
      simp only [List.flatten_append, List.flatten_cons, List.length_append] at hlen
      omega
  | more hfollows _ => exact congrArg List.flatten (hfollows.eq_of_fills hstart hrun hfills hbig)

/-! ## A text -/

variable {above : List (Nat × List Char)} {before : List (List Char)}

/-- A line that does not end solid, and what is behind it in the text. -/
theorem longWordBehind (h : Laid width 0 (chunks text) lines placed) (hspaces : OnlySpaces text)
    (hplaced : placed = above ++ now :: below) (hend : ¬EndsSolid now.2) :
    now.2.length = width ∧ ∃ lower more, below = lower :: more ∧ lower.1 = 0
      ∧ LongWordBehind width text (padded (above ++ [now])) := by
  obtain ⟨start, lines', hfrom, -, hrem⟩ := h.exists_in_text hspaces hplaced
  rw [padded_concat]
  exact hfrom.of_not_endsSolid hrem hend

theorem endsSolid_of_mem (h : Laid width 0 (chunks text) lines placed) (hspaces : OnlySpaces text)
    (hfits : ∀ word ∈ chunks text, IsWord word → word.length ≤ width) :
    ∀ line ∈ placed, EndsSolid line.2 := by
  intro line hline
  obtain ⟨above, below, hplaced⟩ := List.append_of_mem hline
  by_contra hend
  obtain ⟨-, lower, more, -, -, before, word, after, hchunks, -, hword, hbig⟩ :=
    h.longWordBehind hspaces hplaced hend
  have hmem : word ∈ chunks text := by
    rw [hchunks]
    exact List.mem_append_right before List.mem_cons_self
  exact absurd (hfits word hmem hword) (Nat.not_le_of_lt hbig)

/-- A gap of the text that starts on a line, fills it up, and has a chunk longer
than the width behind it. -/
theorem ends_with_gap (h : Laid width 0 (chunks text) lines placed) (hspaces : OnlySpaces text)
    (hplaced : placed = above ++ now :: below) (hchunks : chunks text = before ++ run :: chunk :: after)
    (hrun : IsGap run) (hbig : width < chunk.length)
    (hstarts : (padded above ++ List.replicate now.1 ' ').length ≤ before.flatten.length)
    (hfills : (before.flatten ++ run).length =
      (padded above ++ List.replicate now.1 ' ').length + width) :
    padded (above ++ [now]) = before.flatten ++ run ∧ run <:+ now.2 := by
  obtain ⟨start, lines', hfrom, -, hrem⟩ := h.exists_in_text hspaces hplaced
  obtain ⟨front, hstart, hfront⟩ := hrem.exists_front hchunks hrun.ne_nil hstarts
  have hwidth : (front ++ [run]).flatten.length = width := by
    have hlen := congrArg List.length hfront
    simp only [List.flatten_append, List.flatten_singleton, List.length_append] at hlen hfills ⊢
    omega
  have hline := hfrom.eq_of_fills hstart hrun hwidth hbig
  rw [List.flatten_append, List.flatten_singleton] at hline
  rw [padded_concat, hline, ← List.append_assoc, hfront]
  exact ⟨rfl, List.suffix_append _ _⟩

end Laid

/-! ## Paragraphs -/

theorem not_endsSolid_of_getLast? {line : List Char} (h : line.getLast? = some ' ') :
    ¬EndsSolid line := by
  rintro ⟨c, hc, hsolid⟩
  obtain rfl := Option.some.inj (h.symm.trans hc)
  cases hsolid

/-- **How lines end.** A line of a paragraph ends with a space only if it is full and
a chunk longer than the width starts the next one; so if only gaps are that long,
every line starts and ends solid. The other way round, a gap before a chunk
longer than the width that fills up the line it stands on ends that line. -/
theorem wrap_line_ends {text p : String} (hp : p ∈ splitParagraphs text) {width : Nat}
    (hwidth : 0 < width) :
    ∃ placed, IsPlacement (spaced p.toList) (wrap width p.toList) placed
      ∧ (∀ above line below, placed = above ++ line :: below → line.2.getLast? = some ' ' →
          line.2.length = width ∧ ∃ lower more, below = lower :: more ∧ lower.1 = 0
            ∧ LongWordBehind width (spaced p.toList) (padded (above ++ [line])))
      ∧ ((∀ chunk ∈ chunks (spaced p.toList), isBlank chunk = false → chunk.length ≤ width) →
          ∀ line ∈ wrap width p.toList, StartsSolid line ∧ EndsSolid line)
      ∧ ∀ above line below before run chunk after, placed = above ++ line :: below →
          chunks (spaced p.toList) = before ++ run :: chunk :: after → IsGap run →
          width < chunk.length →
          (padded above ++ List.replicate line.1 ' ').length ≤ before.flatten.length →
          (before.flatten ++ run).length =
            (padded above ++ List.replicate line.1 ' ').length + width →
          padded (above ++ [line]) = before.flatten ++ run ∧ run <:+ line.2 := by
  obtain ⟨lines, placed, hplaced, hlaid⟩ := exists_laid hp hwidth
  have hspaces := onlySpaces_spaced p.toList
  refine ⟨placed, hplaced, ?_, ?_, ?_⟩
  · intro above line below hsplit hspace
    exact hlaid.longWordBehind hspaces hsplit (not_endsSolid_of_getLast? hspace)
  · intro hfits line hline
    rw [← hplaced.map_snd] at hline
    obtain ⟨entry, hentry, rfl⟩ := List.mem_map.mp hline
    refine ⟨hplaced.startsSolid entry hentry, hlaid.endsSolid_of_mem hspaces ?_ entry hentry⟩
    exact fun word hmem hword => hfits word hmem hword.isBlank
  · intro above line below before run chunk after hsplit hchunks hrun hbig hstarts hfills
    exact hlaid.ends_with_gap hspaces hsplit hchunks hrun hbig hstarts hfills

/-- Two spaces fill up the first line and stay on it, in front of a word of six
characters; where all words fit, no line ends with a space. -/
theorem wrap_line_ends_full_line :
    "aa  bbbbbb" ∈ splitParagraphs "aa  bbbbbb" ∧ 0 < 4
    ∧ IsPlacement (spaced "aa  bbbbbb".toList) (wrap 4 "aa  bbbbbb".toList)
      [(0, "aa  ".toList), (0, "bbbb".toList), (0, "bb".toList)]
    ∧ "aa  ".toList.getLast? = some ' ' ∧ "aa  ".toList.length = 4
    ∧ LongWordBehind 4 (spaced "aa  bbbbbb".toList) "aa  ".toList
    ∧ IsGap "  ".toList ∧ "  ".toList <:+ "aa  ".toList
    ∧ "aa b" ∈ splitParagraphs "aa b"
    ∧ (∀ chunk ∈ chunks (spaced "aa b".toList), isBlank chunk = false → chunk.length ≤ 3)
    ∧ "aa".toList ∈ wrap 3 "aa b".toList ∧ EndsSolid "aa".toList := by
  have hp : "aa  bbbbbb" ∈ splitParagraphs "aa  bbbbbb" := by decide +kernel
  have hplace : IsPlacement (spaced "aa  bbbbbb".toList) (wrap 4 "aa  bbbbbb".toList)
      [(0, "aa  ".toList), (0, "bbbb".toList), (0, "bb".toList)] := by decide +kernel
  have hchunks : chunks (spaced "aa  bbbbbb".toList) =
      ["aa".toList] ++ "  ".toList :: "bbbbbb".toList :: [] := by decide +kernel
  have hgap : IsGap "  ".toList := ⟨by decide, isBlank_iff.mp (by decide)⟩
  obtain ⟨placed, hplaced, hends, -, hfills⟩ := wrap_line_ends hp (by decide : 0 < 4)
  obtain rfl := hplaced.unique hplace
  obtain ⟨hlen, lower, more, -, -, hbehind⟩ := hends [] _ _ rfl (by decide)
  obtain ⟨-, hkept⟩ := hfills [] _ _ _ _ _ _ rfl hchunks hgap (by decide) (by decide) (by decide)
  have hq : "aa b" ∈ splitParagraphs "aa b" := by decide +kernel
  have hfits : ∀ chunk ∈ chunks (spaced "aa b".toList), isBlank chunk = false → chunk.length ≤ 3 := by
    decide +kernel
  have hline : "aa".toList ∈ wrap 3 "aa b".toList := by decide +kernel
  obtain ⟨_, -, -, hsolid, -⟩ := wrap_line_ends hq (by decide : 0 < 3)
  exact ⟨hp, by decide, hplace, by decide, hlen, hbehind, hgap, hkept, hq, hfits, hline,
    (hsolid hfits _ hline).2⟩

end Bindery.Text
