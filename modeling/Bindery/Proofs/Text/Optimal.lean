import Mathlib.Data.List.Infix
import Bindery.Proofs.Text.Packing
import Bindery.Proofs.Text.Paragraph

/-!
# Greedy wrapping is best

Where every word fits a line, no other way to cut the chunks of a paragraph
into lines needs fewer of them, and none gets further with its first lines
(`wrap_isOptimal`). A layout may cut between any two chunks; blank chunks at
the ends of a group do not count.

The greedy lines stay ahead of every layout (`Packed.stays_ahead`): if what is
left for them is an end of what is left for the layout, this is still so after
one more line and one more group. A group that reached past the line would hold
it whole, with the word that did not fit behind it.
-/

namespace Bindery.Text

open Bindery.Unicode

variable {width : Nat} {pending line : List (List Char)}
  {lines groups : List (List (List Char))} {word : List Char}

/-! ## Layouts -/

/-- The chunks of a group without a blank one at either end. -/
def trimGroup (group : List (List Char)) : List (List Char) := dropBlankLast (dropBlankHead group)

def groupText (group : List (List Char)) : List Char := (trimGroup group).flatten

structure FitsLine (width : Nat) (group : List (List Char)) : Prop where
  ne_nil : groupText group ≠ []
  length_le : (groupText group).length ≤ width

instance (width : Nat) (group : List (List Char)) : Decidable (FitsLine width group) :=
  decidable_of_iff (groupText group ≠ [] ∧ (groupText group).length ≤ width)
    ⟨fun h => ⟨h.1, h.2⟩, fun h => ⟨h.ne_nil, h.length_le⟩⟩

/-- A way to cut chunks into consecutive groups, one for each line. -/
structure IsLayout (width : Nat) (pending : List (List Char)) (groups : List (List (List Char))) :
    Prop where
  flatten_eq : groups.flatten = pending
  fits : ∀ group ∈ groups, FitsLine width group

instance (width : Nat) (pending : List (List Char)) (groups : List (List (List Char))) :
    Decidable (IsLayout width pending groups) :=
  decidable_of_iff (groups.flatten = pending ∧ ∀ group ∈ groups, FitsLine width group)
    ⟨fun h => ⟨h.1, h.2⟩, fun h => ⟨h.flatten_eq, h.fits⟩⟩

/-- How many chunks are not blank. -/
def wordCount (pending : List (List Char)) : Nat := pending.countP (!isBlank ·)

theorem wordCount_append (front rest : List (List Char)) :
    wordCount (front ++ rest) = wordCount front + wordCount rest := List.countP_append

theorem wordCount_take_add_drop (groups : List (List (List Char))) (k : Nat) :
    wordCount (groups.take k).flatten + wordCount (groups.drop k).flatten =
      wordCount groups.flatten := by
  rw [← wordCount_append, ← List.flatten_append, List.take_append_drop]

theorem wordCount_dropBlankHead (pending : List (List Char)) :
    wordCount (dropBlankHead pending) = wordCount pending := by
  cases pending with
  | nil => rfl
  | cons chunk rest =>
      rw [dropBlankHead]
      split
      · next h => exact (List.countP_cons_of_neg (by simp [h])).symm
      · rfl

theorem wordCount_trimGroup (group : List (List Char)) :
    wordCount (trimGroup group) = wordCount group := by
  have hreverse (line : List (List Char)) : wordCount line.reverse = wordCount line :=
    List.countP_reverse
  rw [trimGroup, dropBlankLast, hreverse, wordCount_dropBlankHead, hreverse, wordCount_dropBlankHead]

theorem wordCount_flatten_map_trimGroup (groups : List (List (List Char))) :
    wordCount (groups.map trimGroup).flatten = wordCount groups.flatten := by
  induction groups with
  | nil => rfl
  | cons group groups ih =>
      rw [List.map_cons, List.flatten_cons, List.flatten_cons, wordCount_append, wordCount_append,
        wordCount_trimGroup, ih]

/-! ## Packed lines are a layout -/

theorem trimGroup_append_gap (h : Trimmed line) {gap : Option (List Char)}
    (hgap : ∀ g ∈ gap, IsGap g) : trimGroup (line ++ gap.toList) = line := by
  rw [trimGroup, h.dropBlankHead_append]
  cases gap with
  | none =>
      rw [Option.toList_none, List.append_nil]
      exact h.dropBlankLast_eq
  | some g =>
      rw [Option.toList_some, dropBlankLast_concat, if_pos (hgap g rfl).isBlank]

theorem fitsLine_append_gap (h : Trimmed line) (hlen : line.flatten.length ≤ width)
    {gap : Option (List Char)} (hgap : ∀ g ∈ gap, IsGap g) :
    FitsLine width (line ++ gap.toList) where
  ne_nil := by
    rw [groupText, trimGroup_append_gap h hgap]
    exact h.startsSolid.ne_nil
  length_le := by rwa [groupText, trimGroup_append_gap h hgap]

/-- Each gap between two lines goes to the upper one. -/
theorem Packed.exists_layout (h : Packed width pending lines) :
    ∃ groups, IsLayout width pending groups ∧ groups.map trimGroup = lines := by
  induction h with
  | @last line htrimmed hlen =>
      have hgap : ∀ g ∈ (none : Option (List Char)), IsGap g := nofun
      refine ⟨[line ++ Option.toList none], ⟨by simp, ?_⟩, ?_⟩
      · exact List.forall_mem_singleton.mpr (fitsLine_append_gap htrimmed hlen hgap)
      · rw [List.map_singleton, trimGroup_append_gap htrimmed hgap]
  | @more line word rest lines gap htrimmed hlen hgap _ _ _ ih =>
      obtain ⟨groups, ⟨hflatten, hfits⟩, hmap⟩ := ih
      refine ⟨(line ++ gap.toList) :: groups, ⟨?_, ?_⟩, ?_⟩
      · rw [List.flatten_cons, hflatten]
      · exact List.forall_mem_cons.mpr ⟨fitsLine_append_gap htrimmed hlen hgap, hfits⟩
      · rw [List.map_cons, trimGroup_append_gap htrimmed hgap, hmap]

/-! ## Staying ahead -/

theorem dropBlankHead_append_of_ne_nil {group : List (List Char)} (hne : group ≠ [])
    (rest : List (List Char)) : dropBlankHead (group ++ rest) = dropBlankHead group ++ rest := by
  obtain ⟨chunk, group, rfl⟩ := List.exists_cons_of_ne_nil hne
  rw [List.cons_append, dropBlankHead, dropBlankHead]
  split <;> rfl

/-- What starts with a word does not lose its head to trimming. -/
theorem suffix_dropBlankHead {later : List (List Char)} (hword : IsWord word)
    (h : word :: later <:+ pending) : word :: later <:+ dropBlankHead pending := by
  obtain ⟨front, rfl⟩ := h
  cases front with
  | nil =>
      rw [List.nil_append, dropBlankHead, hword.isBlank]
      exact List.suffix_rfl
  | cons chunk front =>
      rw [dropBlankHead_append_of_ne_nil (List.cons_ne_nil chunk front)]
      exact List.suffix_append _ _

theorem concat_prefix_dropBlankLast (front : List (List Char)) (hword : IsWord word)
    (later : List (List Char)) : front ++ [word] <+: dropBlankLast (front ++ word :: later) := by
  rcases List.eq_nil_or_concat' later with rfl | ⟨later, last, rfl⟩
  · rw [dropBlankLast_concat, hword.isBlank]
    exact List.prefix_rfl
  · rw [← List.cons_append, ← List.append_assoc, dropBlankLast_concat]
    split
    · exact ⟨later, by simp⟩
    · exact ⟨later ++ [last], by simp⟩

/-- What is left after a line is an end of what is left after a group, if this
was so before. -/
theorem suffix_of_fitsLine {group more later : List (List Char)} {gap : Option (List Char)}
    (hword : IsWord word) (hbreak : width < (line ++ gap.toList ++ [word]).flatten.length)
    (hgroup : FitsLine width group)
    (hbehind : line ++ gap.toList ++ word :: later <:+ dropBlankHead (group ++ more)) :
    word :: later <:+ more := by
  have hne : group ≠ [] := by
    rintro rfl
    exact hgroup.ne_nil rfl
  rw [dropBlankHead_append_of_ne_nil hne] at hbehind
  have hlater := (List.suffix_append (line ++ gap.toList) (word :: later)).trans hbehind
  rcases List.suffix_or_suffix_of_suffix hlater (List.suffix_append _ more) with hle | ⟨held, hheld⟩
  · exact hle
  · cases held with
    | nil => exact hheld ▸ List.suffix_rfl
    | cons first held =>
        -- The group holds the line and the word that does not fit with it.
        obtain ⟨rfl, rfl⟩ := List.cons.inj hheld
        obtain ⟨front, hfront⟩ := hbehind
        have hgroup_eq : front ++ (line ++ gap.toList) ++ first :: held = dropBlankHead group := by
          refine (List.append_left_inj more).mp ?_
          simpa using hfront
        have hpre := concat_prefix_dropBlankLast (front ++ (line ++ gap.toList)) hword held
        rw [hgroup_eq] at hpre
        have hlong := hpre.flatten.length_le
        have hfits : (dropBlankLast (dropBlankHead group)).flatten.length ≤ width := hgroup.length_le
        rw [List.append_assoc, List.flatten_append, List.length_append] at hlong
        omega

theorem Packed.flatten_sublist (h : Packed width pending lines) : lines.flatten.Sublist pending := by
  induction h with
  | last _ _ => rw [List.flatten_singleton]
  | @more line word rest lines gap _ _ _ _ _ _ ih =>
      rw [List.flatten_cons, List.append_assoc]
      exact (ih.trans (List.sublist_append_right _ _)).append_left line

theorem wordCount_le_of_behind (h : Packed width pending lines)
    (hbehind : pending <:+ dropBlankHead groups.flatten) :
    wordCount lines.flatten ≤ wordCount groups.flatten :=
  (h.flatten_sublist.trans (hbehind.trans (dropBlankHead_suffix _)).sublist).countP_le

/-- **Packed lines stay ahead of every layout.** After each line there is no more
left than after as many groups. -/
theorem Packed.stays_ahead (h : Packed width pending lines)
    (hfits : ∀ group ∈ groups, FitsLine width group)
    (hbehind : pending <:+ dropBlankHead groups.flatten) :
    lines.length ≤ groups.length
    ∧ ∀ k, wordCount (lines.drop k).flatten ≤ wordCount (groups.drop k).flatten := by
  have hpacked := h
  induction h generalizing groups with
  | @last line htrimmed _ =>
      cases groups with
      | nil => exact absurd (List.suffix_nil.mp hbehind) htrimmed.ne_nil
      | cons group more =>
          refine ⟨by simp, fun k => ?_⟩
          cases k with
          | zero => exact wordCount_le_of_behind hpacked hbehind
          | succ k => simp [wordCount]
  | @more line word rest lines gap htrimmed hlen hgap hword hbreak hrest ih =>
      cases groups with
      | nil =>
          have hnil := List.suffix_nil.mp hbehind
          simp at hnil
      | cons group more =>
          obtain ⟨hgroup, hmore⟩ := List.forall_mem_cons.mp hfits
          have hnext := suffix_dropBlankHead hword (suffix_of_fitsLine hword hbreak hgroup hbehind)
          obtain ⟨hlength, hcount⟩ := ih hmore hnext hrest
          refine ⟨Nat.succ_le_succ hlength, fun k => ?_⟩
          cases k with
          | zero => exact wordCount_le_of_behind hpacked hbehind
          | succ k => exact hcount k

/-! ## Paragraphs -/

/-- **Wrapping is best.** Where no chunk of a paragraph but a blank one is longer
than the width, the lines are the groups of a layout; no layout has fewer
groups, and none covers more chunks that are not blank with its first ones. -/
theorem wrap_isOptimal {text p : String} (hp : p ∈ splitParagraphs text) {width : Nat}
    (hwidth : 0 < width)
    (hfits : ∀ chunk ∈ chunks (spaced p.toList), isBlank chunk = false → chunk.length ≤ width) :
    ∃ groups, IsLayout width (chunks (spaced p.toList)) groups
      ∧ wrap width p.toList = groups.map groupText
      ∧ ∀ other, IsLayout width (chunks (spaced p.toList)) other →
          groups.length ≤ other.length
          ∧ ∀ k, wordCount (other.take k).flatten ≤ wordCount (groups.take k).flatten := by
  obtain ⟨p, hmem, rfl⟩ := List.mem_map.mp hp
  rw [String.toList_ofList] at hfits ⊢
  have hpacked := packed_of_solid (startsSolid_of_mem_paragraphs hmem)
    (endsSolid_of_mem_paragraphs hmem) hwidth fun word hword h => hfits word hword h.isBlank
  have hstart := hpacked.trimmed.dropBlankHead_eq
  obtain ⟨groups, hlayout, hlines⟩ := hpacked.exists_layout
  refine ⟨groups, hlayout, ?_, fun other hother => ?_⟩
  · rw [wrap_eq hwidth, ← hlines, List.map_map]
    rfl
  · obtain ⟨hlength, hahead⟩ := hpacked.stays_ahead hother.fits <| by
      rw [hother.flatten_eq, hstart]
    rw [← hlines] at hlength hahead
    refine ⟨by rwa [List.length_map] at hlength, fun k => ?_⟩
    have hleft := hahead k
    rw [← List.map_drop, wordCount_flatten_map_trimGroup] at hleft
    have hgroups := wordCount_take_add_drop groups k
    have hothers := wordCount_take_add_drop other k
    rw [hlayout.flatten_eq] at hgroups
    rw [hother.flatten_eq] at hothers
    omega

/-- A layout that breaks at the hyphen, and leaves the gap that no line could
hold to the lower group, has as many groups and gets less far. -/
theorem wrap_isOptimal_hyphen :
    "ab-cd ef          g" ∈ splitParagraphs "ab-cd ef          g" ∧ 0 < 5
    ∧ (∀ chunk ∈ chunks (spaced "ab-cd ef          g".toList),
        isBlank chunk = false → chunk.length ≤ 5)
    ∧ IsLayout 5 (chunks (spaced "ab-cd ef          g".toList))
        [["ab-".toList], ["cd".toList, " ".toList, "ef".toList], ["          ".toList, "g".toList]]
    ∧ ∃ groups : List (List (List Char)),
        ["ab-cd".toList, "ef".toList, "g".toList] = groups.map groupText
        ∧ groups.length ≤ 3 ∧ wordCount ["ab-".toList] ≤ wordCount (groups.take 1).flatten := by
  have hp : "ab-cd ef          g" ∈ splitParagraphs "ab-cd ef          g" := by decide +kernel
  have hfits : ∀ chunk ∈ chunks (spaced "ab-cd ef          g".toList),
      isBlank chunk = false → chunk.length ≤ 5 := by decide +kernel
  have hlayout : IsLayout 5 (chunks (spaced "ab-cd ef          g".toList))
      [["ab-".toList], ["cd".toList, " ".toList, "ef".toList],
        ["          ".toList, "g".toList]] := by decide +kernel
  have hwrap : wrap 5 "ab-cd ef          g".toList =
      ["ab-cd".toList, "ef".toList, "g".toList] := by decide +kernel
  obtain ⟨groups, -, hlines, hbest⟩ := wrap_isOptimal hp (by decide : 0 < 5) hfits
  obtain ⟨hlength, hcount⟩ := hbest _ hlayout
  exact ⟨hp, by decide, hfits, hlayout, groups, hwrap.symm.trans hlines, hlength, hcount 1⟩

end Bindery.Text
