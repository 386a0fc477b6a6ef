import Mathlib.Data.List.Chain
import Bindery.Proofs.Text.Occurrence

/-!
# Words and spacing of a text

The words of a text are the pieces between its white space. Whatever stands in
the text without white space is part of a word (`exists_word_of_infix`), so a
bound on words is a bound on all of that.

A text is single spaced if no white space stands next to other white space. A
paragraph is single spaced if its lines are, since a single space joins two of
them (`singleSpaced_of_mem_paragraphs`), and its gaps are then single spaces.
-/

namespace Bindery.Text

open Bindery.Unicode

/-! ## Words -/

/-- The pieces between the white space of a text, in order. -/
def words (text : List Char) : List (List Char) :=
  (text.splitOnP isWhiteSpace).filter (!·.isEmpty)

theorem words_append_cons {c : Char} (hc : isWhiteSpace c = true) (front rest : List Char) :
    words (front ++ c :: rest) = words front ++ words rest := by
  rw [words, List.splitOnP_append_cons front rest hc, List.filter_append, words, words]

theorem words_of_isWord {word : List Char} (h : IsWord word) : words word = [word] := by
  rw [words, List.splitOnP_eq_singleton h.solid, List.filter_singleton,
    List.isEmpty_eq_false_iff.mpr h.ne_nil]
  rfl

/-- What stands in a text without white space is part of a word of it. -/
theorem exists_word_of_infix {pattern text : List Char} (hpattern : IsWord pattern)
    (h : pattern <:+: text) : ∃ word ∈ words text, pattern <:+: word := by
  induction hlen : text.length using Nat.strong_induction_on generalizing text with
  | _ n ih =>
      by_cases hsolid : ∀ c ∈ text, isWhiteSpace c = false
      · have hne : text ≠ [] := by
          rintro rfl
          exact not_infix_nil hpattern h
        refine ⟨text, ?_, h⟩
        rw [words_of_isWord ⟨hne, hsolid⟩]
        exact List.mem_singleton.mpr rfl
      · simp only [not_forall, Bool.not_eq_false] at hsolid
        obtain ⟨c, hmem, hc⟩ := hsolid
        obtain ⟨front, rest, rfl⟩ := List.append_of_mem hmem
        rw [List.length_append, List.length_cons] at hlen
        simp only [words_append_cons hc, List.mem_append, or_and_right, exists_or]
        refine ((infix_append_cons_iff hpattern hc).mp h).imp ?_ ?_
        · exact fun hfront => ih front.length (by omega) hfront rfl
        · exact fun hrest => ih rest.length (by omega) hrest rfl

/-- Where all words fit, so do the chunks of a paragraph, gaps aside. -/
theorem length_le_of_mem_chunks {text p word : List Char} {width : Nat} (hp : p ∈ paragraphs text)
    (hfits : ∀ word ∈ words text, word.length ≤ width) (hmem : word ∈ chunks (spaced p))
    (hword : IsWord word) : word.length ≤ width := by
  have hinside : word <:+: spaced p := by
    rw [← flatten_chunks (spaced p)]
    exact List.infix_of_mem_flatten hmem
  obtain ⟨whole, hwhole, hpart⟩ := exists_word_of_infix hword
    (infix_of_infix_paragraph hword hp (infix_of_infix_spaced hword hinside))
  exact Nat.le_trans hpart.length_le (hfits whole hwhole)

/-! ## Single spacing -/

/-- No white space next to other white space. -/
def SingleSpaced (text : List Char) : Prop :=
  text.IsChain fun c d => ¬(isWhiteSpace c = true ∧ isWhiteSpace d = true)

instance (text : List Char) : Decidable (SingleSpaced text) :=
  inferInstanceAs (Decidable (text.IsChain _))

theorem singleSpaced_spaced {text : List Char} : SingleSpaced (spaced text) ↔ SingleSpaced text := by
  simp only [SingleSpaced, spaced, List.isChain_map, isWhiteSpace_spaced]

theorem SingleSpaced.append_space {front rest : List Char} (hfront : SingleSpaced front)
    (hrest : SingleSpaced rest) (hend : EndsSolid front) (hstart : StartsSolid rest) :
    SingleSpaced (front ++ ' ' :: rest) := by
  obtain ⟨c, hc, hsolidc⟩ := hend
  obtain ⟨d, hd, hsolidd⟩ := hstart
  refine List.isChain_append.mpr ⟨hfront, List.isChain_cons.mpr ⟨?_, hrest⟩, ?_⟩
  · intro e he
    obtain rfl := Option.some.inj (hd.symm.trans he)
    rintro ⟨-, hblank⟩
    cases hblank.symm.trans hsolidd
  · intro e he space _
    obtain rfl := Option.some.inj (hc.symm.trans he)
    rintro ⟨hblank, -⟩
    cases hblank.symm.trans hsolidc

theorem singleSpaced_intercalate {lines : List (List Char)}
    (h : ∀ line ∈ lines, SingleSpaced line ∧ StartsSolid line ∧ EndsSolid line) :
    SingleSpaced (List.intercalate [' '] lines) := by
  induction lines with
  | nil => exact List.isChain_nil
  | cons line lines ih =>
      obtain ⟨⟨hline, -, hend⟩, hmore⟩ := List.forall_mem_cons.mp h
      cases lines with
      | nil => rwa [List.intercalate_singleton]
      | cons next lines =>
          have hstart := startsSolid_intercalate lines (hmore next List.mem_cons_self).2.1
          rw [List.intercalate_cons_cons, List.append_assoc, List.singleton_append]
          exact hline.append_space (ih hmore) hend hstart

theorem singleSpaced_of_mem_paragraphs {text p : List Char}
    (h : ∀ line ∈ trimmedLines text, SingleSpaced line) (hp : p ∈ paragraphs text) :
    SingleSpaced p := by
  obtain ⟨group, hgroup, rfl⟩ := List.mem_map.mp hp
  refine singleSpaced_intercalate fun line hline => ?_
  obtain ⟨hmem, hne⟩ := (of_mem_lineGroups hgroup).2 line hline
  exact ⟨h line hmem, solid_of_mem_trimmedLines hmem hne⟩

theorem length_le_one_of_isGap {text gap : List Char} (h : SingleSpaced text)
    (hgap : IsGap gap) (hinside : gap <:+: text) : gap.length ≤ 1 := by
  match gap with
  | [] | [_] => simp
  | c :: d :: gap =>
      have hchain := h.infix hinside
      have hpair := (List.isChain_cons_cons.mp hchain).1
      exact absurd ⟨hgap.blank c (by simp), hgap.blank d (by simp)⟩ hpair

end Bindery.Text
