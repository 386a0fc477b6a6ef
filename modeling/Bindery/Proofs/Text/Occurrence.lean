import Mathlib.Data.List.Infix
import Bindery.Proofs.Text.Paragraph
import Bindery.Proofs.Text.Wrap

/-!
# Patterns in a text

Where a pattern without white space occurs. No occurrence reaches across white
space, so joining texts with blanks makes no new one
(`infix_intercalate_iff`). Trimming, splitting, wrapping and breaking words cut
the text, and none of them brings two characters together that stood apart: a
pattern in a paragraph, or in a line of it, is in the text
(`infix_of_infix_paragraph`, `infix_of_infix_line`).
-/

namespace Bindery.Text

open Bindery.Unicode

/-- The pattern stands in the text from character `i` on. -/
def OccursAt (pattern text : List Char) (i : Nat) : Prop := pattern <+: text.drop i

theorem infix_iff_exists_occursAt {pattern text : List Char} :
    pattern <:+: text ↔ ∃ i, OccursAt pattern text i := by
  constructor
  · rintro ⟨front, rest, rfl⟩
    refine ⟨front.length, rest, ?_⟩
    rw [List.append_assoc, List.drop_left]
  · rintro ⟨i, h⟩
    exact h.isInfix.trans (List.drop_suffix i text).isInfix

/-- Blanks at both ends. -/
structure BlankEnds (text : List Char) : Prop where
  ne_nil : text ≠ []
  starts : ¬StartsSolid text
  ends : ¬EndsSolid text

theorem blankEnds_of_eq {text front blank rest : List Char} {c : Char} (hcons : text = c :: rest)
    (hc : isWhiteSpace c = true) (hconcat : text = front ++ blank) (hne : blank ≠ [])
    (hblank : isBlank blank = true) : BlankEnds text where
  ne_nil := hcons ▸ List.cons_ne_nil c rest
  starts := by rw [hcons, startsSolid_cons, Bool.not_eq_false, hc]
  ends := hconcat ▸ not_endsSolid_append front hne hblank

section Pattern

variable {pattern : List Char} (hword : IsWord pattern)

include hword

theorem not_occursAt_of_length_le {text : List Char} {i : Nat} (h : text.length ≤ i) :
    ¬OccursAt pattern text i := by
  intro hat
  rw [OccursAt, List.drop_eq_nil_iff.mpr h, List.prefix_nil] at hat
  exact hword.ne_nil hat

theorem not_infix_nil : ¬pattern <:+: [] := fun h => hword.ne_nil (List.infix_nil.mp h)

theorem occursAt_self_iff {i : Nat} : OccursAt pattern pattern i ↔ i = 0 := by
  constructor
  · intro h
    have hlen := h.length_le
    have hpos := List.length_pos_iff.mpr hword.ne_nil
    rw [List.length_drop] at hlen
    omega
  · rintro rfl
    exact List.prefix_rfl

/-! ## Across white space -/

theorem prefix_append_cons_iff {front rest : List Char} {c : Char} (hc : isWhiteSpace c = true) :
    pattern <+: front ++ c :: rest ↔ pattern <+: front := by
  refine ⟨fun h => ?_, fun h => h.trans (List.prefix_append front _)⟩
  rcases List.prefix_or_prefix_of_prefix h (List.prefix_append front (c :: rest)) with hle | ⟨more, rfl⟩
  · exact hle
  · have hmore : more <+: c :: rest := (List.prefix_append_right_inj front).mp h
    cases more with
    | nil => exact (List.append_nil front).symm ▸ List.prefix_rfl
    | cons d more =>
        obtain rfl : d = c := (List.cons_prefix_cons.mp hmore).1
        cases (hword.solid d (List.mem_append_right front List.mem_cons_self)).symm.trans hc

theorem occursAt_append_cons_iff {front rest : List Char} {c : Char} (hc : isWhiteSpace c = true)
    {i : Nat} : OccursAt pattern (front ++ c :: rest) i ↔
      OccursAt pattern front i ∨ ∃ j, i = front.length + 1 + j ∧ OccursAt pattern rest j := by
  rcases Nat.lt_or_ge front.length i with hlt | hle
  · obtain ⟨j, rfl⟩ := Nat.exists_eq_add_of_le hlt
    have hdrop : (front ++ c :: rest).drop (front.length + 1 + j) = rest.drop j := by
      rw [Nat.add_assoc, ← List.drop_drop, List.drop_left, Nat.add_comm 1 j, List.drop_succ_cons]
    have hpast := not_occursAt_of_length_le hword (Nat.le_of_lt hlt)
    rw [OccursAt, hdrop, or_iff_right hpast]
    refine ⟨fun h => ⟨j, rfl, h⟩, ?_⟩
    rintro ⟨k, hk, h⟩
    obtain rfl : j = k := by omega
    exact h
  · rw [OccursAt, List.drop_append_of_le_length hle, prefix_append_cons_iff hword hc, OccursAt]
    refine ⟨Or.inl, fun h => h.resolve_right ?_⟩
    rintro ⟨j, rfl, _⟩
    omega

theorem infix_append_cons_iff {front rest : List Char} {c : Char} (hc : isWhiteSpace c = true) :
    pattern <:+: front ++ c :: rest ↔ pattern <:+: front ∨ pattern <:+: rest := by
  simp only [infix_iff_exists_occursAt, occursAt_append_cons_iff hword hc]
  constructor
  · rintro ⟨i, h | ⟨j, _, h⟩⟩
    · exact Or.inl ⟨i, h⟩
    · exact Or.inr ⟨j, h⟩
  · rintro (⟨i, h⟩ | ⟨j, h⟩)
    · exact ⟨i, Or.inl h⟩
    · exact ⟨_, Or.inr ⟨j, rfl, h⟩⟩

theorem infix_blank_append_iff {blank rest : List Char} (hblank : isBlank blank = true) :
    pattern <:+: blank ++ rest ↔ pattern <:+: rest := by
  induction blank with
  | nil => exact Iff.rfl
  | cons c blank ih =>
      rw [isBlank_cons, Bool.and_eq_true] at hblank
      rw [← ih hblank.2, List.cons_append, ← List.nil_append (c :: _),
        infix_append_cons_iff hword hblank.1, or_iff_right (not_infix_nil hword)]

theorem not_infix_of_isBlank {blank : List Char} (hblank : isBlank blank = true) :
    ¬pattern <:+: blank := by
  rw [← List.append_nil blank, infix_blank_append_iff hword hblank]
  exact not_infix_nil hword

theorem infix_append_blank_iff {front blank : List Char} (hblank : isBlank blank = true) :
    pattern <:+: front ++ blank ↔ pattern <:+: front := by
  cases blank with
  | nil => rw [List.append_nil]
  | cons c blank =>
      rw [isBlank_cons, Bool.and_eq_true] at hblank
      rw [infix_append_cons_iff hword hblank.1, or_iff_left (not_infix_of_isBlank hword hblank.2)]

theorem infix_intercalate_iff {sep : List Char} {lines : List (List Char)}
    (hsep : isBlank sep = true) (hne : sep ≠ []) :
    pattern <:+: List.intercalate sep lines ↔ ∃ line ∈ lines, pattern <:+: line := by
  obtain ⟨c, sep, rfl⟩ := List.exists_cons_of_ne_nil hne
  rw [isBlank_cons, Bool.and_eq_true] at hsep
  induction lines with
  | nil => simp [not_infix_nil hword]
  | cons line lines ih =>
      cases lines with
      | nil => simp
      | cons next lines =>
          rw [List.intercalate_cons_cons, List.append_assoc, List.cons_append,
            infix_append_cons_iff hword hsep.1, infix_blank_append_iff hword hsep.2, ih]
          simp only [List.mem_cons, exists_eq_or_imp]

/-! ## Between two marks -/

/-- A text with blanks at both ends, and without the pattern, adds no
occurrence to those in the marks around it. -/
theorem occursAt_enclosed_iff {opening body closing : List Char} (hends : BlankEnds body)
    (hbody : ¬pattern <:+: body) {i : Nat} :
    OccursAt pattern (opening ++ body ++ closing) i ↔
      OccursAt pattern opening i
        ∨ ∃ j, i = (opening ++ body).length + j ∧ OccursAt pattern closing j := by
  obtain ⟨hne, hstart, hend⟩ := hends
  obtain ⟨c, body, rfl⟩ := List.exists_cons_of_ne_nil hne
  rw [startsSolid_cons, Bool.not_eq_false] at hstart
  rw [List.append_assoc, List.cons_append, occursAt_append_cons_iff hword hstart]
  refine or_congr_right ?_
  rcases List.eq_nil_or_concat body with rfl | ⟨front, d, rfl⟩
  · simp
  · rw [List.concat_eq_append] at hend hbody ⊢
    have hd : isWhiteSpace d = true := by
      refine (Bool.not_eq_false _).mp fun hsolid => hend ?_
      rw [← List.cons_append]
      exact ⟨d, List.getLast?_concat, hsolid⟩
    have hfront : ∀ j, ¬OccursAt pattern front j := by
      intro j hj
      have hinside : pattern <:+: front := infix_iff_exists_occursAt.mpr ⟨j, hj⟩
      exact hbody (hinside.trans (List.infix_cons (List.prefix_append front [d]).isInfix))
    simp only [List.append_assoc, List.singleton_append, occursAt_append_cons_iff hword hd, hfront,
      false_or]
    constructor
    · rintro ⟨_, rfl, j, rfl, h⟩
      refine ⟨j, ?_, h⟩
      simp only [List.length_append, List.length_cons, List.length_nil]
      omega
    · rintro ⟨j, rfl, h⟩
      refine ⟨front.length + 1 + j, ?_, j, rfl, h⟩
      simp only [List.length_append, List.length_cons, List.length_nil]
      omega

/-- If the closing mark is the pattern, it stands there once. -/
theorem occursAt_enclosed_self_iff {opening body : List Char} (hends : BlankEnds body)
    (hbody : ¬pattern <:+: body) {i : Nat} :
    OccursAt pattern (opening ++ body ++ pattern) i ↔
      OccursAt pattern opening i
        ∨ i + pattern.length = (opening ++ body ++ pattern).length := by
  rw [occursAt_enclosed_iff hword hends hbody]
  refine or_congr_right ?_
  simp only [occursAt_self_iff hword, exists_eq_right, Nat.add_zero, List.length_append,
    Nat.add_right_cancel_iff]

/-! ## Out of the text -/

theorem infix_of_infix_spaced {text : List Char} (h : pattern <:+: spaced text) :
    pattern <:+: text := by
  obtain ⟨part, hpart, rfl⟩ := List.infix_map_iff.mp h
  have hsame : ∀ c ∈ part, (if isWhiteSpace c then ' ' else c) = c := by
    intro c hc
    refine if_neg ?_
    rw [← isWhiteSpace_spaced c, hword.solid _ (List.mem_map_of_mem hc)]
    exact Bool.false_ne_true
  rwa [List.map_congr_left hsame, List.map_id']

theorem infix_of_infix_paragraph {text p : List Char} (hp : p ∈ paragraphs text)
    (h : pattern <:+: p) : pattern <:+: text := by
  obtain ⟨group, hgroup, rfl⟩ := List.mem_map.mp hp
  obtain ⟨line, hline, hinside⟩ := (infix_intercalate_iff hword (by decide) (by decide)).mp h
  obtain ⟨raw, hraw, rfl⟩ := List.mem_map.mp ((of_mem_lineGroups hgroup).2 line hline).1
  have hjoined : pattern <:+: List.intercalate ['\n'] (text.splitOn '\n') :=
    (infix_intercalate_iff hword (by decide) (by decide)).mpr
      ⟨raw, hraw, hinside.trans (trim_infix_self raw)⟩
  rwa [List.intercalate_splitOn] at hjoined

/-- Wrapping cuts the text and joins nothing: a pattern in a line of a paragraph
is in the text. -/
theorem infix_of_infix_line {text p line : List Char} {width : Nat} (hp : p ∈ paragraphs text)
    (hline : line ∈ wrap width p) (h : pattern <:+: line) : pattern <:+: text := by
  have hwrap := infix_of_mem_wrap (startsSolid_of_mem_paragraphs hp)
    (endsSolid_of_mem_paragraphs hp) hline
  exact infix_of_infix_paragraph hword hp (infix_of_infix_spaced hword (h.trans hwrap))

end Pattern

end Bindery.Text
