import Mathlib.Data.List.SplitBy
import Bindery.Text.Chunk
import Bindery.Proofs.Unicode.WhiteSpace

/-!
# Words and gaps

The chunks of a text are its characters again (`flatten_chunks`), and they
come in an order (`Orderly`): a chunk is either a word, without white space,
or a gap, white space only, and every gap has a word right after it. So no
two gaps meet and the last chunk is a word. This is what wrapping relies on
when it drops a single blank chunk at an end of a line.

A text that ends solid has its chunks in order (`orderly_chunks`).
-/

namespace Bindery.Text

open Bindery.Unicode

/-! ## Spaced text -/

/-- The space is the only white space of the text. -/
def OnlySpaces (text : List Char) : Prop := ∀ c ∈ text, isWhiteSpace c = isSpace c

instance (text : List Char) : Decidable (OnlySpaces text) :=
  decidable_of_iff (text.all fun c => isWhiteSpace c == isSpace c) <| by
    simp [OnlySpaces]

theorem onlySpaces_append {front rest : List Char} :
    OnlySpaces (front ++ rest) ↔ OnlySpaces front ∧ OnlySpaces rest :=
  List.forall_mem_append

theorem onlySpaces_spaced (text : List Char) : OnlySpaces (spaced text) := by
  intro c hc
  obtain ⟨d, _, rfl⟩ := List.mem_map.mp hc
  by_cases hd : isWhiteSpace d = true
  · rw [if_pos hd]
    decide
  · rw [if_neg hd]
    cases hspace : isSpace d with
    | false => exact Bool.not_eq_true _ ▸ hd
    | true =>
        obtain rfl := beq_iff_eq.mp hspace
        exact absurd rfl hd

theorem eq_space_of_isSpace {c : Char} (hc : isSpace c = true) : c = ' ' := beq_iff_eq.mp hc

theorem isSpace_of_not_isWhiteSpace {c : Char} (hc : isWhiteSpace c = false) : isSpace c = false := by
  refine beq_eq_false_iff_ne.mpr ?_
  rintro rfl
  cases hc

theorem spaced_of_onlySpaces {text : List Char} (h : OnlySpaces text) : spaced text = text := by
  refine (List.map_congr_left fun c hc => ?_).trans (List.map_id text)
  split
  · next hblank => exact (eq_space_of_isSpace ((h c hc).symm.trans hblank)).symm
  · rfl

theorem isWhiteSpace_spaced (c : Char) :
    isWhiteSpace (if isWhiteSpace c then ' ' else c) = isWhiteSpace c := by
  split
  · next h => rw [h]; decide
  · rfl

theorem startsSolid_spaced {text : List Char} : StartsSolid (spaced text) ↔ StartsSolid text := by
  cases text with
  | nil => exact Iff.rfl
  | cons c text =>
      rw [spaced, List.map_cons, startsSolid_cons, startsSolid_cons, isWhiteSpace_spaced]

theorem endsSolid_spaced {text : List Char} : EndsSolid (spaced text) ↔ EndsSolid text := by
  rw [← startsSolid_reverse, ← startsSolid_reverse, spaced, ← List.map_reverse]
  exact startsSolid_spaced

/-! ## Characters -/

theorem flatten_runs (text : List Char) : (runs text).flatten = text :=
  List.flatten_splitBy _ text

theorem flatten_hyphenPieces (left run : List Char) : (hyphenPieces left run).flatten = run := by
  induction run generalizing left with
  | nil => rfl
  | cons c right ih =>
      rw [hyphenPieces]
      split
      · rw [List.flatten_cons, ih]
        rfl
      · have hright := ih (c :: left)
        split
        · next hpieces =>
          rw [hpieces] at hright
          rw [← hright]
          rfl
        · next piece pieces hpieces =>
          rw [hpieces, List.flatten_cons] at hright
          rw [List.flatten_cons, List.cons_append, hright]

theorem ne_nil_of_mem_hyphenPieces {left run piece : List Char}
    (h : piece ∈ hyphenPieces left run) : piece ≠ [] := by
  induction run generalizing left piece with
  | nil => cases h
  | cons c right ih =>
      rw [hyphenPieces] at h
      split at h
      · rcases List.mem_cons.mp h with rfl | h
        · exact List.cons_ne_nil c []
        · exact ih h
      · split at h
        · obtain rfl := List.mem_singleton.mp h
          exact List.cons_ne_nil c []
        · next head pieces hpieces =>
          rcases List.mem_cons.mp h with rfl | h
          · exact List.cons_ne_nil c head
          · have hmem : piece ∈ hyphenPieces (c :: left) right :=
              hpieces ▸ List.mem_cons_of_mem head h
            exact ih hmem

theorem flatten_runChunks (run : List Char) : (runChunks run).flatten = run := by
  rw [runChunks]
  split
  · exact List.flatten_singleton
  · exact flatten_hyphenPieces [] run

theorem flatten_flatMap_runChunks (l : List (List Char)) :
    (l.flatMap runChunks).flatten = l.flatten := by
  induction l with
  | nil => rfl
  | cons run l ih =>
      rw [List.flatMap_cons, List.flatten_append, flatten_runChunks, ih, List.flatten_cons]

/-- Chunks lose no character and keep their order. -/
theorem flatten_chunks (text : List Char) : (chunks text).flatten = text := by
  rw [chunks, flatten_flatMap_runChunks, flatten_runs]

/-! ## Order -/

structure IsWord (chunk : List Char) : Prop where
  ne_nil : chunk ≠ []
  solid : ∀ c ∈ chunk, isWhiteSpace c = false

structure IsGap (chunk : List Char) : Prop where
  ne_nil : chunk ≠ []
  blank : ∀ c ∈ chunk, isWhiteSpace c = true

/-- Words, with at most one gap before each. -/
inductive Orderly : List (List Char) → Prop where
  | nil : Orderly []
  | word {word rest} : IsWord word → Orderly rest → Orderly (word :: rest)
  | gap {gap word rest} : IsGap gap → IsWord word → Orderly rest → Orderly (gap :: word :: rest)

namespace IsWord

variable {chunk : List Char}

instance : Decidable (IsWord chunk) :=
  decidable_of_iff (chunk ≠ [] ∧ chunk.all (!isWhiteSpace ·) = true) <| by
    simp only [List.all_eq_true, Bool.not_eq_true']
    exact ⟨fun h => ⟨h.1, h.2⟩, fun h => ⟨h.ne_nil, h.solid⟩⟩

theorem startsSolid (h : IsWord chunk) : StartsSolid chunk :=
  startsSolid_of_forall h.ne_nil h.solid

theorem endsSolid (h : IsWord chunk) : EndsSolid chunk :=
  endsSolid_of_forall h.ne_nil h.solid

theorem isBlank (h : IsWord chunk) : isBlank chunk = false := h.startsSolid.isBlank

theorem sublist {part : List Char} (h : IsWord chunk) (hsub : part.Sublist chunk)
    (hne : part ≠ []) : IsWord part :=
  ⟨hne, fun c hc => h.solid c (hsub.subset hc)⟩

end IsWord

theorem IsGap.isBlank {chunk : List Char} (h : IsGap chunk) : isBlank chunk = true :=
  isBlank_iff.mpr h.blank

theorem IsWord.not_isGap {chunk : List Char} (h : IsWord chunk) : ¬IsGap chunk := fun hgap =>
  Bool.false_ne_true (h.isBlank.symm.trans hgap.isBlank)

section Ends

variable {line : List (List Char)}

theorem ne_nil_of_head_isWord (h : ∃ word ∈ line.head?, IsWord word) : line ≠ [] := by
  rintro rfl
  obtain ⟨word, hword, _⟩ := h
  cases hword

theorem startsSolid_flatten (h : ∃ word ∈ line.head?, IsWord word) : StartsSolid line.flatten := by
  obtain ⟨word, hmem, hword⟩ := h
  obtain ⟨more, rfl⟩ := List.head?_eq_some_iff.mp hmem
  exact hword.startsSolid.append more.flatten

theorem endsSolid_flatten (h : ∃ word ∈ line.getLast?, IsWord word) : EndsSolid line.flatten := by
  obtain ⟨word, hmem, hword⟩ := h
  obtain ⟨front, rfl⟩ := List.getLast?_eq_some_iff.mp hmem
  rw [List.flatten_append, List.flatten_singleton]
  exact hword.endsSolid.append front.flatten

end Ends

namespace Orderly

variable {chunk : List Char} {l r : List (List Char)}

theorem tail (h : Orderly (chunk :: l)) : Orderly l := by
  cases h with
  | word _ hl => exact hl
  | gap _ hword hl => exact .word hword hl

theorem of_append (h : Orderly (l ++ r)) : Orderly r := by
  induction l with
  | nil => exact h
  | cons _ l ih => exact ih h.tail

theorem isWord_or_isGap (h : Orderly (chunk :: l)) : IsWord chunk ∨ IsGap chunk := by
  cases h with
  | word hword _ => exact Or.inl hword
  | gap hgap _ _ => exact Or.inr hgap

theorem getLast_isWord (h : Orderly (l ++ [chunk])) : IsWord chunk := by
  cases h.of_append with
  | word hword _ => exact hword

theorem head_isWord (h : Orderly l) (hstart : StartsSolid l.flatten) :
    ∀ chunk ∈ l.head?, IsWord chunk := by
  intro chunk hmem
  cases l with
  | nil => cases hmem
  | cons first l =>
      obtain rfl : first = chunk := Option.some.inj hmem
      rcases h.isWord_or_isGap with hword | hgap
      · exact hword
      · cases first with
        | nil => exact absurd rfl hgap.ne_nil
        | cons c first =>
            have hsolid : isWhiteSpace c = false := startsSolid_cons.mp hstart
            cases (hgap.blank c List.mem_cons_self).symm.trans hsolid

theorem words_append (hl : ∀ word ∈ l, IsWord word) (hr : Orderly r) : Orderly (l ++ r) := by
  induction l with
  | nil => exact hr
  | cons word l ih =>
      exact .word (hl word List.mem_cons_self) (ih fun w hw => hl w (List.mem_cons_of_mem word hw))

end Orderly

/-! ## Runs -/

theorem mem_of_mem_runs {text run : List Char} {c : Char} (h : run ∈ runs text) (hc : c ∈ run) :
    c ∈ text := by
  rw [← flatten_runs text]
  exact List.mem_flatten_of_mem h hc

/-- The characters of a run are all spaces, or none of them is one. -/
theorem isSpace_eq_of_mem_run {c d : Char} {run : List Char}
    (h : (c :: run).IsChain fun a b => (isSpace a == isSpace b) = true) (hd : d ∈ run) :
    isSpace d = isSpace c :=
  h.cons_induction (fun d => isSpace d = isSpace c) run
    (fun _ _ hxy hx => (beq_iff_eq.mp hxy).symm.trans hx) rfl d hd

theorem isWord_or_isGap_of_mem_runs {text run : List Char} (hspaces : OnlySpaces text)
    (h : run ∈ runs text) : IsWord run ∨ IsGap run := by
  cases run with
  | nil => exact absurd rfl (List.ne_nil_of_mem_splitBy h)
  | cons c run =>
      have hsame : ∀ d ∈ c :: run, isWhiteSpace d = isSpace c := by
        intro d hd
        rw [hspaces d (mem_of_mem_runs h hd)]
        rcases List.mem_cons.mp hd with rfl | hd
        · rfl
        · exact isSpace_eq_of_mem_run (List.isChain_of_mem_splitBy h) hd
      cases hc : isSpace c with
      | false => exact Or.inl ⟨List.cons_ne_nil c run, hc ▸ hsame⟩
      | true => exact Or.inr ⟨List.cons_ne_nil c run, hc ▸ hsame⟩

/-- Two gaps in a row would be a single run. -/
theorem isChain_runs {text : List Char} (hspaces : OnlySpaces text) :
    (runs text).IsChain fun a b => IsGap a → ¬IsGap b := by
  have hmem : ∀ run ∈ runs text, ∀ c ∈ run, isWhiteSpace c = isSpace c :=
    fun run hrun c hc => hspaces c (mem_of_mem_runs hrun hc)
  refine (List.isChain_getLast_head_splitBy _ text).imp_of_mem_imp ?_
  intro a b ha hb hab hgapa hgapb
  obtain ⟨hnea, hneb, hne⟩ := hab
  have hlast := hgapa.blank _ (List.getLast_mem hnea)
  have hhead := hgapb.blank _ (List.head_mem hneb)
  rw [hmem a ha _ (List.getLast_mem hnea)] at hlast
  rw [hmem b hb _ (List.head_mem hneb)] at hhead
  rw [hlast, hhead] at hne
  cases hne

theorem orderly_of_isChain {l : List (List Char)} (hmem : ∀ run ∈ l, IsWord run ∨ IsGap run)
    (hchain : l.IsChain fun a b => IsGap a → ¬IsGap b)
    (hlast : ∀ run ∈ l.getLast?, ¬IsGap run) : Orderly l := by
  induction l with
  | nil => exact .nil
  | cons run l ih =>
      cases l with
      | nil =>
          rcases hmem run List.mem_cons_self with hword | hgap
          · exact .word hword .nil
          · exact absurd hgap (hlast run rfl)
      | cons next l =>
          have hrest : Orderly (next :: l) := by
            refine ih (fun r hr => hmem r (List.mem_cons_of_mem run hr)) hchain.tail ?_
            rwa [List.getLast?_cons_cons] at hlast
          rcases hmem run List.mem_cons_self with hword | hgap
          · exact .word hword hrest
          · cases hrest with
            | word hnext hl => exact .gap hgap hnext hl
            | gap hnext _ _ => exact absurd hnext (hchain.rel hgap)

/-- The runs of a text that ends solid, or is empty, are in order. -/
theorem orderly_runs {text : List Char} (hspaces : OnlySpaces text)
    (hends : text ≠ [] → EndsSolid text) : Orderly (runs text) := by
  refine orderly_of_isChain (fun run => isWord_or_isGap_of_mem_runs hspaces)
    (isChain_runs hspaces) ?_
  intro run hrun hgap
  obtain ⟨front, hfront⟩ := List.getLast?_eq_some_iff.mp hrun
  have htext : front.flatten ++ run = text := by
    rw [← flatten_runs text, hfront, List.flatten_append, List.flatten_singleton]
  have hne : text ≠ [] := htext ▸ List.append_ne_nil_of_right_ne_nil _ hgap.ne_nil
  obtain ⟨c, hc, hsolid⟩ := hends hne
  rw [← htext, List.getLast?_append_of_ne_nil _ hgap.ne_nil] at hc
  cases (hgap.blank c (List.mem_of_mem_getLast? hc)).symm.trans hsolid

/-! ## Pieces of words -/

theorem isWord_of_mem_runChunks {run piece : List Char} (hword : IsWord run)
    (h : piece ∈ runChunks run) : IsWord piece := by
  rw [runChunks] at h
  split at h
  · obtain rfl := List.mem_singleton.mp h
    exact hword
  · refine ⟨ne_nil_of_mem_hyphenPieces h, fun c hc => hword.solid c ?_⟩
    rw [← flatten_hyphenPieces [] run]
    exact List.mem_flatten_of_mem h hc

theorem runChunks_of_isGap {run : List Char} (hgap : IsGap run) (hspaces : OnlySpaces run) :
    runChunks run = [run] := by
  rw [runChunks, if_pos]
  exact List.all_eq_true.mpr fun c hc => (hspaces c hc).symm.trans (hgap.blank c hc)

/-- Cutting words at hyphens keeps the order: a word becomes words. -/
theorem Orderly.flatMap_runChunks {l : List (List Char)} (h : Orderly l)
    (hspaces : OnlySpaces l.flatten) : Orderly (l.flatMap runChunks) := by
  induction h with
  | nil => exact .nil
  | word hword _ ih =>
      rw [List.flatMap_cons]
      refine words_append (fun piece => isWord_of_mem_runChunks hword) (ih ?_)
      exact fun c hc => hspaces c (List.mem_append_right _ hc)
  | @gap gap word rest hgap hword _ ih =>
      have hrest : Orderly (rest.flatMap runChunks) := by
        refine ih fun c hc => hspaces c ?_
        exact List.mem_append_right _ (List.mem_append_right _ hc)
      rw [List.flatMap_cons, List.flatMap_cons,
        runChunks_of_isGap hgap fun c hc => hspaces c (List.mem_append_left _ hc)]
      cases hpieces : runChunks word with
      | nil => exact absurd (hpieces ▸ flatten_runChunks word).symm hword.ne_nil
      | cons piece pieces =>
          have hwords : ∀ w ∈ piece :: pieces, IsWord w :=
            fun w hw => isWord_of_mem_runChunks hword (hpieces ▸ hw)
          exact .gap hgap (hwords piece List.mem_cons_self)
            (words_append (fun w hw => hwords w (List.mem_cons_of_mem piece hw)) hrest)

/-- **The chunks of a text are in order**, if it ends solid. -/
theorem orderly_chunks {text : List Char} (hspaces : OnlySpaces text)
    (hends : text ≠ [] → EndsSolid text) : Orderly (chunks text) := by
  refine (orderly_runs hspaces hends).flatMap_runChunks ?_
  rwa [flatten_runs]

end Bindery.Text
