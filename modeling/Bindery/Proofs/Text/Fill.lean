import Bindery.Text.Wrap
import Bindery.Proofs.Text.Chunk

/-!
# Filling a line

What a line takes from the pending chunks. `Filled` lists the three ways in
which filling ends: no chunk is left, the next one has to wait, or no line
can hold it and it is broken. Everything else about a single line follows
from there: no character is lost, the line fits, and the chunks after it are
in order if the pending ones were.
-/

namespace Bindery.Text

/-! ## Chunks that fit -/

theorem append_fill (room : Nat) (pending : List (List Char)) :
    (fill room pending).1 ++ (fill room pending).2 = pending := by
  fun_induction fill room pending with
  | case1 => rfl
  | case2 room chunk rest _ taken left h ih =>
      rw [h] at ih
      exact congrArg (chunk :: ·) ih
  | case3 => rfl

theorem length_fill_le (room : Nat) (pending : List (List Char)) :
    (fill room pending).1.flatten.length ≤ room := by
  fun_induction fill room pending with
  | case1 => exact Nat.zero_le _
  | case2 room chunk rest hfits taken left h ih =>
      rw [h] at ih
      have hle : taken.flatten.length ≤ room - chunk.length := ih
      simp only [List.flatten_cons, List.length_append]
      omega
  | case3 => exact Nat.zero_le _

/-- Filling stops at a chunk that does not fit any more. -/
theorem lt_of_fill {room : Nat} {pending taken rest : List (List Char)} {chunk : List Char}
    (h : fill room pending = (taken, chunk :: rest)) :
    room < taken.flatten.length + chunk.length := by
  induction pending generalizing room taken with
  | nil => cases h
  | cons first pending ih =>
      rw [fill] at h
      split at h
      · next hfits =>
        cases hrec : fill (room - first.length) pending with
        | mk more left =>
            rw [hrec] at h
            obtain ⟨rfl, rfl⟩ := Prod.mk.inj h
            have hlt := ih hrec
            simp only [List.flatten_cons, List.length_append]
            omega
      · next hbig =>
        cases h
        rw [List.flatten_nil, List.length_nil, Nat.zero_add]
        exact Nat.lt_of_not_le hbig

/-! ## The piece of an oversized chunk -/

theorem exists_throughLastHyphen_append (text : List Char) :
    ∃ rest, '-' ∉ rest ∧ throughLastHyphen text ++ rest = text := by
  refine ⟨(text.reverse.takeWhile (· != '-')).reverse, fun hmem => ?_, ?_⟩
  · simpa using List.mem_takeWhile_imp (List.mem_reverse.mp hmem)
  · rw [throughLastHyphen, ← List.reverse_append, List.takeWhile_append_dropWhile,
      List.reverse_reverse]

theorem exists_throughLastHyphen_eq {text : List Char} (hne : throughLastHyphen text ≠ []) :
    ∃ body, throughLastHyphen text = body ++ ['-'] := by
  rw [throughLastHyphen] at hne ⊢
  cases hdrop : text.reverse.dropWhile (· != '-') with
  | nil => exact absurd (congrArg List.reverse hdrop) hne
  | cons c rest =>
      have hdropped : text.reverse.dropWhile (· != '-') ≠ [] := hdrop ▸ List.cons_ne_nil c rest
      have hc := List.head_dropWhile_not (· != '-') hdropped
      simp only [hdrop, List.head_cons, bne_eq_false_iff_eq] at hc
      exact ⟨rest.reverse, by rw [List.reverse_cons, hc]⟩

theorem headPiece_prefix_take (room : Nat) (chunk : List Char) :
    headPiece room chunk <+: chunk.take room := by
  have hcut : throughLastHyphen (chunk.take room) <+: chunk.take room := by
    rw [← List.reverse_suffix, throughLastHyphen, List.reverse_reverse]
    exact List.dropWhile_suffix _
  simp only [headPiece]
  split
  · exact hcut
  · exact List.prefix_rfl

theorem headPiece_prefix_self (room : Nat) (chunk : List Char) : headPiece room chunk <+: chunk :=
  (headPiece_prefix_take room chunk).trans (List.take_prefix room chunk)

theorem length_headPiece_le (room : Nat) (chunk : List Char) :
    (headPiece room chunk).length ≤ room :=
  Nat.le_trans (headPiece_prefix_take room chunk).length_le (List.length_take_le room chunk)

theorem headPiece_append_drop (room : Nat) (chunk : List Char) :
    headPiece room chunk ++ chunk.drop (headPiece room chunk).length = chunk := by
  have h := headPiece_prefix_self room chunk
  rw [List.prefix_iff_eq_take] at h
  exact (congrArg (· ++ _) h).trans (List.take_append_drop _ chunk)

theorem drop_headPiece_ne_nil {room : Nat} {chunk : List Char} (hbig : room < chunk.length) :
    chunk.drop (headPiece room chunk).length ≠ [] := by
  have hlen := length_headPiece_le room chunk
  rw [ne_eq, List.drop_eq_nil_iff]
  omega

/-- Both parts of a broken word are words. -/
theorem isWord_headPiece {room : Nat} {word : List Char} (hword : IsWord word) (hroom : 0 < room) :
    IsWord (headPiece room word) := by
  have hpos := length_headPiece_pos hroom (List.length_pos_of_ne_nil hword.ne_nil)
  exact hword.sublist (headPiece_prefix_self room word).sublist (List.ne_nil_of_length_pos hpos)

theorem isWord_drop_headPiece {room : Nat} {word : List Char} (hword : IsWord word)
    (hbig : room < word.length) : IsWord (word.drop (headPiece room word).length) :=
  hword.sublist (List.drop_sublist _ word) (drop_headPiece_ne_nil hbig)

/-! ## A filled line -/

/-- The pending chunks, the chunks of a line, and those after it. -/
inductive Filled (width : Nat) :
    List (List Char) → List (List Char) → List (List Char) → Prop where
  | all {taken} : taken.flatten.length ≤ width → Filled width taken taken []
  | full {taken chunk rest} : taken.flatten.length ≤ width → chunk.length ≤ width →
      width < taken.flatten.length + chunk.length →
      Filled width (taken ++ chunk :: rest) taken (chunk :: rest)
  | broken {taken chunk rest} : taken.flatten.length ≤ width → width < chunk.length →
      Filled width (taken ++ chunk :: rest)
        (taken ++ [headPiece (width - taken.flatten.length) chunk])
        (chunk.drop (headPiece (width - taken.flatten.length) chunk).length :: rest)

theorem filled_fillBreaking (width : Nat) (pending : List (List Char)) :
    Filled width pending (fillBreaking width pending).1 (fillBreaking width pending).2 := by
  have happend := append_fill width pending
  have hlen := length_fill_le width pending
  cases hfill : fill width pending with
  | mk taken left =>
      rw [hfill] at happend hlen
      subst happend
      cases left with
      | nil =>
          simp only [List.append_nil] at hfill ⊢
          simp only [fillBreaking, hfill]
          exact .all hlen
      | cons chunk rest =>
          simp only [fillBreaking, hfill]
          split
          · next hbig => exact .broken hlen hbig
          · next hsmall => exact .full hlen (Nat.le_of_not_lt hsmall) (lt_of_fill hfill)

namespace Filled

variable {width : Nat} {pending line rest : List (List Char)}

theorem flatten_append (h : Filled width pending line rest) :
    line.flatten ++ rest.flatten = pending.flatten := by
  cases h with
  | all _ => exact List.append_nil _
  | full _ _ _ => exact List.flatten_append.symm
  | broken _ _ =>
      simp only [List.flatten_append, List.flatten_cons, List.flatten_nil, List.append_nil,
        List.append_assoc]
      rw [← List.append_assoc (headPiece _ _), headPiece_append_drop]

theorem length_le (h : Filled width pending line rest) : line.flatten.length ≤ width := by
  cases h with
  | all hlen => exact hlen
  | full hlen _ _ => exact hlen
  | @broken taken chunk rest hlen _ =>
      have hpiece := length_headPiece_le (width - taken.flatten.length) chunk
      simp only [List.flatten_append, List.flatten_cons, List.flatten_nil, List.append_nil,
        List.length_append]
      omega

/-- What is left of a broken chunk is a chunk of the same kind. -/
theorem orderly (h : Filled width pending line rest) (horder : Orderly pending) :
    Orderly rest := by
  cases h with
  | all _ => exact .nil
  | full _ _ _ => exact horder.of_append
  | @broken taken chunk rest hlen hbig =>
      have hroom : width - taken.flatten.length < chunk.length :=
        Nat.lt_of_le_of_lt (Nat.sub_le _ _) hbig
      cases horder.of_append with
      | word hword hrest => exact .word (isWord_drop_headPiece hword hroom) hrest
      | gap hgap hword hrest =>
          refine .gap ⟨drop_headPiece_ne_nil hroom, fun c hc => hgap.blank c ?_⟩ hword hrest
          exact (List.drop_sublist _ chunk).subset hc

/-- A line that starts with a word does so after filling too: a word that is
too long for any line leaves a piece on this one. -/
theorem head_isWord (h : Filled width pending line rest) (hwidth : 0 < width)
    (hhead : ∃ word ∈ pending.head?, IsWord word) : ∃ word ∈ line.head?, IsWord word := by
  cases h with
  | all _ => exact hhead
  | @full _ chunk rest _ hsmall hlt =>
      cases line with
      | nil =>
          rw [List.flatten_nil, List.length_nil, Nat.zero_add] at hlt
          omega
      | cons first line => exact hhead
  | @broken taken chunk rest _ hbig =>
      cases taken with
      | nil =>
          obtain ⟨word, hmem, hword⟩ := hhead
          obtain rfl : chunk = word := Option.some.inj hmem
          exact ⟨_, rfl, isWord_headPiece hword hwidth⟩
      | cons first taken => exact hhead

theorem eq_of_rest_eq_nil (h : Filled width pending line rest) (hrest : rest = []) :
    line = pending := by
  cases h with
  | all _ => rfl
  | full _ _ _ => cases hrest
  | broken _ _ => cases hrest

end Filled

end Bindery.Text
