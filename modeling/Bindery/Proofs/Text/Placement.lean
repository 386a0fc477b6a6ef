import Bindery.Proofs.Text.Succession

/-!
# Lines in their places

The lines of a text, each with the number of spaces left out before it, are the
text again (`IsPlacement`), so the place of a line in the text is the length of
what comes before it. Where a line starts, what is still to come are the chunks of
the text, the first one perhaps without what earlier lines hold of it
(`Remaining`). So whatever holds of a line and the chunks from there on holds of
the text (`Laid.exists_at`).
-/

namespace Bindery.Text

open Bindery.Unicode

/-! ## What is still to come -/

/-- The text before a place, and the chunks from there on. The first of them may
be the rest of a chunk. -/
inductive Remaining (all : List (List Char)) : List Char → List (List Char) → Prop where
  | intro {before gone chunk rest} : all = before ++ (gone ++ chunk) :: rest →
      Remaining all (before.flatten ++ gone) (chunk :: rest)

variable {width n : Nat} {all start pending line rest next : List (List Char)}
  {lines : List (List (List Char))} {now : Nat × List Char} {placed above below : List (Nat × List Char)}
  {gap : Option (List Char)} {chunk front done : List Char}

/-- An element of two lists in a row is in the left or in the right one. -/
theorem left_or_right {α : Type} {front after left right : List α} {x : α}
    (h : front ++ x :: after = left ++ right) :
    (∃ later, left = front ++ x :: later)
    ∨ ∃ earlier, front = left ++ earlier ∧ right = earlier ++ x :: after := by
  rcases List.append_eq_append_iff.mp h with ⟨middle, hleft, hmiddle⟩ | ⟨middle, hfront, hright⟩
  · cases middle with
    | nil =>
        rw [List.append_nil] at hleft
        exact Or.inr ⟨[], by rw [hleft, List.append_nil], hmiddle.symm⟩
    | cons y middle =>
        obtain ⟨rfl, -⟩ := List.cons.inj hmiddle
        exact Or.inl ⟨middle, hleft⟩
  · exact Or.inr ⟨middle, hfront, hright⟩

theorem toList_eq_append_cons {α : Type} {x? : Option α} {front after : List α} {x : α}
    (h : x?.toList = front ++ x :: after) : x? = some x ∧ front = [] ∧ after = [] := by
  have hlen := congrArg List.length h
  rw [List.length_append, List.length_cons] at hlen
  have hle : x?.toList.length ≤ 1 := Option.length_toList_le
  obtain rfl : front = [] := List.length_eq_zero_iff.mp (by omega)
  obtain rfl : after = [] := List.length_eq_zero_iff.mp (by omega)
  exact ⟨Option.toList_eq_singleton_iff.mp h, rfl, rfl⟩

namespace Remaining

/-- A chunk is whole, unless it is the first one. -/
theorem exists_chunk (h : Remaining all done (line ++ chunk :: rest)) :
    ∃ before gone, all = before ++ (gone ++ chunk) :: rest
      ∧ done ++ line.flatten = before.flatten ++ gone ∧ (gone = [] ∨ line = []) := by
  generalize hpending : line ++ chunk :: rest = pending at h
  cases h with
  | @intro before gone first later hall =>
      cases line with
      | nil =>
          obtain ⟨rfl, rfl⟩ := List.cons.inj hpending
          exact ⟨before, gone, hall, List.append_nil _, Or.inr rfl⟩
      | cons first' line =>
          obtain ⟨rfl, rfl⟩ := List.cons.inj hpending
          exact ⟨before ++ (gone ++ first') :: line, [], by simpa using hall, by simp, Or.inl rfl⟩

theorem exists_whole (h : Remaining all done (line ++ chunk :: rest)) (hne : line ≠ []) :
    ∃ before, all = before ++ chunk :: rest ∧ done ++ line.flatten = before.flatten := by
  obtain ⟨before, gone, hall, hdone, rfl | hnil⟩ := h.exists_chunk
  · exact ⟨before, hall, by rwa [List.append_nil] at hdone⟩
  · exact absurd hnil hne

theorem whole {before : List (List Char)} (hall : all = before ++ chunk :: rest) :
    Remaining all before.flatten (chunk :: rest) := by
  have h : Remaining all (before.flatten ++ []) (chunk :: rest) := .intro hall
  rwa [List.append_nil] at h

theorem of_chunks (chunk : List Char) (rest : List (List Char)) :
    Remaining (chunk :: rest) [] (chunk :: rest) := by
  have h : chunk :: rest = [] ++ chunk :: rest := rfl
  exact .whole h

/-- Chunks that start no earlier than the place are still to come. -/
theorem exists_front {before after : List (List Char)} (h : Remaining all done pending)
    (hall : all = before ++ chunk :: after) (hchunk : chunk ≠ [])
    (hle : done.length ≤ before.flatten.length) :
    ∃ front, pending = front ++ chunk :: after ∧ done ++ front.flatten = before.flatten := by
  cases h with
  | @intro earlier gone first later hpending =>
      rw [List.length_append] at hle
      rcases left_or_right (hall.symm.trans hpending) with ⟨middle, rfl⟩ | ⟨middle, rfl, hlater⟩
      · have hpos := List.length_pos_of_ne_nil hchunk
        simp only [List.flatten_append, List.flatten_cons, List.length_append] at hle
        omega
      · cases middle with
        | nil =>
            obtain ⟨rfl, rfl⟩ := List.cons.inj hlater
            obtain rfl : gone = [] := List.length_eq_zero_iff.mp <| by
              rw [List.append_nil] at hle
              omega
            exact ⟨[], rfl, by simp⟩
        | cons chunk' middle =>
            obtain ⟨rfl, rfl⟩ := List.cons.inj hlater
            exact ⟨first :: middle, rfl, by simp⟩

end Remaining

theorem Follows.remaining (h : Follows width start line gap next) (hrem : Remaining all done start) :
    Remaining all (done ++ line.flatten ++ gap.getD []) next := by
  cases h with
  | @between _ word rest gap htrimmed _ _ _ _ _ =>
      obtain ⟨before, hall, hdone⟩ := hrem.exists_whole
        (List.append_ne_nil_of_left_ne_nil htrimmed.ne_nil gap.toList)
      have hthrough : done ++ line.flatten ++ gap.getD [] = before.flatten := by
        rw [← hdone]
        cases gap <;> simp
      rw [hthrough]
      exact .whole hall
  | @behindGap line gap word rest _ _ _ _ _ =>
      rw [← List.singleton_append, ← List.append_assoc] at hrem
      obtain ⟨before, hall, hdone⟩ := hrem.exists_whole (List.concat_ne_nil gap line)
      rw [Option.getD_none, List.append_nil, hdone]
      exact .whole hall
  | @inside line word rest _ _ _ _ =>
      obtain ⟨before, gone, hall, hdone, -⟩ := hrem.exists_chunk
      have hword := headPiece_append_drop (width - line.flatten.length) word
      generalize headPiece (width - line.flatten.length) word = piece at hword ⊢
      have hthrough : done ++ (line ++ [piece]).flatten ++ Option.getD none [] =
          before.flatten ++ (gone ++ piece) := by
        rw [List.flatten_append, List.flatten_singleton, Option.getD_none, List.append_nil,
          ← List.append_assoc, hdone, List.append_assoc]
      rw [hthrough]
      exact .intro (by rw [List.append_assoc, hword, hall])

namespace Laid

theorem fst_eq (h : Laid width n start lines (now :: below)) : now.1 = n := by
  cases h with
  | last _ _ => rfl
  | more _ _ => rfl

/-- From any line on, the lines are laid from what is still to come there. -/
theorem exists_at (h : Laid width n start lines (above ++ now :: below))
    (hspaces : OnlySpaces start.flatten) (hrem : Remaining all (front ++ List.replicate n ' ') start) :
    ∃ start' lines', Laid width now.1 start' lines' (now :: below) ∧ OnlySpaces start'.flatten
      ∧ Remaining all (front ++ padded above ++ List.replicate now.1 ' ') start' := by
  induction above generalizing n start lines front with
  | nil =>
      have hn := h.fst_eq
      refine ⟨start, lines, hn ▸ h, hspaces, ?_⟩
      rw [hn, padded, List.flatMap_nil, List.append_nil]
      exact hrem
  | cons earlier above ih =>
      rw [List.cons_append] at h
      generalize hlast : above ++ now :: below = later at h
      cases h with
      | last _ _ => simp at hlast
      | @more _ _ line next lines _ gap hfollows hlater =>
          subst hlast
          have hnext := hfollows.remaining hrem
          rw [hfollows.getD_eq_replicate hspaces] at hnext
          obtain ⟨start', lines', hlaid, hspaces', hrem'⟩ :=
            ih hlater (hfollows.onlySpaces hspaces) hnext
          refine ⟨start', lines', hlaid, hspaces', ?_⟩
          rw [padded_cons]
          simpa only [List.append_assoc] using hrem'

/-- The same from the beginning of a text. -/
theorem exists_in_text {text : List Char} (h : Laid width 0 (chunks text) lines placed)
    (hspaces : OnlySpaces text) (hplaced : placed = above ++ now :: below) :
    ∃ start lines', Laid width now.1 start lines' (now :: below) ∧ OnlySpaces start.flatten
      ∧ Remaining (chunks text) (padded above ++ List.replicate now.1 ' ') start := by
  obtain ⟨first, more, hchunks⟩ := List.exists_cons_of_ne_nil h.ne_nil
  have hrem : Remaining (chunks text) ([] ++ List.replicate 0 ' ') (chunks text) := by
    rw [hchunks]
    exact .of_chunks first more
  exact exists_at (hplaced ▸ h) (by rwa [flatten_chunks]) hrem

end Laid

/-! ## Paragraphs -/

theorem padded_concat (lines : List (Nat × List Char)) (gap : Nat) (line : List Char) :
    padded (lines ++ [(gap, line)]) = padded lines ++ List.replicate gap ' ' ++ line := by
  simp [padded]

/-- The lines of a text, each with the number of spaces that are left out before
it. No more than these are left out, since every line starts solid. -/
structure IsPlacement (text : List Char) (lines : List (List Char))
    (placed : List (Nat × List Char)) : Prop where
  map_snd : placed.map Prod.snd = lines
  padded_eq : padded placed = text
  startsSolid : ∀ line ∈ placed, StartsSolid line.2

instance (text : List Char) (lines : List (List Char)) (placed : List (Nat × List Char)) :
    Decidable (IsPlacement text lines placed) :=
  decidable_of_iff (placed.map Prod.snd = lines ∧ padded placed = text
      ∧ ∀ line ∈ placed, StartsSolid line.2)
    ⟨fun h => ⟨h.1, h.2.1, h.2.2⟩, fun h => ⟨h.map_snd, h.padded_eq, h.startsSolid⟩⟩

theorem replicate_append_inj {n m : Nat} {text text' : List Char} (h : StartsSolid text)
    (h' : StartsSolid text') (heq : List.replicate n ' ' ++ text = List.replicate m ' ' ++ text') :
    n = m ∧ text = text' := by
  induction n generalizing m with
  | zero =>
      cases m with
      | zero => exact ⟨rfl, heq⟩
      | succ m => exact absurd (heq ▸ h) (not_startsSolid_replicate_append m text')
  | succ n ih =>
      cases m with
      | zero => exact absurd (heq ▸ h') (not_startsSolid_replicate_append n text)
      | succ m => exact (ih (List.cons.inj heq).2).imp_left (congrArg (· + 1))

/-- The lines fix their places. -/
theorem IsPlacement.unique {text : List Char} {lines : List (List Char)}
    {placed placed' : List (Nat × List Char)} (h : IsPlacement text lines placed)
    (h' : IsPlacement text lines placed') : placed = placed' := by
  obtain ⟨hlines, htext, hsolid⟩ := h
  obtain ⟨hlines', htext', hsolid'⟩ := h'
  rw [← hlines'] at hlines
  rw [← htext'] at htext
  clear hlines' htext'
  induction placed generalizing placed' with
  | nil => exact (List.map_eq_nil_iff.mp hlines.symm).symm
  | cons line placed ih =>
      obtain ⟨line', placed', rfl⟩ : ∃ line' later, placed' = line' :: later :=
        List.exists_cons_of_ne_nil fun hnil => by
          rw [hnil] at hlines
          cases hlines
      obtain ⟨n, line⟩ := line
      obtain ⟨m, line'⟩ := line'
      rw [List.forall_mem_cons] at hsolid hsolid'
      obtain ⟨rfl, hmore⟩ : line = line' ∧ _ := List.cons.inj hlines
      rw [padded_cons, padded_cons, List.append_assoc, List.append_assoc] at htext
      obtain ⟨rfl, hrest⟩ := replicate_append_inj (hsolid.1.append _) (hsolid'.1.append _) htext
      rw [ih hmore (List.append_cancel_left hrest) hsolid.2 hsolid'.2]

/-- A wrapped paragraph: its lines in their places, laid one after another. -/
theorem exists_laid {text p : String} (hp : p ∈ splitParagraphs text) (hwidth : 0 < width) :
    ∃ lines placed, IsPlacement (spaced p.toList) (wrap width p.toList) placed
      ∧ Laid width 0 (chunks (spaced p.toList)) lines placed := by
  obtain ⟨p, hmem, rfl⟩ := List.mem_map.mp hp
  rw [String.toList_ofList]
  obtain ⟨placed, hlaid⟩ := laid_of_solid (startsSolid_of_mem_paragraphs hmem)
    (endsSolid_of_mem_paragraphs hmem) hwidth
  refine ⟨_, placed, ⟨?_, ?_, hlaid.startsSolid⟩, hlaid⟩
  · rw [hlaid.map_snd, wrap_eq hwidth]
  · rw [hlaid.padded_eq (by rw [flatten_chunks]; exact onlySpaces_spaced p), flatten_chunks]
    rfl

end Bindery.Text
