import Mathlib.Logic.Relation
import Bindery.Proofs.Text.Boundary
import Bindery.Proofs.Text.Trimmed

/-!
# Turns of the wrapping loop

Wrapping as a loop: each turn takes one line from the pending chunks, until none
is left (`Turns`). No pending chunk is ever empty, and with that the number of
pending characters measures what is left to do (`turns_shrink`).

A turn shortens the pending text whatever becomes of a chunk too long for any
line. If the line has room, the piece that goes on it is not empty. If it has
none, the piece is empty and the whole chunk is pending again; but then other
chunks have filled the line in the same turn (`Filled.flatten_ne_nil`).
-/

namespace Bindery.Text

/-! ## The loop -/

/-- Between two lines: what is pending, and the lines so far. -/
structure Wrapping where
  pending : List (List Char)
  lines : List (List Char)
deriving DecidableEq, Repr

namespace Wrapping

/-- Before the first line. -/
def start (text : List Char) : Wrapping := ⟨chunks (spaced text), []⟩

/-- One line more, unless no chunk is on it. -/
def turn (width : Nat) (now : Wrapping) : Wrapping :=
  let step := nextLine width now.lines.isEmpty now.pending
  ⟨step.2, if step.1.isEmpty then now.lines else now.lines ++ [step.1.flatten]⟩

/-- The loop turns while chunks are pending. -/
def Turn (width : Nat) (now next : Wrapping) : Prop := now.pending ≠ [] ∧ next = now.turn width

def Turns (width : Nat) : Wrapping → Wrapping → Prop := Relation.ReflTransGen (Turn width)

end Wrapping

open Wrapping

variable {width : Nat} {pending line rest : List (List Char)} {now : Wrapping} {text : List Char}

/-- The loop ends, and then its lines are those of the recursion. -/
theorem turns_linePieces (hwidth : 0 < width) (pending lines : List (List Char)) :
    Turns width ⟨pending, lines⟩
      ⟨[], lines ++ (linePieces width hwidth lines.isEmpty pending).map List.flatten⟩ := by
  generalize hfirst : lines.isEmpty = first
  fun_induction linePieces width hwidth first pending generalizing lines with
  | case1 =>
      rw [List.map_nil, List.append_nil]
      exact .refl
  | case2 first chunk rest step hempty ih =>
      have hturn : turn width ⟨chunk :: rest, lines⟩ = ⟨step.2, lines⟩ := by
        simp only [turn, hfirst]
        rw [if_pos hempty]
      exact .head ⟨List.cons_ne_nil chunk rest, hturn.symm⟩ (ih lines hfirst)
  | case3 first chunk rest step hempty ih =>
      have hturn : turn width ⟨chunk :: rest, lines⟩ = ⟨step.2, lines ++ [step.1.flatten]⟩ := by
        simp only [turn, hfirst]
        rw [if_neg hempty]
      have hmore : (lines ++ [step.1.flatten]).isEmpty = false :=
        List.isEmpty_eq_false_iff.mpr (List.concat_ne_nil _ lines)
      have hrun := ih (lines ++ [step.1.flatten]) hmore
      rw [List.append_assoc, List.singleton_append] at hrun
      exact .head ⟨List.cons_ne_nil chunk rest, hturn.symm⟩ hrun

/-! ## One turn -/

theorem flatten_ne_nil_of_ne_nil (hchunks : ∀ chunk ∈ line, chunk ≠ []) (hne : line ≠ []) :
    line.flatten ≠ [] := by
  obtain ⟨chunk, more, rfl⟩ := List.exists_cons_of_ne_nil hne
  exact List.append_ne_nil_of_left_ne_nil (hchunks chunk List.mem_cons_self) _

namespace Filled

/-- A line holds a character, even where the piece of a broken chunk is empty. -/
theorem flatten_ne_nil (h : Filled width pending line rest) (hwidth : 0 < width)
    (hchunks : ∀ chunk ∈ pending, chunk ≠ []) (hne : pending ≠ []) : line.flatten ≠ [] := by
  cases h with
  | all _ => exact flatten_ne_nil_of_ne_nil hchunks hne
  | @full _ chunk _ _ hsmall hlt =>
      have htaken : line ≠ [] := by
        rintro rfl
        rw [List.flatten_nil, List.length_nil, Nat.zero_add] at hlt
        exact Nat.lt_irrefl _ (Nat.lt_of_lt_of_le hlt hsmall)
      exact flatten_ne_nil_of_ne_nil (fun c hc => hchunks c (List.mem_append_left _ hc)) htaken
  | @broken taken chunk _ _ hbig =>
      rw [List.flatten_append]
      rcases List.eq_nil_or_concat' taken with rfl | ⟨front, last, rfl⟩
      · -- An empty line has all its room for the piece.
        have hpos := length_headPiece_pos hwidth (Nat.lt_trans hwidth hbig)
        simpa [List.length_pos_iff] using hpos
      · refine List.append_ne_nil_of_left_ne_nil (flatten_ne_nil_of_ne_nil ?_ (by simp)) _
        exact fun c hc => hchunks c (List.mem_append_left _ hc)

theorem ne_nil_of_mem_rest (h : Filled width pending line rest)
    (hchunks : ∀ chunk ∈ pending, chunk ≠ []) : ∀ chunk ∈ rest, chunk ≠ [] := by
  cases h with
  | all _ => exact nofun
  | full _ _ _ => exact fun chunk hchunk => hchunks chunk (List.mem_append_right _ hchunk)
  | @broken taken chunk more _ hbig =>
      refine List.forall_mem_cons.mpr ⟨drop_headPiece_ne_nil ?_, fun other hother => ?_⟩
      · exact Nat.lt_of_le_of_lt (Nat.sub_le _ _) hbig
      · exact hchunks other (List.mem_append_right _ (List.mem_cons_of_mem chunk hother))

theorem length_rest_lt (h : Filled width pending line rest) (hwidth : 0 < width)
    (hchunks : ∀ chunk ∈ pending, chunk ≠ []) (hne : pending ≠ []) :
    rest.flatten.length < pending.flatten.length := by
  have hpos := List.length_pos_of_ne_nil (h.flatten_ne_nil hwidth hchunks hne)
  rw [← h.flatten_append, List.length_append]
  omega

end Filled

theorem eq_or_cons_dropBlankHead (pending : List (List Char)) :
    dropBlankHead pending = pending ∨ ∃ blank, pending = blank :: dropBlankHead pending := by
  cases pending with
  | nil => exact Or.inl rfl
  | cons chunk rest =>
      rw [dropBlankHead]
      split
      · exact Or.inr ⟨chunk, rfl⟩
      · exact Or.inl rfl

/-- A line is filled from the pending chunks, or from all of them but the first. -/
theorem exists_filled_nextLine (width : Nat) (first : Bool) (pending : List (List Char)) :
    ∃ start line, (start = pending ∨ ∃ blank, pending = blank :: start)
      ∧ Filled width start line (nextLine width first pending).2 := by
  cases first with
  | true => exact ⟨pending, _, Or.inl rfl, filled_fillBreaking width pending⟩
  | false => exact ⟨_, _, eq_or_cons_dropBlankHead pending, filled_fillBreaking width _⟩

theorem ne_nil_of_mem_nextLine {first : Bool} (hchunks : ∀ chunk ∈ pending, chunk ≠ []) :
    ∀ chunk ∈ (nextLine width first pending).2, chunk ≠ [] := by
  obtain ⟨start, line, hstart, hfilled⟩ := exists_filled_nextLine width first pending
  refine hfilled.ne_nil_of_mem_rest ?_
  rcases hstart with rfl | ⟨blank, rfl⟩
  · exact hchunks
  · exact fun chunk hchunk => hchunks chunk (List.mem_cons_of_mem blank hchunk)

theorem length_nextLine_lt {first : Bool} (hwidth : 0 < width)
    (hchunks : ∀ chunk ∈ pending, chunk ≠ []) (hne : pending ≠ []) :
    (nextLine width first pending).2.flatten.length < pending.flatten.length := by
  obtain ⟨start, line, hstart, hfilled⟩ := exists_filled_nextLine width first pending
  rcases hstart with rfl | ⟨blank, rfl⟩
  · exact hfilled.length_rest_lt hwidth hchunks hne
  · have hblank := List.length_pos_of_ne_nil (hchunks blank List.mem_cons_self)
    have hflatten := congrArg List.length hfilled.flatten_append
    rw [List.length_append] at hflatten
    rw [List.flatten_cons, List.length_append]
    omega

/-! ## A run -/

theorem ne_nil_of_turns (h : Turns width (start text) now) : ∀ chunk ∈ now.pending, chunk ≠ [] := by
  induction h with
  | refl => exact fun chunk => ne_nil_of_mem_chunks
  | tail _ hturn ih =>
      obtain ⟨-, rfl⟩ := hturn
      exact ne_nil_of_mem_nextLine ih

/-- **Wrapping comes to an end.** Before each turn no pending chunk is empty, the
turn leaves fewer pending characters, and the last one leaves none, with the
wrapped lines: of any text, at any width. -/
theorem turns_shrink (width : Nat) (text : List Char) :
    Turns (max width 1) (start text) ⟨[], wrap width text⟩
    ∧ ∀ now, Turns (max width 1) (start text) now → (∀ chunk ∈ now.pending, chunk ≠ [])
      ∧ ∀ next, Turn (max width 1) now next →
        next.pending.flatten.length < now.pending.flatten.length := by
  refine ⟨turns_linePieces _ _ _, fun now hrun => ⟨ne_nil_of_turns hrun, ?_⟩⟩
  rintro next ⟨hne, rfl⟩
  exact length_nextLine_lt (by omega) (ne_nil_of_turns hrun) hne

/-- A turn whose piece is empty: the first line is full in front of a word that no
line can hold, and the whole word is pending after it. -/
theorem turns_shrink_full_line :
    Turn 4 (start "aa  bbbbbb".toList) ⟨["bbbbbb".toList], ["aa  ".toList]⟩
    ∧ ["bbbbbb".toList].flatten.length < (start "aa  bbbbbb".toList).pending.flatten.length
    ∧ Turns 4 (start "aa  bbbbbb".toList) ⟨["bbbbbb".toList], ["aa  ".toList]⟩
    ∧ "bbbbbb".toList ≠ [] := by
  have hturn : Turn 4 (start "aa  bbbbbb".toList) ⟨["bbbbbb".toList], ["aa  ".toList]⟩ :=
    ⟨by decide +kernel, by decide +kernel⟩
  have hrun : Turns 4 (start "aa  bbbbbb".toList) ⟨["bbbbbb".toList], ["aa  ".toList]⟩ := .single hturn
  obtain ⟨-, hall⟩ := turns_shrink 4 "aa  bbbbbb".toList
  refine ⟨hturn, (hall _ .refl).2 _ hturn, hrun, ?_⟩
  exact (hall _ hrun).1 _ (List.mem_singleton.mpr rfl)

end Bindery.Text
