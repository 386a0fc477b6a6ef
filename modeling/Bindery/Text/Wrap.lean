import Bindery.Text.Chunk

/-!
# Greedy line wrapping

A line takes chunks as long as they fit. Blank chunks are kept inside a line
and dropped at its ends, with one exception below.

A chunk longer than the whole line is broken: its head fills what room is
left on the current line, and its rest is the first chunk of the next one.
The head may be empty, when no room is left. It then hides a blank chunk
before it from the trimming at the end of the line, so a line that is exactly
full keeps its spaces before an oversized chunk.

One line is a single step (`nextLine`): what it holds, and the chunks after
it. Wrapping repeats the step, and ends because each step removes a chunk or
shortens the first one (`workload_nextLine_lt`).
-/

namespace Bindery.Text

open Bindery.Unicode

/-! ## Filling a line -/

/-- The chunks that fit into `room`, and those that do not. -/
def fill (room : Nat) : List (List Char) → List (List Char) × List (List Char)
  | [] => ([], [])
  | chunk :: rest =>
    if chunk.length ≤ room then
      let (taken, left) := fill (room - chunk.length) rest
      (chunk :: taken, left)
    else ([], chunk :: rest)

/-- The beginning of a text up to its last hyphen, and with it; empty if it
has none. -/
def throughLastHyphen (text : List Char) : List Char :=
  (text.reverse.dropWhile (· != '-')).reverse

/-- The part of an oversized chunk that goes on a line with `room` left: up
to the last hyphen that fits, if something else than hyphens comes before
it, and otherwise all that fits. -/
def headPiece (room : Nat) (chunk : List Char) : List Char :=
  let piece := chunk.take room
  let cut := throughLastHyphen piece
  if cut.any (· != '-') then cut else piece

/-- Fill a line, and break the chunk after it if no line could hold it. -/
def fillBreaking (width : Nat) (pending : List (List Char)) :
    List (List Char) × List (List Char) :=
  match fill width pending with
  | (taken, []) => (taken, [])
  | (taken, chunk :: rest) =>
    if width < chunk.length then
      let piece := headPiece (width - taken.flatten.length) chunk
      (taken ++ [piece], chunk.drop piece.length :: rest)
    else (taken, chunk :: rest)

/-! ## Blanks at the ends of a line -/

def dropBlankHead : List (List Char) → List (List Char)
  | [] => []
  | chunk :: rest => if isBlank chunk then rest else chunk :: rest

def dropBlankLast (line : List (List Char)) : List (List Char) :=
  (dropBlankHead line.reverse).reverse

/-- Chunks of the next line, and those pending after it. Only the first line
keeps a blank chunk at its start. -/
def nextLine (width : Nat) (first : Bool) (pending : List (List Char)) :
    List (List Char) × List (List Char) :=
  let (line, rest) := fillBreaking width (if first then pending else dropBlankHead pending)
  (dropBlankLast line, rest)

/-! ## Progress -/

/-- Pending characters and chunks together. -/
def workload (pending : List (List Char)) : Nat := pending.flatten.length + pending.length

theorem workload_cons (chunk : List Char) (rest : List (List Char)) :
    workload (chunk :: rest) = chunk.length + workload rest + 1 := by
  simp only [workload, List.flatten_cons, List.length_append, List.length_cons]
  omega

theorem workload_fill_le (room : Nat) (pending : List (List Char)) :
    workload (fill room pending).2 ≤ workload pending := by
  fun_induction fill room pending with
  | case1 => exact Nat.le_refl _
  | case2 room chunk rest _ taken left h ih =>
    rw [h] at ih
    have hle : workload left ≤ workload rest := ih
    show workload left ≤ _
    rw [workload_cons]
    omega
  | case3 => exact Nat.le_refl _

theorem workload_fill_lt {room : Nat} {chunk : List Char} (rest : List (List Char))
    (h : chunk.length ≤ room) :
    workload (fill room (chunk :: rest)).2 < workload (chunk :: rest) := by
  have := workload_fill_le (room - chunk.length) rest
  rw [fill, if_pos h, workload_cons]
  show workload (fill (room - chunk.length) rest).2 < _
  omega

theorem length_headPiece_pos {room : Nat} {chunk : List Char} (hroom : 0 < room)
    (hchunk : 0 < chunk.length) : 0 < (headPiece room chunk).length := by
  have htake : 0 < (chunk.take room).length := by
    rw [List.length_take]
    omega
  simp only [headPiece]
  split
  · next h =>
    obtain ⟨c, hc, _⟩ := List.any_eq_true.mp h
    exact List.length_pos_of_mem hc
  · exact htake

theorem workload_dropBlankHead_le (pending : List (List Char)) :
    workload (dropBlankHead pending) ≤ workload pending := by
  cases pending with
  | nil => exact Nat.le_refl _
  | cons chunk rest =>
    rw [dropBlankHead]
    split
    · rw [workload_cons]
      omega
    · exact Nat.le_refl _

theorem workload_fillBreaking_lt {width : Nat} (hwidth : 0 < width) (chunk : List Char)
    (rest : List (List Char)) :
    workload (fillBreaking width (chunk :: rest)).2 < workload (chunk :: rest) := by
  by_cases hfit : chunk.length ≤ width
  · have hlt := workload_fill_lt rest hfit
    rw [fillBreaking]
    split
    · next heq => rw [heq] at hlt; exact hlt
    · next taken big more heq =>
      rw [heq] at hlt
      split
      · refine Nat.lt_of_le_of_lt ?_ hlt
        simp only [workload_cons, List.length_drop]
        omega
      · exact hlt
  · have hfill : fill width (chunk :: rest) = ([], chunk :: rest) := by
      rw [fill, if_neg hfit]
    have hpos : 0 < (headPiece width chunk).length := length_headPiece_pos hwidth (by omega)
    simp only [fillBreaking, hfill, if_pos (Nat.lt_of_not_le hfit), List.flatten_nil,
      List.length_nil, Nat.sub_zero, workload_cons, List.length_drop]
    omega

theorem workload_nextLine_lt {width : Nat} (hwidth : 0 < width) (first : Bool)
    (chunk : List Char) (rest : List (List Char)) :
    workload (nextLine width first (chunk :: rest)).2 < workload (chunk :: rest) := by
  simp only [nextLine]
  split
  · exact workload_fillBreaking_lt hwidth chunk rest
  · cases hdrop : dropBlankHead (chunk :: rest) with
    | nil =>
      rw [show fillBreaking width [] = ([], []) from rfl, workload_cons]
      show 0 + 0 < _
      omega
    | cons chunk' rest' =>
      exact Nat.lt_of_lt_of_le (workload_fillBreaking_lt hwidth chunk' rest')
        (hdrop ▸ workload_dropBlankHead_le (chunk :: rest))

/-! ## Wrapping -/

/-- The pieces of each line, made of the pending chunks; `first` says that no
line came before. -/
def linePieces (width : Nat) (hwidth : 0 < width) (first : Bool) :
    List (List Char) → List (List (List Char))
  | [] => []
  | chunk :: rest =>
    let step := nextLine width first (chunk :: rest)
    if step.1.isEmpty then linePieces width hwidth first step.2
    else step.1 :: linePieces width hwidth false step.2
termination_by pending => workload pending
decreasing_by all_goals exact workload_nextLine_lt hwidth first chunk rest

/-- Lines of a paragraph, of at most `width` characters and at least one. -/
def wrap (width : Nat) (paragraph : List Char) : List (List Char) :=
  (linePieces (max width 1) (by omega) true (chunks (spaced paragraph))).map List.flatten

end Bindery.Text
