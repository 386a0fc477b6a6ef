import Bindery.Proofs.Text.Turn
import Bindery.Proofs.Text.Fill
import Bindery.Proofs.Text.ByteChunk

/-!
# Wrapping by byte offsets

The wrapping loop with each operation of it that could fail: what room is left on
a line is a difference of two numbers, and a chunk is broken at a byte offset, that
of a character counted off or the one behind the last hyphen in front of it. A
failure anywhere leaves no result.

There is none (`wrap_without_fault`). The number counted up with a line is its length, which
never exceeds the width (`takeFitting_eq`); the offset behind a hyphen is that of a
character, since a hyphen is one byte (`breakOffset?_eq`); and the chunks of a text
are found without a fault as well.
-/

namespace Bindery.Text

open String (utf8Len)
open Wrapping

/-! ## Breaking a chunk -/

/-- Offset of the character with an index, or of the end. -/
def offsetAt (text : List Char) (k : Nat) : Nat := (charOffsets 0 text)[k]?.elim (utf8Len text) Prod.fst

/-- Offset of the last hyphen. -/
def lastHyphen? (text : List Char) : Option Nat :=
  ((charOffsets 0 text).reverse.find? (·.2 == '-')).map Prod.fst

/-- Where to break a chunk of which `room` characters fit. -/
def breakOffset? (room : Nat) (chunk : List Char) : Option Nat := do
  let stop := offsetAt chunk room
  match lastHyphen? (← slice? chunk 0 stop) with
  | none => return stop
  | some hyphen =>
    if ← pure (decide (0 < hyphen)) <&&> (List.any · (· != '-')) <$> slice? chunk 0 hyphen then
      return hyphen + 1
    else return stop

def breakChunk? (room : Nat) (chunk : List Char) : Option (List Char × List Char) := do
  let stop ← breakOffset? room chunk
  return (← slice? chunk 0 stop, ← slice? chunk stop (utf8Len chunk))

theorem elim_getElem?_charOffsets (offset : Nat) (text : List Char) (k : Nat) :
    (charOffsets offset text)[k]?.elim (offset + utf8Len text) Prod.fst = offset + utf8Len (text.take k) := by
  induction text generalizing offset k with
  | nil =>
      rw [List.take_nil]
      rfl
  | cons c rest ih =>
      cases k with
      | zero => rfl
      | succ k =>
          have hend : offset + (utf8Len rest + c.utf8Size) = offset + c.utf8Size + utf8Len rest := by omega
          rw [charOffsets, List.getElem?_cons_succ, List.take_succ_cons, String.utf8Len_cons,
            String.utf8Len_cons, hend, ih]
          omega

theorem offsetAt_eq (text : List Char) (k : Nat) : offsetAt text k = utf8Len (text.take k) := by
  have helim := elim_getElem?_charOffsets 0 text k
  rwa [Nat.zero_add, Nat.zero_add] at helim

theorem find?_charOffsets_of_notMem {text : List Char} (h : '-' ∉ text) (offset : Nat) :
    (charOffsets offset text).reverse.find? (·.2 == '-') = none := by
  rw [List.find?_eq_none]
  intro found hfound hhyphen
  have hmem := List.mem_map_of_mem (f := Prod.snd) (List.mem_reverse.mp hfound)
  rw [map_snd_charOffsets, eq_of_beq hhyphen] at hmem
  exact h hmem

theorem lastHyphen?_of_notMem {text : List Char} (h : '-' ∉ text) : lastHyphen? text = none := by
  rw [lastHyphen?, find?_charOffsets_of_notMem h]
  rfl

theorem lastHyphen?_append {rest : List Char} (h : '-' ∉ rest) (body : List Char) :
    lastHyphen? (body ++ '-' :: rest) = some (utf8Len body) := by
  rw [lastHyphen?, charOffsets_append, charOffsets, List.reverse_append, List.reverse_cons, List.append_assoc,
    List.find?_append, find?_charOffsets_of_notMem h]
  simp

theorem lt_and_any_append_hyphen (body : List Char) :
    (decide (0 < utf8Len body) && body.any (· != '-')) = (body ++ ['-']).any (· != '-') := by
  cases body with
  | nil => rfl
  | cons c rest =>
      have hpos : 0 < utf8Len (c :: rest) := Nat.lt_of_lt_of_le c.utf8Size_pos (Nat.le_add_left _ _)
      rw [decide_eq_true hpos, Bool.true_and]
      simp

/-- A chunk is broken behind its piece. -/
theorem breakOffset?_eq (room : Nat) (chunk : List Char) :
    breakOffset? room chunk = some (utf8Len (headPiece room chunk)) := by
  obtain ⟨rest, hrest, happend⟩ := exists_throughLastHyphen_append (chunk.take room)
  simp only [breakOffset?, offsetAt_eq, headPiece, slice?_prefix (List.take_prefix room chunk),
    Option.bind_eq_bind, Option.bind_some]
  by_cases hnil : throughLastHyphen (chunk.take room) = []
  · rw [hnil, List.nil_append] at happend
    rw [hnil, ← happend, lastHyphen?_of_notMem hrest]
    rfl
  · obtain ⟨body, hbody⟩ := exists_throughLastHyphen_eq hnil
    rw [hbody, List.append_assoc, List.singleton_append] at happend
    have hhyphen : lastHyphen? (chunk.take room) = some (utf8Len body) :=
      happend ▸ lastHyphen?_append hrest body
    have hbefore : body <+: chunk.take room := happend ▸ List.prefix_append body ('-' :: rest)
    have hslice := slice?_prefix (hbefore.trans (List.take_prefix room chunk))
    rw [hbody, hhyphen, ← lt_and_any_append_hyphen]
    simp only [hslice, Option.map_eq_map, Option.map_some, Option.pure_def, some_andM_some, Option.bind_some]
    split
    · rw [String.utf8Len_append]
      rfl
    · rfl

theorem breakChunk?_eq (room : Nat) (chunk : List Char) : breakChunk? room chunk =
    some (headPiece room chunk, chunk.drop (headPiece room chunk).length) := by
  have hhead := slice?_prefix (headPiece_prefix_self room chunk)
  have hrest := slice?_suffix (headPiece room chunk) (chunk.drop (headPiece room chunk).length)
  rw [headPiece_append_drop] at hrest
  rw [breakChunk?, breakOffset?_eq]
  simp only [hhead, hrest, Option.bind_eq_bind, Option.bind_some, Option.pure_def]

/-- Three characters fit, which are five bytes; the hyphen is at the offset 2. -/
example : breakChunk? 3 "é-äö".toList = some ("é-".toList, "äö".toList) := by decide +kernel

/-! ## Filling a line -/

/-- Chunks that fit on a line, with its characters counted. -/
def takeFitting (width : Nat) (line : List (List Char)) (length : Nat) :
    List (List Char) → List (List Char) × Nat × List (List Char)
  | [] => (line, length, [])
  | chunk :: rest =>
    if width < length + chunk.length then (line, length, chunk :: rest)
    else takeFitting width (line ++ [chunk]) (length + chunk.length) rest

def fillBreaking? (width : Nat) (pending : List (List Char)) :
    Option (List (List Char) × List (List Char)) := do
  let (line, length, rest) := takeFitting width [] 0 pending
  match rest with
  | [] => return (line, [])
  | chunk :: more =>
    if width < chunk.length then
      let (piece, left) ← breakChunk? (← minus? width length) chunk
      return (line ++ [piece], left :: more)
    else return (line, chunk :: more)

theorem takeFitting_eq {width length : Nat} (hle : length ≤ width) (line pending : List (List Char)) :
    takeFitting width line length pending =
      (line ++ (fill (width - length) pending).1, length + (fill (width - length) pending).1.flatten.length,
        (fill (width - length) pending).2) := by
  induction pending generalizing line length with
  | nil => simp [takeFitting, fill]
  | cons chunk rest ih =>
      rw [takeFitting, fill]
      by_cases hfits : length + chunk.length ≤ width
      · rw [if_neg (Nat.not_lt_of_le hfits), if_pos (by omega), ih hfits, Nat.sub_sub]
        simp [Nat.add_assoc]
      · rw [if_pos (Nat.lt_of_not_le hfits), if_neg (by omega)]
        simp

theorem fillBreaking?_eq (width : Nat) (pending : List (List Char)) :
    fillBreaking? width pending = some (fillBreaking width pending) := by
  have hlen := length_fill_le width pending
  have htake := takeFitting_eq (Nat.zero_le width) [] pending
  rw [List.nil_append, Nat.zero_add, Nat.sub_zero] at htake
  rw [fillBreaking?, htake, fillBreaking]
  cases hfill : fill width pending with
  | mk taken left =>
      rw [hfill] at hlen
      cases left with
      | nil => rfl
      | cons chunk rest =>
          simp only [minus?_of_le hlen, breakChunk?_eq, Option.bind_eq_bind, Option.bind_some]
          split <;> rfl

/-! ## The loop -/

/-- One line more. -/
def turn? (width : Nat) (now : Wrapping) : Option Wrapping := do
  let pending := if now.lines.isEmpty then now.pending else dropBlankHead now.pending
  let (filled, rest) ← fillBreaking? width pending
  let line := dropBlankLast filled
  return ⟨rest, if line.isEmpty then now.lines else now.lines ++ [line.flatten]⟩

theorem turn?_eq (width : Nat) (now : Wrapping) : turn? width now = some (now.turn width) := by
  rw [turn?, fillBreaking?_eq]
  rfl

theorem workload_of_turn? {width : Nat} (hwidth : 0 < width) {chunk : List Char} {rest lines : List (List Char)}
    {next : Wrapping} (h : turn? width ⟨chunk :: rest, lines⟩ = some next) :
    workload next.pending < workload (chunk :: rest) := by
  obtain rfl := Option.some.inj ((turn?_eq width _).symm.trans h)
  exact workload_nextLine_lt hwidth lines.isEmpty chunk rest

/-- The lines that turns of the loop add, until nothing is pending. -/
def turnAll? (width : Nat) (hwidth : 0 < width) : Wrapping → Option (List (List Char))
  | ⟨[], lines⟩ => some lines
  | ⟨chunk :: rest, lines⟩ =>
    match hturn : turn? width ⟨chunk :: rest, lines⟩ with
    | none => none
    | some next =>
      have := workload_of_turn? hwidth hturn
      turnAll? width hwidth next
termination_by now => workload now.pending

theorem max_one_pos (width : Nat) : 0 < max width 1 := Nat.le_max_right width 1

def wrap? (width : Nat) (text : List Char) : Option (List (List Char)) := do
  turnAll? (max width 1) (max_one_pos width) ⟨← splitChunks? (spaced text), []⟩

theorem turnAll?_of_turn {width : Nat} {now next : Wrapping} (hwidth : 0 < width) (h : Turn width now next) :
    turnAll? width hwidth now = turnAll? width hwidth next := by
  obtain ⟨hne, rfl⟩ := h
  obtain ⟨pending, lines⟩ := now
  obtain ⟨chunk, rest, rfl⟩ := List.exists_cons_of_ne_nil hne
  rw [turnAll?]
  split
  · next hnone => exact absurd ((turn?_eq width _).symm.trans hnone) (Option.some_ne_none _)
  · next later hsome => rw [Option.some.inj ((turn?_eq width _).symm.trans hsome)]

theorem turnAll?_of_turns {width : Nat} {now next : Wrapping} (hwidth : 0 < width) (h : Turns width now next) :
    turnAll? width hwidth now = turnAll? width hwidth next := by
  induction h with
  | refl => rfl
  | tail _ hturn ih => exact ih.trans (turnAll?_of_turn hwidth hturn)

/-- **Nothing fails in wrapping**, of any text and at any width: each difference is
of numbers in order, and each part is taken at the boundaries of characters. -/
theorem wrap_without_fault (width : Nat) (text : List Char) : wrap? width text = some (wrap width text) := by
  have hrun : Turns (max width 1) ⟨chunks (spaced text), []⟩ ⟨[], wrap width text⟩ :=
    turns_linePieces (max_one_pos width) (chunks (spaced text)) []
  rw [wrap?, splitChunks?_eq, Option.bind_eq_bind, Option.bind_some, turnAll?_of_turns _ hrun, turnAll?]

end Bindery.Text
