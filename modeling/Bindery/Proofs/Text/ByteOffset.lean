import Mathlib.Data.String.Basic

/-!
# Texts by byte offsets

A text is stored in UTF-8, and parts of it are named by offsets in its bytes. An
offset need not fall between two characters, so taking a part can fail
(`slice?`), and so can going back from an offset or an index (`minus?`). Of a text
in pieces, the offsets between the pieces are good ones, and the part between two
of them is a piece (`slice?_append`).

Offsets are found by walking the characters (`charOffsets`): each comes with the
number of bytes before it.
-/

namespace Bindery.Text

open String (utf8Len)

/-! ## Partial operations -/

/-- Part of a text, from one byte offset to another. There is none unless the
offsets are in order, each of them within the text and at the boundary of a
character. -/
def slice? (text : List Char) (start stop : Nat) : Option (List Char) :=
  let s := String.ofList text
  if start ≤ stop ∧ String.Pos.Raw.IsValid s ⟨start⟩ ∧ String.Pos.Raw.IsValid s ⟨stop⟩ then
    some (String.Pos.Raw.extract s ⟨start⟩ ⟨stop⟩).toList
  else none

/-- A difference, unless it is negative. -/
def minus? (m n : Nat) : Option Nat := if n ≤ m then some (m - n) else none

theorem minus?_of_le {m n : Nat} (h : n ≤ m) : minus? m n = some (m - n) := if_pos h

theorem isValid_append (front rest : List Char) :
    String.Pos.Raw.IsValid (String.ofList (front ++ rest)) ⟨utf8Len front⟩ := by
  rw [String.Pos.Raw.isValid_iff_exists_append]
  exact ⟨String.ofList front, String.ofList rest, String.ofList_append, by simp⟩

theorem slice?_append (before part after : List Char) :
    slice? (before ++ part ++ after) (utf8Len before) (utf8Len (before ++ part)) = some part := by
  have hstart : String.Pos.Raw.IsValid (String.ofList (before ++ part ++ after)) ⟨utf8Len before⟩ := by
    rw [List.append_assoc]
    exact isValid_append before (part ++ after)
  have hle : utf8Len before ≤ utf8Len (before ++ part) := by
    rw [String.utf8Len_append]
    exact Nat.le_add_right _ _
  simp only [slice?]
  rw [if_pos ⟨hle, hstart, isValid_append (before ++ part) after⟩, String.utf8Len_append,
    String.extract_of_valid, String.toList_ofList]

theorem slice?_suffix (before part : List Char) :
    slice? (before ++ part) (utf8Len before) (utf8Len (before ++ part)) = some part := by
  have hslice := slice?_append before part []
  rwa [List.append_nil] at hslice

theorem slice?_prefix {text part : List Char} (h : part <+: text) :
    slice? text 0 (utf8Len part) = some part := by
  obtain ⟨after, rfl⟩ := h
  exact slice?_append [] part after

/-! ## Characters and their offsets -/

/-- Each character behind its byte offset, the first of them at the one that is given. -/
def charOffsets (offset : Nat) : List Char → List (Nat × Char)
  | [] => []
  | c :: rest => (offset, c) :: charOffsets (offset + c.utf8Size) rest

theorem charOffsets_append (offset : Nat) (front rest : List Char) :
    charOffsets offset (front ++ rest) =
      charOffsets offset front ++ charOffsets (offset + utf8Len front) rest := by
  induction front generalizing offset with
  | nil => rfl
  | cons c front ih =>
      rw [List.cons_append, charOffsets, charOffsets, ih, List.cons_append, String.utf8Len_cons,
        Nat.add_comm (utf8Len front), Nat.add_assoc]

theorem map_snd_charOffsets (offset : Nat) (text : List Char) :
    (charOffsets offset text).map Prod.snd = text := by
  induction text generalizing offset with
  | nil => rfl
  | cons c rest ih => rw [charOffsets, List.map_cons, ih]

end Bindery.Text
