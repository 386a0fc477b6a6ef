import Mathlib.Data.List.Basic
import Mathlib.Data.List.TakeWhile
import Bindery.Unicode.WhiteSpace

/-!
# Solid ends

A text starts or ends solid if its first or last character is there and is
not white space. Trimming a text that is not blank makes both of its ends
solid, and trimming a solid end changes nothing.
-/

namespace Bindery.Unicode

variable {cs ds : List Char}

theorem isBlank_iff : isBlank cs = true ↔ ∀ c ∈ cs, isWhiteSpace c = true := by
  simp [isBlank]

theorem isBlank_eq_false_iff : isBlank cs = false ↔ ∃ c ∈ cs, isWhiteSpace c = false := by
  simp [isBlank]

@[simp] theorem isBlank_cons {c : Char} : isBlank (c :: cs) = (isWhiteSpace c && isBlank cs) :=
  List.all_cons

@[simp] theorem isBlank_append : isBlank (cs ++ ds) = (isBlank cs && isBlank ds) := by
  simp [isBlank]

theorem isBlank_replicate_space (n : Nat) : isBlank (List.replicate n ' ') = true := by
  refine isBlank_iff.mpr fun c hc => ?_
  obtain rfl := List.eq_of_mem_replicate hc
  decide

@[simp] theorem isBlank_reverse : isBlank cs.reverse = isBlank cs := by
  simp [isBlank]

/-! ## Ends -/

def StartsSolid (cs : List Char) : Prop := ∃ c ∈ cs.head?, isWhiteSpace c = false

def EndsSolid (cs : List Char) : Prop := ∃ c ∈ cs.getLast?, isWhiteSpace c = false

instance (cs : List Char) : Decidable (StartsSolid cs) :=
  decidable_of_iff (cs.head?.any (!isWhiteSpace ·) = true) <| by
    simp only [StartsSolid, Option.any_eq_true, Bool.not_eq_true', Option.mem_def]

@[simp] theorem startsSolid_reverse : StartsSolid cs.reverse ↔ EndsSolid cs := by
  simp [StartsSolid, EndsSolid]

@[simp] theorem endsSolid_reverse : EndsSolid cs.reverse ↔ StartsSolid cs := by
  simp [StartsSolid, EndsSolid]

@[simp] theorem startsSolid_cons {c : Char} : StartsSolid (c :: cs) ↔ isWhiteSpace c = false := by
  simp [StartsSolid]

theorem StartsSolid.append (h : StartsSolid cs) (ds : List Char) : StartsSolid (cs ++ ds) := by
  cases cs with
  | nil => obtain ⟨c, hc, _⟩ := h; cases hc
  | cons c cs => exact startsSolid_cons.mpr (startsSolid_cons.mp h)

theorem EndsSolid.append (cs : List Char) (h : EndsSolid ds) : EndsSolid (cs ++ ds) := by
  rw [← startsSolid_reverse, List.reverse_append]
  exact (startsSolid_reverse.mpr h).append cs.reverse

theorem not_endsSolid_append (cs : List Char) (hne : ds ≠ []) (h : isBlank ds = true) :
    ¬EndsSolid (cs ++ ds) := by
  rintro ⟨c, hc, hsolid⟩
  rw [List.getLast?_append_of_ne_nil cs hne] at hc
  cases (isBlank_iff.mp h c (List.mem_of_mem_getLast? hc)).symm.trans hsolid

theorem StartsSolid.ne_nil (h : StartsSolid cs) : cs ≠ [] := by
  rintro rfl
  obtain ⟨c, hc, _⟩ := h
  cases hc

theorem EndsSolid.ne_nil (h : EndsSolid cs) : cs ≠ [] := by
  rintro rfl
  obtain ⟨c, hc, _⟩ := h
  cases hc

theorem StartsSolid.isBlank (h : StartsSolid cs) : isBlank cs = false := by
  obtain ⟨c, hc, hsolid⟩ := h
  exact isBlank_eq_false_iff.mpr ⟨c, List.mem_of_mem_head? hc, hsolid⟩

theorem startsSolid_of_forall (hne : cs ≠ []) (h : ∀ c ∈ cs, isWhiteSpace c = false) :
    StartsSolid cs := by
  cases cs with
  | nil => exact absurd rfl hne
  | cons c cs => exact startsSolid_cons.mpr (h c List.mem_cons_self)

theorem endsSolid_of_forall (hne : cs ≠ []) (h : ∀ c ∈ cs, isWhiteSpace c = false) :
    EndsSolid cs := by
  rw [← startsSolid_reverse]
  exact startsSolid_of_forall (List.reverse_ne_nil_iff.mpr hne)
    fun c hc => h c (List.mem_reverse.mp hc)

/-! ## Trimming -/

theorem trimStart_of_startsSolid (h : StartsSolid cs) : trimStart cs = cs := by
  cases cs with
  | nil => rfl
  | cons c cs =>
      rw [trimStart, List.dropWhile_cons_of_neg]
      rw [startsSolid_cons.mp h]
      decide

theorem trimEnd_of_endsSolid (h : EndsSolid cs) : trimEnd cs = cs := by
  rw [trimEnd, trimStart_of_startsSolid (startsSolid_reverse.mpr h), List.reverse_reverse]

theorem trimStart_of_isBlank (h : isBlank cs = true) : trimStart cs = [] := by
  rw [trimStart, List.dropWhile_eq_nil_iff]
  exact isBlank_iff.mp h

theorem startsSolid_trimStart (h : isBlank cs = false) : StartsSolid (trimStart cs) := by
  induction cs with
  | nil => cases h
  | cons c cs ih =>
      rw [trimStart, List.dropWhile_cons]
      split
      · next hc =>
        exact ih (by simpa [isBlank, hc] using h)
      · next hc => exact startsSolid_cons.mpr (Bool.not_eq_true _ ▸ hc)

theorem endsSolid_trimEnd (h : isBlank cs = false) : EndsSolid (trimEnd cs) := by
  rw [trimEnd, endsSolid_reverse]
  exact startsSolid_trimStart (isBlank_reverse.trans h)

theorem trimEnd_prefix_self (cs : List Char) : trimEnd cs <+: cs := by
  rw [← List.reverse_suffix, trimEnd, List.reverse_reverse]
  exact List.dropWhile_suffix _

/-- Only white space is lost. -/
theorem exists_trimEnd_append (cs : List Char) :
    ∃ blank, isBlank blank = true ∧ trimEnd cs ++ blank = cs := by
  refine ⟨(cs.reverse.takeWhile isWhiteSpace).reverse, ?_, ?_⟩
  · rw [isBlank_reverse]
    exact isBlank_iff.mpr fun _ => List.mem_takeWhile_imp
  · rw [trimEnd, trimStart, ← List.reverse_append, List.takeWhile_append_dropWhile,
      List.reverse_reverse]

theorem trim_infix_self (cs : List Char) : trim cs <:+: cs :=
  (trimEnd_prefix_self _).isInfix.trans (List.dropWhile_suffix _).isInfix

theorem trimEnd_append (cs : List Char) (h : isBlank ds = false) :
    trimEnd (cs ++ ds) = cs ++ trimEnd ds := by
  have hne : (trimStart ds.reverse).isEmpty = false :=
    List.isEmpty_eq_false_iff.mpr (startsSolid_trimStart (isBlank_reverse.trans h)).ne_nil
  rw [trimEnd, trimStart, List.reverse_append, List.dropWhile_append, ← trimStart, hne]
  exact (List.reverse_append).trans (congrArg (· ++ _) (List.reverse_reverse cs))

theorem trimEnd_append_blank (cs : List Char) (h : isBlank ds = true) :
    trimEnd (cs ++ ds) = trimEnd cs := by
  unfold trimEnd trimStart
  rw [List.reverse_append,
    List.dropWhile_append_of_pos (isBlank_iff.mp (isBlank_reverse.trans h))]

theorem trim_append_blank (cs : List Char) (h : isBlank ds = true) :
    trim (cs ++ ds) = trim cs := by
  cases hcs : isBlank cs with
  | true =>
      have hall : isBlank (cs ++ ds) = true := by rw [isBlank_append, hcs, h, Bool.and_self]
      unfold trim
      rw [trimStart_of_isBlank hall, trimStart_of_isBlank hcs]
  | false =>
      have hne := List.isEmpty_eq_false_iff.mpr (startsSolid_trimStart hcs).ne_nil
      have hfront : trimStart (cs ++ ds) = trimStart cs ++ ds := by
        unfold trimStart at hne ⊢
        rw [List.dropWhile_append, hne, if_neg Bool.false_ne_true]
      unfold trim
      rw [hfront, trimEnd_append_blank _ h]

theorem StartsSolid.trimEnd (h : StartsSolid cs) : StartsSolid (trimEnd cs) := by
  obtain ⟨rest, hrest⟩ := trimEnd_prefix_self cs
  have hends := endsSolid_trimEnd h.isBlank
  cases hcut : Unicode.trimEnd cs with
  | nil =>
      rw [hcut] at hends
      obtain ⟨c, hc, _⟩ := hends
      cases hc
  | cons c cut =>
      rw [← hrest, hcut] at h
      exact startsSolid_cons.mpr (startsSolid_cons.mp h)

theorem startsSolid_trim (h : isBlank cs = false) : StartsSolid (trim cs) :=
  (startsSolid_trimStart h).trimEnd

theorem endsSolid_trim (h : isBlank cs = false) : EndsSolid (trim cs) :=
  endsSolid_trimEnd (startsSolid_trimStart h).isBlank

theorem trim_eq_nil_iff : trim cs = [] ↔ isBlank cs = true := by
  constructor
  · intro h
    cases hblank : isBlank cs with
    | true => rfl
    | false => exact absurd h (startsSolid_trim hblank).ne_nil
  · intro h
    rw [trim, trimStart_of_isBlank h]
    rfl

end Bindery.Unicode
