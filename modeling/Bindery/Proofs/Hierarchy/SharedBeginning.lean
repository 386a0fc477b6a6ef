import Mathlib.Data.List.Forall2
import Bindery.Proofs.Hierarchy.Lineage

/-!
# The longest beginning that lineages share

The walk takes its answer from the first lineage and stops in the middle of a
round. What it finds favours no lineage: the last element of the longest
beginning that all of them share, up to `==` (`commonAncestor_longestShared`).
The trunk is such a beginning (`longestShared_trunk`), and any two of them are
the same element by element (`LongestShared.alike`).

So the outcome depends on nothing but what is shared
(`sameOutcome_of_shared_iff`): not on the order or the number of the lineages,
and not on what stands in them after a place where they do not agree.
-/

namespace Bindery.Lineage

variable {α : Type} [BEq α] {lineages lineages' : List (List α)} {lineage p q r : List α}
  {a : α} {n : Nat}

/-! ## Element by element -/

/-- As long, and `==` at every place. -/
def Alike (p q : List α) : Prop := List.Forall₂ (fun a b => (a == b) = true) p q

namespace Alike

theorem symm [PartialEquivBEq α] (h : Alike p q) : Alike q p := h.flip.imp fun _ _ => BEq.symm

theorem trans [PartialEquivBEq α] (hpq : Alike p q) (hqr : Alike q r) : Alike p r := by
  induction hpq generalizing r with
  | nil => exact hqr
  | cons hab _ ih =>
      cases hqr with
      | cons hbc hqr => exact .cons (BEq.trans hab hbc) (ih hqr)

theorem eq_concat (h : Alike (p ++ [a]) q) : ∃ front b, q = front ++ [b] ∧ (a == b) = true := by
  rcases List.eq_nil_or_concat' q with rfl | ⟨front, b, rfl⟩
  · have hlen := h.length_eq
    simp at hlen
  · have hback := List.forall₂_reverse_iff.mpr h
    rw [List.reverse_concat, List.reverse_concat, List.forall₂_cons] at hback
    exact ⟨front, b, rfl, hback.1⟩

end Alike

theorem isPrefixOf_iff_alike :
    p.isPrefixOf lineage = true ↔ Alike p (lineage.take p.length) := by
  induction p generalizing lineage with
  | nil => simp [Alike]
  | cons a p ih =>
      cases lineage with
      | nil => simp [Alike]
      | cons b lineage =>
          rw [List.isPrefixOf_cons_cons, Bool.and_eq_true, ih, List.length_cons, List.take_succ_cons,
            Alike, Alike, List.forall₂_cons]

/-! ## Shared beginnings -/

def Shared (lineages : List (List α)) (p : List α) : Prop :=
  ∀ lineage ∈ lineages, p.isPrefixOf lineage = true

structure LongestShared (lineages : List (List α)) (p : List α) : Prop where
  shared : Shared lineages p
  longest : ∀ q, Shared lineages q → q.length ≤ p.length

/-- Beginnings of one lineage that are as long are alike. -/
theorem LongestShared.alike [PartialEquivBEq α] (hne : lineages ≠ []) (hp : LongestShared lineages p)
    (hq : LongestShared lineages q) : Alike p q := by
  obtain ⟨lineage, others, rfl⟩ := List.exists_cons_of_ne_nil hne
  have hlen := Nat.le_antisymm (hq.longest p hp.shared) (hp.longest q hq.shared)
  have hp' := isPrefixOf_iff_alike.mp (hp.shared lineage List.mem_cons_self)
  have hq' := isPrefixOf_iff_alike.mp (hq.shared lineage List.mem_cons_self)
  rw [← hlen] at hq'
  exact hp'.trans hq'.symm

theorem shared_trunk [EquivBEq α] (lineage : List α) (others : List (List α)) :
    Shared (lineage :: others) (trunk lineage others) := by
  obtain ⟨hpre, hothers⟩ := prefix_trunk_iff.mp (List.prefix_refl (trunk lineage others))
  refine List.forall_mem_cons.mpr ⟨isPrefixOf_iff_alike.mpr ?_, hothers⟩
  rw [← List.prefix_iff_eq_take.mp hpre]
  exact List.forall₂_same.mpr fun _ _ => BEq.rfl

theorem longestShared_trunk [EquivBEq α] (lineage : List α) (others : List (List α)) :
    LongestShared (lineage :: others) (trunk lineage others) := by
  refine ⟨shared_trunk lineage others, fun q hq => ?_⟩
  obtain ⟨hfirst, hothers⟩ := List.forall_mem_cons.mp hq
  have hq := isPrefixOf_iff_alike.mp hfirst
  -- The same beginning, with the elements of the first lineage.
  have hpre : lineage.take q.length <+: trunk lineage others := by
    refine prefix_trunk_iff.mpr ⟨List.take_prefix _ lineage, fun other hother => ?_⟩
    rw [isPrefixOf_iff_alike, ← hq.length_eq]
    exact hq.symm.trans (isPrefixOf_iff_alike.mp (hothers other hother))
  rw [hq.length_eq]
  exact hpre.length_le

theorem exists_longestShared [EquivBEq α] (hne : lineages ≠ []) : ∃ p, LongestShared lineages p := by
  obtain ⟨lineage, others, rfl⟩ := List.exists_cons_of_ne_nil hne
  exact ⟨_, longestShared_trunk lineage others⟩

/-! ## Outcomes -/

theorem commonAncestor_eq_empty_iff : commonAncestor lineages = .error .empty ↔ lineages = [] := by
  cases lineages with
  | nil => exact iff_of_true rfl rfl
  | cons lineage others =>
      rw [commonAncestor_cons_eq_error_iff]
      exact iff_of_false (fun h => nomatch h.2) (List.cons_ne_nil lineage others)

theorem commonAncestor_eq_noCommonRoot_iff [EquivBEq α] :
    commonAncestor lineages = .error .noCommonRoot ↔
      lineages ≠ [] ∧ LongestShared lineages [] := by
  cases lineages with
  | nil => exact iff_of_false nofun fun h => h.1 rfl
  | cons lineage others =>
      rw [commonAncestor_cons_eq_error_iff, and_iff_left rfl,
        and_iff_right (List.cons_ne_nil lineage others)]
      constructor
      · intro hnil
        exact hnil ▸ longestShared_trunk lineage others
      · intro hnil
        have halike := hnil.alike (List.cons_ne_nil lineage others) (longestShared_trunk lineage others)
        exact List.forall₂_nil_left_iff.mp halike

theorem commonAncestor_of_longestShared [EquivBEq α] (hne : lineages ≠ [])
    (h : LongestShared lineages (p ++ [a])) :
    ∃ b, commonAncestor lineages = .ok b ∧ (a == b) = true := by
  obtain ⟨lineage, others, rfl⟩ := List.exists_cons_of_ne_nil hne
  obtain ⟨front, b, htrunk, hab⟩ := (h.alike hne (longestShared_trunk lineage others)).eq_concat
  refine ⟨b, commonAncestor_cons_eq_ok_iff.mpr ?_, hab⟩
  rw [htrunk, List.getLast?_concat]

/-- The same error, or results that are `==`. -/
def SameOutcome : Except AncestryError α → Except AncestryError α → Prop
  | .ok a, .ok b => (a == b) = true
  | .error e, .error e' => e = e'
  | _, _ => False

/-- What is shared decides. -/
theorem sameOutcome_of_shared_iff [EquivBEq α] (hempty : lineages = [] ↔ lineages' = [])
    (h : ∀ p, Shared lineages p ↔ Shared lineages' p) :
    SameOutcome (commonAncestor lineages) (commonAncestor lineages') := by
  by_cases hne : lineages = []
  · rw [hempty.mp hne, hne]
    rfl
  · have hne' : lineages' ≠ [] := fun hnil => hne (hempty.mpr hnil)
    obtain ⟨p, hp⟩ := exists_longestShared hne
    have hp' : LongestShared lineages' p :=
      ⟨(h p).mp hp.shared, fun q hq => hp.longest q ((h q).mpr hq)⟩
    rcases List.eq_nil_or_concat' p with rfl | ⟨p, a, rfl⟩
    · rw [commonAncestor_eq_noCommonRoot_iff.mpr ⟨hne, hp⟩,
        commonAncestor_eq_noCommonRoot_iff.mpr ⟨hne', hp'⟩]
      rfl
    · obtain ⟨b, hb, hab⟩ := commonAncestor_of_longestShared hne hp
      obtain ⟨b', hb', hab'⟩ := commonAncestor_of_longestShared hne' hp'
      rw [hb, hb']
      exact BEq.trans (BEq.symm hab) hab'

/-! ## After the parting -/

/-- All lineages reach so far, and hold the same element there. -/
def AgreeAt (lineages : List (List α)) (n : Nat) : Prop :=
  ∃ a, ∀ lineage ∈ lineages, ∃ b ∈ lineage[n]?, (a == b) = true

/-- Some elements more, none of them at position `n` or before it. -/
def AppendedAfter (n : Nat) (lineage lineage' : List α) : Prop :=
  ∃ more, lineage' = lineage ++ more ∧ (more = [] ∨ n < lineage.length)

theorem Shared.length_le (h : Shared lineages p) (hpart : ¬AgreeAt lineages n) : p.length ≤ n := by
  refine Nat.le_of_not_lt fun hlt => hpart ⟨p[n], fun lineage hlineage => ?_⟩
  have halike := isPrefixOf_iff_alike.mp (h lineage hlineage)
  have hn := halike.length_eq ▸ hlt
  refine ⟨(lineage.take p.length)[n], ?_, halike.get hlt hn⟩
  rw [List.getElem_take]
  exact List.getElem?_eq_getElem _

theorem shared_map_take_iff {k : Nat} (hlen : p.length ≤ k) :
    Shared (lineages.map (List.take k)) p ↔ Shared lineages p := by
  rw [Shared, List.forall_mem_map]
  refine forall₂_congr fun lineage _ => ?_
  rw [isPrefixOf_iff_alike, isPrefixOf_iff_alike, List.take_take, Nat.min_eq_left hlen]

theorem agreeAt_map_take_iff : AgreeAt (lineages.map (List.take (n + 1))) n ↔ AgreeAt lineages n := by
  refine exists_congr fun a => ?_
  rw [List.forall_mem_map]
  refine forall₂_congr fun lineage _ => ?_
  rw [List.getElem?_take_of_lt (Nat.lt_succ_self n)]

/-- Where lineages do not agree, nothing after it is shared. -/
theorem shared_map_take_of_part (hpart : ¬AgreeAt lineages n) :
    Shared (lineages.map (List.take (n + 1))) p ↔ Shared lineages p := by
  constructor
  · intro h
    have hlen := h.length_le (agreeAt_map_take_iff.not.mpr hpart)
    exact (shared_map_take_iff (Nat.le_succ_of_le hlen)).mp h
  · intro h
    exact (shared_map_take_iff (Nat.le_succ_of_le (h.length_le hpart))).mpr h

omit [BEq α] in
theorem map_take_of_appendedAfter (h : List.Forall₂ (AppendedAfter n) lineages lineages') :
    lineages'.map (List.take (n + 1)) = lineages.map (List.take (n + 1)) := by
  induction h with
  | nil => rfl
  | cons happended _ ih =>
      obtain ⟨more, rfl, hmore⟩ := happended
      rw [List.map_cons, List.map_cons, ih]
      refine congrArg (· :: _) ?_
      rcases hmore with rfl | hlt
      · rw [List.append_nil]
      · exact List.take_append_of_le_length hlt

theorem sameOutcome_of_appendedAfter [EquivBEq α] (hpart : ¬AgreeAt lineages n)
    (h : List.Forall₂ (AppendedAfter n) lineages lineages') :
    SameOutcome (commonAncestor lineages') (commonAncestor lineages) := by
  have htake := map_take_of_appendedAfter h
  have hpart' : ¬AgreeAt lineages' n := by
    rwa [← agreeAt_map_take_iff, htake, agreeAt_map_take_iff]
  refine sameOutcome_of_shared_iff ?_ fun p => ?_
  · rw [← List.length_eq_zero_iff, ← List.length_eq_zero_iff, h.length_eq]
  · rw [← shared_map_take_of_part hpart', htake, shared_map_take_of_part hpart]

/-- **The outcome is the end of the longest shared beginning**, up to `==`. So
neither the order of the lineages nor repeated ones change it, nor does what is
appended to them after a position where they do not agree. -/
theorem commonAncestor_longestShared [EquivBEq α] (lineages : List (List α)) :
    (commonAncestor lineages = .error .empty ↔ lineages = [])
    ∧ (commonAncestor lineages = .error .noCommonRoot ↔ lineages ≠ [] ∧ LongestShared lineages [])
    ∧ (lineages ≠ [] → ∃ p, LongestShared lineages p)
    ∧ (∀ p a, lineages ≠ [] → LongestShared lineages (p ++ [a]) →
        ∃ b, commonAncestor lineages = .ok b ∧ (a == b) = true)
    ∧ (∀ lineages', (∀ lineage, lineage ∈ lineages' ↔ lineage ∈ lineages) →
        SameOutcome (commonAncestor lineages') (commonAncestor lineages))
    ∧ ∀ n lineages', ¬AgreeAt lineages n → List.Forall₂ (AppendedAfter n) lineages lineages' →
        SameOutcome (commonAncestor lineages') (commonAncestor lineages) := by
  refine ⟨commonAncestor_eq_empty_iff, commonAncestor_eq_noCommonRoot_iff, exists_longestShared,
    fun p a => commonAncestor_of_longestShared, fun lineages' hmem => ?_, fun n lineages' => ?_⟩
  · refine sameOutcome_of_shared_iff ?_ fun p => ?_
    · simp only [List.eq_nil_iff_forall_not_mem, hmem]
    · simp only [Shared, hmem]
  · exact sameOutcome_of_appendedAfter

/-- The lineages part at their third element, so it is all the same which comes
first, how often, and whether one goes on. -/
theorem commonAncestor_longestShared_shapes :
    LongestShared [["Root", "Shape", "Circle"], ["Root", "Shape", "Square"]] (["Root"] ++ ["Shape"])
    ∧ commonAncestor [["Root", "Shape", "Circle"], ["Root", "Shape", "Square"]] = .ok "Shape"
    ∧ ¬AgreeAt [["Root", "Shape", "Circle"], ["Root", "Shape", "Square"]] 2
    ∧ SameOutcome
        (commonAncestor [["Root", "Shape", "Square"], ["Root", "Shape", "Circle"],
          ["Root", "Shape", "Square"]])
        (commonAncestor [["Root", "Shape", "Circle"], ["Root", "Shape", "Square"]])
    ∧ SameOutcome
        (commonAncestor [["Root", "Shape", "Circle", "Disc"], ["Root", "Shape", "Square"]])
        (commonAncestor [["Root", "Shape", "Circle"], ["Root", "Shape", "Square"]]) := by
  obtain ⟨-, -, -, hend, hmembers, happended⟩ :=
    commonAncestor_longestShared [["Root", "Shape", "Circle"], ["Root", "Shape", "Square"]]
  have hpart : ¬AgreeAt [["Root", "Shape", "Circle"], ["Root", "Shape", "Square"]] 2 := by
    rintro ⟨a, ha⟩
    obtain ⟨b, hb, hcircle⟩ := ha ["Root", "Shape", "Circle"] (by decide)
    obtain ⟨c, hc, hsquare⟩ := ha ["Root", "Shape", "Square"] (by decide)
    obtain rfl := Option.some.inj hb
    obtain rfl := Option.some.inj hc
    have hsame := (beq_iff_eq.mp hcircle).symm.trans (beq_iff_eq.mp hsquare)
    exact absurd hsame (by decide)
  have hlongest : LongestShared [["Root", "Shape", "Circle"], ["Root", "Shape", "Square"]]
      (["Root"] ++ ["Shape"]) :=
    ⟨by unfold Shared; decide, fun q hq => hq.length_le hpart⟩
  obtain ⟨b, hb, hshape⟩ := hend ["Root"] "Shape" (by decide) hlongest
  obtain rfl := beq_iff_eq.mp hshape
  refine ⟨hlongest, hb, hpart, hmembers _ fun lineage => ?_, happended 2 _ hpart ?_⟩
  · simp only [List.mem_cons, List.not_mem_nil, or_false]
    tauto
  · exact .cons ⟨["Disc"], rfl, Or.inr (by decide)⟩ (.cons ⟨[], rfl, Or.inl rfl⟩ .nil)

end Bindery.Lineage
