import Bindery.Hierarchy.Lineage

/-!
# The trunk of lineages

The walk over several lineages is the longest beginning they share. One
equivalence says both halves of that (`prefix_trunk_iff`): the beginnings of
the trunk are exactly the shared beginnings. The comparison need not be
equality; symmetry and transitivity are enough, as every element is only ever
compared with the one of the first lineage.
-/

namespace Bindery.Lineage

variable {α : Type} [BEq α]

theorem prefix_trunk_iff [PartialEquivBEq α] {p lineage : List α} {others : List (List α)} :
    p <+: trunk lineage others ↔ p <+: lineage ∧ ∀ other ∈ others, p.isPrefixOf other = true := by
  induction lineage generalizing p others with
  | nil =>
      rw [trunk, List.prefix_nil]
      exact ⟨fun hp => ⟨hp, fun other _ => by rw [hp, List.isPrefixOf_nil_left]⟩, fun hp => hp.1⟩
  | cons a lineage ih =>
      cases p with
      | nil =>
          exact ⟨fun _ => ⟨List.nil_prefix, fun other _ => List.isPrefixOf_nil_left⟩,
            fun _ => List.nil_prefix⟩
      | cons b p =>
          rw [trunk]
          split
          · next hall =>
            rw [List.cons_prefix_cons, List.cons_prefix_cons, ih, and_assoc]
            refine and_congr_right fun hba => and_congr_right fun _ => ?_
            subst hba
            rw [List.forall_mem_map]
            refine forall₂_congr fun other hother => ?_
            have hhead := List.all_eq_true.mp hall other hother
            cases other with
            | nil => cases hhead
            | cons c other =>
                have hbc : (b == c) = true := BEq.symm hhead
                rw [List.isPrefixOf_cons_cons, hbc, Bool.true_and, List.tail_cons]
          · next hnot =>
            rw [List.prefix_nil]
            refine ⟨fun hp => absurd hp (List.cons_ne_nil b p), fun ⟨hp, hothers⟩ => absurd ?_ hnot⟩
            obtain rfl := (List.cons_prefix_cons.mp hp).1
            refine List.all_eq_true.mpr fun other hother => ?_
            have hpre := hothers other hother
            cases other with
            | nil => cases hpre
            | cons c other =>
                rw [List.isPrefixOf_cons_cons, Bool.and_eq_true] at hpre
                exact BEq.symm hpre.1

theorem commonAncestor_cons_eq_ok_iff {c : α} {lineage : List α} {others : List (List α)} :
    commonAncestor (lineage :: others) = .ok c ↔ (trunk lineage others).getLast? = some c := by
  rw [commonAncestor]
  split
  · next hlast => rw [hlast]; exact ⟨(nomatch ·), (nomatch ·)⟩
  · next a hlast => rw [hlast, Except.ok.injEq, Option.some.injEq]

/-- The walk fails only where the lineages share nothing. -/
theorem commonAncestor_cons_eq_error_iff {e : AncestryError} {lineage : List α}
    {others : List (List α)} :
    commonAncestor (lineage :: others) = .error e ↔
      trunk lineage others = [] ∧ e = .noCommonRoot := by
  rw [commonAncestor, ← List.getLast?_eq_none_iff]
  split
  · next hlast => rw [Except.error.injEq, and_iff_right hlast, eq_comm]
  · next hlast => rw [hlast]; exact iff_of_false nofun nofun

end Bindery.Lineage
