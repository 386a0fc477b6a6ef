import Bindery.Proofs.Structural.Schema

/-!
# Alike in what counts

Two values are alike if they agree on what is designated, at every depth:
leaves by a relation that is given, records if they are of one type and alike
in their designated fields (`Schema.Alike`). The relation on leaves carries
over: from symmetry of it comes symmetry, and composing it composes alikeness
(`Alike.comp`).

With `==` on the leaves, alike is what structural equality decides
(`Conforms.eqField_iff_alike`), so it is an equivalence if `==` is one. With
equality on the leaves, alike values differ in fields that do not count and in
nothing else, and no comparison tells them apart.
-/

namespace Bindery.Schema

variable {ℓ : Type} {schema : Schema} {same same' same'' : ℓ → ℓ → Prop} {v w u : FieldValue ℓ}

inductive Alike (schema : Schema) (same : ℓ → ℓ → Prop) : FieldValue ℓ → FieldValue ℓ → Prop where
  | leaf {x y} (h : same x y) : Alike schema same (.leaf x) (.leaf y)
  | record {a b : Record (FieldValue ℓ)} {d} (htype : a.type = b.type)
      (hd : schema.declaration? a.type = some d)
      (hleft : ∀ name ∈ d.designated, ∃ x, a.field? name = some x)
      (hright : ∀ name ∈ d.designated, ∃ y, b.field? name = some y)
      (h : ∀ name ∈ d.designated, ∀ x y, a.field? name = some x → b.field? name = some y →
        Alike schema same x y) :
      Alike schema same (.record a) (.record b)

theorem alike_leaf_iff {x y : ℓ} : Alike schema same (.leaf x) (.leaf y) ↔ same x y :=
  ⟨fun h => by cases h; assumption, .leaf⟩

theorem alike_record_iff {a b : Record (FieldValue ℓ)} {d : Declaration}
    (hd : schema.declaration? a.type = some d) :
    Alike schema same (.record a) (.record b) ↔ a.type = b.type ∧
      ∀ name ∈ d.designated, ∃ x ∈ a.field? name, ∃ y ∈ b.field? name, Alike schema same x y := by
  constructor
  · intro h
    cases h with
    | record htype hd' hleft hright h =>
        obtain rfl := Option.some.inj (hd.symm.trans hd')
        refine ⟨htype, fun name hname => ?_⟩
        obtain ⟨x, hx⟩ := hleft name hname
        obtain ⟨y, hy⟩ := hright name hname
        exact ⟨x, hx, y, hy, h name hname x y hx hy⟩
  · rintro ⟨htype, hfields⟩
    refine .record htype hd ?_ ?_ fun name hname x y hx hy => ?_
    · exact fun name hname => (hfields name hname).imp fun x hx => hx.1
    · intro name hname
      obtain ⟨_, _, y, hy, _⟩ := hfields name hname
      exact ⟨y, hy⟩
    · obtain ⟨x', hx', y', hy', halike⟩ := hfields name hname
      cases hx.symm.trans hx'
      cases hy.symm.trans hy'
      exact halike

namespace Alike

theorem symm (hsymm : ∀ x y, same x y → same' y x) (h : Alike schema same v w) :
    Alike schema same' w v := by
  induction h with
  | leaf h => exact .leaf (hsymm _ _ h)
  | record htype hd hleft hright _ ih =>
      exact .record htype.symm (htype ▸ hd) hright hleft
        fun name hname x y hx hy => ih name hname y x hy hx

theorem comp (hcomp : ∀ x y z, same x y → same' y z → same'' x z) (h : Alike schema same v w)
    (h' : Alike schema same' w u) : Alike schema same'' v u := by
  induction h generalizing u with
  | leaf h =>
      cases h' with
      | leaf h' => exact .leaf (hcomp _ _ _ h h')
  | record htype hd hleft hright _ ih =>
      cases h' with
      | record htype' hd' _ hright' h' =>
          obtain rfl := Option.some.inj (hd.symm.trans (htype ▸ hd'))
          refine .record (htype.trans htype') hd hleft hright' fun name hname x z hx hz => ?_
          obtain ⟨y, hy⟩ := hright name hname
          exact ih name hname x y hx hy (h' name hname y z hy hz)

end Alike

theorem Conforms.alike_refl (hrefl : ∀ x : ℓ, same x x) (hv : schema.Conforms v) :
    Alike schema same v v := by
  induction hv with
  | leaf x => exact .leaf (hrefl x)
  | @record type d values hd hlength _ ih =>
      refine (alike_record_iff hd).mpr ⟨rfl, fun name hname => ?_⟩
      obtain ⟨x, hx⟩ := Declaration.exists_field? hlength
        (Declaration.mem_fields_of_mem_designated (schema.wellFormed hd) hname)
      exact ⟨x, hx, x, hx, ih x (Declaration.mem_values_of_field? hx)⟩

/-! ## Structural equality -/

variable [BEq ℓ]

/-- `==` as a relation of leaves. -/
def Equal (x y : ℓ) : Prop := (x == y) = true

/-- **Structural equality decides whether values are alike.** -/
theorem Conforms.eqField_iff_alike (hv : schema.Conforms v) (hw : schema.Conforms w) :
    v.eqField w = true ↔ Alike schema Equal v w := by
  induction hv generalizing w with
  | leaf x =>
      cases hw with
      | leaf y => rw [FieldValue.eqField, alike_leaf_iff, Equal]
      | record _ _ _ =>
          rw [FieldValue.eqField]
          refine iff_of_false Bool.false_ne_true fun h => ?_
          cases h
  | @record type d values hd _ _ ih =>
      cases hw with
      | leaf y =>
          rw [FieldValue.eqField]
          refine iff_of_false Bool.false_ne_true fun h => ?_
          cases h
      | @record type' d' values' hd' _ hw =>
          rw [FieldValue.eqField_record, eq_record_iff hd hd', alike_record_iff hd]
          refine and_congr_right fun _ => forall₂_congr fun name _ => ?_
          refine exists_congr fun x => and_congr_right fun hx => ?_
          refine exists_congr fun y => and_congr_right fun hy => ?_
          exact ih x (Declaration.mem_values_of_field? hx) (hw y (Declaration.mem_values_of_field? hy))

end Bindery.Schema
