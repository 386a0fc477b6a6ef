import Mathlib.Data.List.Forall2
import Mathlib.Data.List.Nodup
import Bindery.Artifact.Codec
import Bindery.Proofs.NameMap

/-!
# Fields of a JSON value

What a JSON value gives for the fields of a type (`Json.Gives`), apart from
how it is read. In an object the last member of a name counts, whatever the
order of the members, others are ignored, and an optional field may be missing.
An array gives all fields in the order of their declaration.

`fieldValues` returns these values if each of them passes the check of its
field (`fieldValues_eq_ok_iff`). It visits the members of an object rather
than the fields, so the proof takes both ways through the same pairs: a member
that is a field is the value of that field, as no two fields share a name.
-/

namespace Bindery.Json

variable {rules : List FieldRule} {rule : FieldRule} {entries : List (String × Json)}
  {values : List Json} {name : String} {value v : Json} {e : DecodeError}

/-! ## Results -/

section Results

variable {ε α β : Type}

theorem bind_eq_ok_iff {x : Except ε α} {f : α → Except ε β} {b : β} :
    x >>= f = .ok b ↔ ∃ a, x = .ok a ∧ f a = .ok b := by
  cases x with
  | error _ => exact iff_of_false nofun nofun
  | ok a => exact ⟨fun h => ⟨a, rfl, h⟩, fun ⟨_, rfl, h⟩ => h⟩

theorem map_eq_ok_iff {x : Except ε α} {f : α → β} {b : β} :
    x.map f = .ok b ↔ ∃ a, x = .ok a ∧ f a = b := by
  cases x with
  | error _ => exact iff_of_false nofun nofun
  | ok a => simp [Except.map]

theorem mapError_eq_ok_iff {δ : Type} {x : Except ε α} {f : ε → δ} {a : α} :
    x.mapError f = .ok a ↔ x = .ok a := by
  cases x <;> simp [Except.mapError]

end Results

/-! ## Plain values -/

theorem asString_eq_ok_iff {s : String} : asString v = .ok s ↔ v = .str s := by
  cases v <;> simp [asString]

theorem asOptString_eq_ok_iff {s : Option String} : asOptString v = .ok s ↔ v = ofString? s := by
  cases v <;> cases s <;> simp [asOptString, ofString?]

theorem asInt64_eq_ok_iff {n : Int64} : asInt64 v = .ok n ↔ v = .int n.toInt := by
  cases v with
  | int m =>
      rw [asInt64, map_eq_ok_iff, asIntIn, Json.int.injEq]
      split
      · next h =>
        have hm : (Int64.ofInt m).toInt = m := by
          rw [Int64.toInt_minValue, Int64.toInt_maxValue] at h
          exact Int64.toInt_ofInt_of_le h.1 (Int.lt_of_le_sub_one h.2)
        simp only [Except.ok.injEq, exists_eq_left']
        exact ⟨fun heq => heq ▸ hm.symm, fun heq => heq ▸ Int64.ofInt_toInt n⟩
      · next h =>
        refine iff_of_false nofun fun heq => h ?_
        rw [heq]
        exact ⟨n.minValue_le_toInt, n.toInt_le⟩
  | _ => exact iff_of_false nofun nofun

theorem asStrings_eq_ok_iff {l : List String} : asStrings v = .ok l ↔ v = .arr (l.map .str) := by
  cases v with
  | arr items =>
      rw [asStrings, Json.arr.injEq]
      induction items generalizing l with
      | nil => cases l <;> simp [pure, Except.pure]
      | cons item items ih =>
          rw [List.mapM_cons, bind_eq_ok_iff]
          cases l with
          | nil => simp [bind_eq_ok_iff, pure, Except.pure]
          | cons s l => simp [bind_eq_ok_iff, pure, Except.pure, asString_eq_ok_iff, ih]
  | _ => exact iff_of_false nofun nofun

/-! ## Members -/

theorem lookup_members (entries : List (String × Json)) (name : String) :
    (members entries).lookup name = entries.reverse.lookup name :=
  NameMap.get?_ofList entries name

theorem mem_members_iff : (name, value) ∈ members entries ↔
    entries.reverse.lookup name = some value := by
  rw [← lookup_members]
  exact NameMap.get?_eq_some_iff.symm

/-! ## Given values -/

/-- What the members of an object give for a field. -/
def FieldRule.member? (rule : FieldRule) (entries : List (String × Json)) : Option Json :=
  (entries.reverse.lookup rule.name).or (if rule.optional then some .null else none)

/-- The values that a JSON value gives for the fields of `rules`. -/
inductive Gives (rules : List FieldRule) : List Json → Json → Prop
  | members {entries : List (String × Json)} {values : List Json}
      (h : List.Forall₂ (fun rule value => rule.member? entries = some value) rules values) :
      Gives rules values (.obj entries)
  | items {items : List Json} (h : rules.length = items.length) : Gives rules items (.arr items)

/-- The last member of a name, or the element at a place. -/
def field? (place : Nat) (name : String) : Json → Option Json
  | .obj entries => entries.reverse.lookup name
  | .arr items => items[place]?
  | _ => none

theorem Gives.field?_eq (h : Gives rules values v) {place : Nat} (hrule : rules[place]? = some rule)
    (hrequired : rule.optional = false) : v.field? place rule.name = values[place]? := by
  cases h with
  | items h => rfl
  | @members entries _ h =>
      obtain ⟨hplace, hrule⟩ := List.getElem?_eq_some_iff.mp hrule
      have hplace' : place < values.length := h.length_eq ▸ hplace
      have hvalue : rules[place].member? entries = some values[place] := h.get hplace hplace'
      rw [hrule, FieldRule.member?, hrequired, if_neg Bool.false_ne_true, Option.or_none] at hvalue
      rw [field?, hvalue, List.getElem?_eq_getElem hplace']

/-! ## Checks -/

/-- No two fields share a name, and an optional one may be null. -/
structure WellFormed (rules : List FieldRule) : Prop where
  names_nodup : (rules.map (·.name)).Nodup
  null_ok : ∀ rule ∈ rules, rule.optional = true → rule.check .null = .ok ()

@[simp]
theorem check_required_eq_ok_iff {α : Type} {decode : Decoder α} :
    (FieldRule.required name decode).check v = .ok () ↔ ∃ a, decode v = .ok a := by
  simp [FieldRule.required, map_eq_ok_iff]

@[simp]
theorem check_optionalText_eq_ok_iff :
    (FieldRule.optionalText name).check v = .ok () ↔ ∃ s, v = ofString? s := by
  simp [FieldRule.optionalText, map_eq_ok_iff, asOptString_eq_ok_iff]

theorem WellFormed.find?_eq_some (h : WellFormed rules) (hrule : rule ∈ rules) :
    rules.find? (·.name == rule.name) = some rule := by
  cases hfind : rules.find? (·.name == rule.name) with
  | none => exact absurd (beq_self_eq_true rule.name) (List.find?_eq_none.mp hfind rule hrule)
  | some other =>
      have hname : other.name = rule.name := by simpa using List.find?_some hfind
      rw [List.inj_on_of_nodup_map h.names_nodup (List.mem_of_find?_eq_some hfind) hrule hname]

theorem checkMembers_eq_ok_iff {members : List (String × Json)} :
    checkMembers rules members = .ok () ↔ ∀ member ∈ members, ∀ rule,
      rules.find? (·.name == member.1) = some rule → rule.check member.2 = .ok () := by
  induction members with
  | nil => exact iff_of_true rfl nofun
  | cons member members ih =>
      obtain ⟨name, value⟩ := member
      rw [checkMembers, List.forall_mem_cons]
      cases hfind : rules.find? (·.name == name) with
      | none => simp [ih]
      | some rule =>
          cases hcheck : rule.check value with
          | error e => simp [hcheck]
          | ok => simp [ih, hcheck]

theorem pickMembers_cons : pickMembers (members entries) (rule :: rules) =
    match rule.member? entries with
    | some value => (pickMembers (members entries) rules).map (value :: ·)
    | none => .error (.missingField rule.name) := by
  rw [pickMembers, lookup_members, FieldRule.member?]
  cases entries.reverse.lookup rule.name with
  | some value => rfl
  | none => cases rule.optional <;> rfl

theorem pickMembers_eq_ok_iff : pickMembers (members entries) rules = .ok values ↔
    List.Forall₂ (fun rule value => rule.member? entries = some value) rules values := by
  induction rules generalizing values with
  | nil => cases values <;> simp [pickMembers]
  | cons rule rules ih =>
      rw [pickMembers_cons, List.forall₂_cons_left_iff]
      cases rule.member? entries with
      | none => simp
      | some value =>
          rw [map_eq_ok_iff]
          constructor
          · rintro ⟨rest, hrest, rfl⟩
            exact ⟨value, rest, rfl, ih.mp hrest, rfl⟩
          · rintro ⟨_, rest, ⟨⟩, hrest, rfl⟩
            exact ⟨rest, ih.mpr hrest, rfl⟩

theorem checkItems_eq_ok_iff {items : List Json} : checkItems rules items = .ok () ↔
    List.Forall₂ (fun rule item => rule.check item = .ok ()) rules items := by
  induction rules generalizing items with
  | nil => cases items <;> simp [checkItems]
  | cons rule rules ih =>
      cases items with
      | nil => simp [checkItems]
      | cons item items =>
          rw [checkItems, List.forall₂_cons, ← ih]
          cases rule.check item <;> simp

theorem checkMembers_members_eq_ok_iff (h : WellFormed rules) :
    checkMembers rules (members entries) = .ok () ↔
      ∀ rule ∈ rules, ∀ value, rule.member? entries = some value → rule.check value = .ok () := by
  rw [checkMembers_eq_ok_iff]
  constructor
  · intro hmembers rule hrule value hvalue
    rw [FieldRule.member?, Option.or_eq_some_iff] at hvalue
    rcases hvalue with hlookup | ⟨-, hnull⟩
    · exact hmembers _ (mem_members_iff.mpr hlookup) rule (h.find?_eq_some hrule)
    · -- No member of the object is checked for a missing field.
      rw [Option.ite_none_right_eq_some, Option.some.injEq] at hnull
      obtain ⟨hoptional, rfl⟩ := hnull
      exact h.null_ok rule hrule hoptional
  · intro hrules ⟨name, value⟩ hmember rule hfind
    have hname : rule.name = name := by simpa using List.find?_some hfind
    refine hrules rule (List.mem_of_find?_eq_some hfind) value ?_
    rw [FieldRule.member?, hname, mem_members_iff.mp hmember, Option.some_or]

/-! ## Values of the fields -/

theorem forall₂_iff_of_member? {p : FieldRule → Json → Prop}
    (h : List.Forall₂ (fun rule value => rule.member? entries = some value) rules values) :
    List.Forall₂ p rules values ↔
      ∀ rule ∈ rules, ∀ value, rule.member? entries = some value → p rule value := by
  induction h with
  | nil => exact iff_of_true .nil nofun
  | cons hvalue _ ih =>
      rw [List.forall₂_cons, List.forall_mem_cons, ih, hvalue]
      simp only [Option.some.injEq, forall_eq']

/-- **The fields of a type are read** as what the value gives for them, if they
pass their checks. -/
theorem fieldValues_eq_ok_iff (h : WellFormed rules) : fieldValues rules v = .ok values ↔
    Gives rules values v ∧
      List.Forall₂ (fun rule value => rule.check value = .ok ()) rules values := by
  constructor
  · intro hread
    cases v with
    | obj entries =>
        rw [fieldValues, bind_eq_ok_iff] at hread
        obtain ⟨⟨⟩, hcheck, hpick⟩ := hread
        rw [pickMembers_eq_ok_iff] at hpick
        rw [checkMembers_members_eq_ok_iff h, ← forall₂_iff_of_member? hpick] at hcheck
        exact ⟨.members hpick, hcheck⟩
    | arr items =>
        rw [fieldValues, bind_eq_ok_iff] at hread
        obtain ⟨⟨⟩, hcheck, hitems⟩ := hread
        cases hitems
        rw [checkItems_eq_ok_iff] at hcheck
        exact ⟨.items hcheck.length_eq, hcheck⟩
    | _ => cases hread
  · intro ⟨hgives, hcheck⟩
    cases hgives with
    | members hpick =>
        rw [forall₂_iff_of_member? hpick, ← checkMembers_members_eq_ok_iff h] at hcheck
        exact bind_eq_ok_iff.mpr ⟨(), hcheck, pickMembers_eq_ok_iff.mpr hpick⟩
    | items _ => exact bind_eq_ok_iff.mpr ⟨(), checkItems_eq_ok_iff.mpr hcheck, rfl⟩

/-- Both halves of a reader: the fields, and what is built from them. -/
theorem read_eq_ok_iff {α : Type} {build : List Json → Except DecodeError α} {x : α}
    (h : WellFormed rules) : fieldValues rules v >>= build = .ok x ↔
      ∃ values, Gives rules values v ∧
        List.Forall₂ (fun rule value => rule.check value = .ok ()) rules values ∧
        build values = .ok x := by
  simp only [bind_eq_ok_iff, fieldValues_eq_ok_iff h, and_assoc]

end Bindery.Json
