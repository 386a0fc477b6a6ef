import Bindery.Proofs.Artifact.Fields

/-!
# Artifacts read back

Artifacts are the same after they have been written and read
(`artifacts_round_trip`). A routine is written field by field but read through
its unchecked fields, and only then made, so that both directions are compared
with one description: which JSON values stand for an artifact (`WrittenAs`).
Each reader accepts these and no others, and what is written is one of them.

The name of a routine is checked where the routine is made, so no way of
writing it down gets around the check: neither an array in place of an object,
nor a routine as the field of an accessor.
-/

namespace Bindery

open Json

variable {v : Json} {f : GeneratedFunction}

/-! ## Formats -/

/-- What `encode` writes is read back by `decode`, which reads those values that
an artifact is `written` as. -/
structure RoundTrips {α : Type} (encode : α → Json) (decode : Decoder α)
    (written : α → Json → Prop) : Prop where
  decode_encode : ∀ x, decode (encode x) = .ok x
  decode_iff : ∀ v x, decode v = .ok x ↔ written x v
  decode_again : ∀ v x, decode v = .ok x → decode (encode x) = decode v

theorem RoundTrips.of_iff {α : Type} {encode : α → Json} {decode : Decoder α}
    {written : α → Json → Prop} (hread : ∀ v x, decode v = .ok x ↔ written x v)
    (hwritten : ∀ x, written x (encode x)) : RoundTrips encode decode written where
  decode_encode x := (hread (encode x) x).mpr (hwritten x)
  decode_iff := hread
  decode_again _ x h := ((hread (encode x) x).mpr (hwritten x)).trans h.symm

/-! ## Routines -/

namespace GeneratedFunction

theorem wellFormed_rules : WellFormed rules where
  names_nodup := by decide +kernel
  null_ok := by simp [rules, FieldRule.required, FieldRule.optionalText, asOptString, Except.map]

/-- The JSON values that are read as this routine. -/
def WrittenAs (f : GeneratedFunction) : Json → Prop :=
  Gives rules [.str f.name, ofString? f.declaration, ofString? f.implementation]

theorem make_eq_ok_iff {name : String} {declaration implementation : Option String} :
    make name declaration implementation = .ok f ↔
      name = f.name ∧ declaration = f.declaration ∧ implementation = f.implementation := by
  obtain ⟨_, _, _, hname⟩ := f
  rw [make]
  split
  · next hempty => exact iff_of_false nofun fun h => hname (h.1.symm.trans hempty)
  · rw [Except.ok.injEq, mk.injEq]

/-- Where all fields can be read, the name decides. -/
theorem decode_of_gives {name : String} {declaration implementation : Option String}
    (h : Gives rules [.str name, ofString? declaration, ofString? implementation] v) :
    decode v = (make name declaration implementation).mapError .refused := by
  have hvalues := (fieldValues_eq_ok_iff wellFormed_rules).mpr
    ⟨h, by simp [rules, asString_eq_ok_iff]⟩
  rw [decode, hvalues]
  -- `ofString?` is read back by cases, whatever the name.
  cases declaration <;> cases implementation <;> rfl

theorem decode_eq_ok_iff : decode v = .ok f ↔ f.WrittenAs v := by
  constructor
  · intro hread
    obtain ⟨values, hgives, -, hbuild⟩ := (read_eq_ok_iff wellFormed_rules).mp hread
    split at hbuild
    · simp only [bind_eq_ok_iff, asString_eq_ok_iff, asOptString_eq_ok_iff, mapError_eq_ok_iff,
        make_eq_ok_iff] at hbuild
      obtain ⟨_, rfl, _, rfl, _, rfl, rfl, rfl, rfl⟩ := hbuild
      exact hgives
    · cases hbuild
  · intro hgives
    rw [decode_of_gives hgives, mapError_eq_ok_iff, make_eq_ok_iff]
    exact ⟨rfl, rfl, rfl⟩

theorem writtenAs_encode (f : GeneratedFunction) : f.WrittenAs f.encode :=
  .members (by simp [rules, FieldRule.member?, FieldRule.required, FieldRule.optionalText,
    NameMap.lookup_cons_eq_ite])

theorem WrittenAs.field?_name (h : f.WrittenAs v) : v.field? 0 "name" = some (.str f.name) := by
  have hrule : rules[0]? = some (.required "name" asString) := rfl
  exact h.field?_eq hrule rfl

end GeneratedFunction

/-! ## Accessors -/

namespace FieldAccessor

theorem wellFormed_rules : WellFormed rules where
  names_nodup := by decide +kernel
  null_ok := by simp [rules, FieldRule.required]

/-- Its function may be written in any of the ways of a routine. -/
def WrittenAs (a : FieldAccessor String) (v : Json) : Prop :=
  ∃ function, a.toGeneratedFunction.WrittenAs function ∧
    Gives rules [function, .str a.field, .str a.fieldType, .str a.cDeclaration] v

theorem decode_eq_ok_iff {a : FieldAccessor String} : decode v = .ok a ↔ a.WrittenAs v := by
  constructor
  · intro hread
    obtain ⟨values, hgives, -, hbuild⟩ := (read_eq_ok_iff wellFormed_rules).mp hread
    split at hbuild
    · simp only [bind_eq_ok_iff, GeneratedFunction.decode_eq_ok_iff, asString_eq_ok_iff] at hbuild
      obtain ⟨_, hfunction, _, rfl, _, rfl, _, rfl, ⟨⟩⟩ := hbuild
      exact ⟨_, hfunction, hgives⟩
    · cases hbuild
  · intro ⟨function, hfunction, hgives⟩
    rw [← GeneratedFunction.decode_eq_ok_iff] at hfunction
    refine (read_eq_ok_iff wellFormed_rules).mpr ⟨_, hgives, ?_, ?_⟩
    · simp [rules, hfunction, asString_eq_ok_iff]
    · simp only [bind_eq_ok_iff, asString_eq_ok_iff]
      exact ⟨_, hfunction, _, rfl, _, rfl, _, rfl, rfl⟩

theorem WrittenAs.exists_function {a : FieldAccessor String} (h : a.WrittenAs v) :
    ∃ function, v.field? 0 "function" = some function ∧
      a.toGeneratedFunction.WrittenAs function := by
  obtain ⟨function, hfunction, hgives⟩ := h
  have hrule : rules[0]? = some (.required "function" GeneratedFunction.decode) := rfl
  exact ⟨function, hgives.field?_eq hrule rfl, hfunction⟩

theorem writtenAs_encode (a : FieldAccessor String) : a.WrittenAs a.encode :=
  ⟨_, a.toGeneratedFunction.writtenAs_encode,
    .members (by simp [rules, FieldRule.member?, FieldRule.required, NameMap.lookup_cons_eq_ite])⟩

end FieldAccessor

/-! ## Type declarations -/

namespace TypeDeclaration

theorem wellFormed_rules : WellFormed rules where
  names_nodup := by decide +kernel
  null_ok := by simp [rules, FieldRule.required]

def WrittenAs (d : TypeDeclaration Int64) : Json → Prop :=
  Gives rules [.int d.type.toInt, .str d.publicPart, .str d.privatePart]

theorem decode_eq_ok_iff {d : TypeDeclaration Int64} : decode v = .ok d ↔ d.WrittenAs v := by
  constructor
  · intro hread
    obtain ⟨values, hgives, -, hbuild⟩ := (read_eq_ok_iff wellFormed_rules).mp hread
    split at hbuild
    · simp only [bind_eq_ok_iff, asInt64_eq_ok_iff, asString_eq_ok_iff] at hbuild
      obtain ⟨_, rfl, _, rfl, _, rfl, ⟨⟩⟩ := hbuild
      exact hgives
    · cases hbuild
  · intro hgives
    refine (read_eq_ok_iff wellFormed_rules).mpr ⟨_, hgives, ?_, ?_⟩
    · simp [rules, asInt64_eq_ok_iff, asString_eq_ok_iff]
    · simp only [bind_eq_ok_iff, asInt64_eq_ok_iff, asString_eq_ok_iff]
      exact ⟨_, rfl, _, rfl, _, rfl, rfl⟩

theorem writtenAs_encode (d : TypeDeclaration Int64) : d.WrittenAs d.encode :=
  .members (by simp [rules, FieldRule.member?, FieldRule.required, NameMap.lookup_cons_eq_ite])

end TypeDeclaration

/-! ## Parsers -/

namespace GeneratedParser

theorem wellFormed_rules : WellFormed rules where
  names_nodup := by decide +kernel
  null_ok := by simp [rules, FieldRule.required]

def WrittenAs (p : GeneratedParser (List String)) : Json → Prop :=
  Gives rules [.str p.name, .arr (p.spec.map .str), .str p.body]

theorem decode_eq_ok_iff {p : GeneratedParser (List String)} :
    decode v = .ok p ↔ p.WrittenAs v := by
  constructor
  · intro hread
    obtain ⟨values, hgives, -, hbuild⟩ := (read_eq_ok_iff wellFormed_rules).mp hread
    split at hbuild
    · simp only [bind_eq_ok_iff, asStrings_eq_ok_iff, asString_eq_ok_iff] at hbuild
      obtain ⟨_, rfl, _, rfl, _, rfl, ⟨⟩⟩ := hbuild
      exact hgives
    · cases hbuild
  · intro hgives
    refine (read_eq_ok_iff wellFormed_rules).mpr ⟨_, hgives, ?_, ?_⟩
    · simp [rules, asStrings_eq_ok_iff, asString_eq_ok_iff]
    · simp only [bind_eq_ok_iff, asStrings_eq_ok_iff, asString_eq_ok_iff]
      exact ⟨_, rfl, _, rfl, _, rfl, rfl⟩

theorem writtenAs_encode (p : GeneratedParser (List String)) : p.WrittenAs p.encode :=
  .members (by simp [rules, FieldRule.member?, FieldRule.required, NameMap.lookup_cons_eq_ite])

end GeneratedParser

/-! ## All artifacts -/

/-- **Artifacts are read back as they were written**, and an artifact that was
read from any JSON value is the same after it has been written and read again.
Every routine in it has the name that the value gives it, which is not empty: a
routine with an empty name is refused, also as the function of an accessor. -/
theorem artifacts_round_trip :
    RoundTrips GeneratedFunction.encode GeneratedFunction.decode GeneratedFunction.WrittenAs ∧
    RoundTrips FieldAccessor.encode FieldAccessor.decode FieldAccessor.WrittenAs ∧
    RoundTrips TypeDeclaration.encode TypeDeclaration.decode TypeDeclaration.WrittenAs ∧
    RoundTrips GeneratedParser.encode GeneratedParser.decode GeneratedParser.WrittenAs ∧
    (∀ v f, GeneratedFunction.decode v = .ok f →
      v.field? 0 "name" = some (.str f.name) ∧ f.name ≠ "") ∧
    (∀ v a, FieldAccessor.decode v = .ok a →
      ∃ function, v.field? 0 "function" = some function ∧
        function.field? 0 "name" = some (.str a.name) ∧ a.name ≠ "") ∧
    (∀ v, v.field? 0 "name" = some (.str "") → ∃ e, GeneratedFunction.decode v = .error e) ∧
    (∀ v declaration implementation,
      Gives GeneratedFunction.rules
        [.str "", ofString? declaration, ofString? implementation] v →
      GeneratedFunction.decode v = .error (.refused .emptyName)) ∧
    (∀ v function, v.field? 0 "function" = some function →
      function.field? 0 "name" = some (.str "") → ∃ e, FieldAccessor.decode v = .error e) := by
  have hfunction (v : Json) (f : GeneratedFunction) (h : GeneratedFunction.decode v = .ok f) :
      v.field? 0 "name" = some (.str f.name) ∧ f.name ≠ "" :=
    ⟨(GeneratedFunction.decode_eq_ok_iff.mp h).field?_name, f.name_ne⟩
  have haccessor (v : Json) (a : FieldAccessor String) (h : FieldAccessor.decode v = .ok a) :
      ∃ function, v.field? 0 "function" = some function ∧
        function.field? 0 "name" = some (.str a.name) ∧ a.name ≠ "" := by
    obtain ⟨function, hfield, hwritten⟩ :=
      (FieldAccessor.decode_eq_ok_iff.mp h).exists_function
    exact ⟨function, hfield, hwritten.field?_name, a.name_ne⟩
  refine ⟨.of_iff (fun _ _ => GeneratedFunction.decode_eq_ok_iff)
      GeneratedFunction.writtenAs_encode,
    .of_iff (fun _ _ => FieldAccessor.decode_eq_ok_iff) FieldAccessor.writtenAs_encode,
    .of_iff (fun _ _ => TypeDeclaration.decode_eq_ok_iff) TypeDeclaration.writtenAs_encode,
    .of_iff (fun _ _ => GeneratedParser.decode_eq_ok_iff) GeneratedParser.writtenAs_encode,
    hfunction, haccessor, fun v hempty => ?_, fun v declaration implementation hgives => ?_,
    fun v function hfield hempty => ?_⟩
  · cases hread : GeneratedFunction.decode v with
    | error e => exact ⟨e, rfl⟩
    | ok f =>
        obtain ⟨hname, hne⟩ := hfunction v f hread
        rw [hempty, Option.some.injEq, Json.str.injEq] at hname
        exact absurd hname.symm hne
  · rw [GeneratedFunction.decode_of_gives hgives]
    rfl
  · cases hread : FieldAccessor.decode v with
    | error e => exact ⟨e, rfl⟩
    | ok a =>
        obtain ⟨function', hfield', hname, hne⟩ := haccessor v a hread
        rw [hfield, Option.some.injEq] at hfield'
        rw [← hfield', hempty, Option.some.injEq, Json.str.injEq] at hname
        exact absurd hname.symm hne

/-- Members out of order, one of them unknown and one missing; and an accessor
as an array, around a routine without a name. -/
theorem artifacts_round_trip_node_kind :
    ∃ f : GeneratedFunction, f.name = "node_kind" ∧ f.declaration = none ∧
      GeneratedFunction.decode
        (.obj [("line", .int 7), ("implementation", .str "begin end"),
          ("name", .str "node_kind")]) = .ok f ∧
      GeneratedFunction.decode f.encode = .ok f ∧
      ∃ e, FieldAccessor.decode
        (.arr [.obj [("name", .str "")], .str "text", .str "Text_Type", .str ""]) = .error e := by
  obtain ⟨hfunction, -, -, -, -, -, -, -, hnested⟩ := artifacts_round_trip
  have hwritten : (⟨"node_kind", none, some "begin end", by decide⟩ : GeneratedFunction).WrittenAs
      (.obj [("line", .int 7), ("implementation", .str "begin end"), ("name", .str "node_kind")]) :=
    .members (by simp [GeneratedFunction.rules, FieldRule.member?, FieldRule.required,
      FieldRule.optionalText, NameMap.lookup_cons_eq_ite, ofString?])
  exact ⟨_, rfl, rfl, (hfunction.decode_iff _ _).mpr hwritten, hfunction.decode_encode _,
    hnested _ (.obj [("name", .str "")]) rfl rfl⟩

end Bindery
