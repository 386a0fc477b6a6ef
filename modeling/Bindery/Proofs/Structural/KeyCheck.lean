import Bindery.Proofs.Structural.Schema

/-!
# Keys checked by their bytes

A declaration is checked once, before there are values: every key must be one
of the declared fields. The check compares names byte by byte, at one position
after another (`declaresBytewise`). That is equality of the names, as a string
is its bytes, and the lengths are compared first: no name passes for a longer
one that it begins (`declaresBytewise_iff`).

Comparing values looks fields up by name, each time. If the keys that a
comparison asks for have passed the check, every value has a field for each of
them and equals itself; if one has not, no value equals anything
(`structEq_self_of_checked_keys`).
-/

namespace Bindery

/-! ## The check -/

/-- Whether byte strings of one length have the same bytes from a position on. -/
def sameBytesFrom (a b : ByteArray) (hsize : a.size = b.size) (i : Nat) : Bool :=
  if hi : i < a.size then
    if a[i] != b[i] then false else sameBytesFrom a b hsize (i + 1)
  else true
termination_by a.size - i

def sameBytes (a b : String) : Bool :=
  if hsize : a.toUTF8.size = b.toUTF8.size then sameBytesFrom a.toUTF8 b.toUTF8 hsize 0 else false

/-- Whether one of the fields, from a position on, has the bytes of the key. -/
def declaresFrom (fields : List String) (key : String) (i : Nat) : Bool :=
  if hi : i < fields.length then
    if sameBytes fields[i] key then true else declaresFrom fields key (i + 1)
  else false
termination_by fields.length - i

def declaresBytewise (fields : List String) (key : String) : Bool := declaresFrom fields key 0

variable {a b : ByteArray} {fields : List String} {key : String} {i : Nat}

theorem sameBytesFrom_eq_true_iff (hsize : a.size = b.size) :
    sameBytesFrom a b hsize i = true ↔
      ∀ j (ha : j < a.size) (hb : j < b.size), i ≤ j → a[j] = b[j] := by
  fun_induction sameBytesFrom a b hsize i with
  | case1 i hi hne =>
      refine iff_of_false Bool.false_ne_true fun h => ?_
      exact bne_iff_ne.mp hne (h i hi (hsize ▸ hi) (Nat.le_refl i))
  | case2 i hi heq ih =>
      rw [ih]
      refine ⟨fun h j ha hb hij => ?_, fun h j ha hb hij => h j ha hb (Nat.le_of_succ_le hij)⟩
      rcases Nat.eq_or_lt_of_le hij with rfl | hij
      · simpa using heq
      · exact h j ha hb hij
  | case3 i hi =>
      refine iff_of_true rfl fun j ha _ hij => ?_
      exact absurd (Nat.lt_of_le_of_lt hij ha) hi

/-- The bytes tell strings apart. -/
theorem sameBytes_iff {s t : String} : sameBytes s t = true ↔ s = t := by
  rw [← String.toByteArray_inj, sameBytes]
  split
  · next hsize =>
    rw [sameBytesFrom_eq_true_iff]
    constructor
    · exact fun h => ByteArray.ext_getElem hsize fun j ha hb => h j ha hb (Nat.zero_le j)
    · intro h j ha hb _
      simp only [String.toUTF8, h]
  · next hsize => exact iff_of_false Bool.false_ne_true fun h => hsize (congrArg ByteArray.size h)

theorem declaresFrom_iff : declaresFrom fields key i = true ↔ key ∈ fields.drop i := by
  fun_induction declaresFrom fields key i with
  | case1 i hi hsame =>
      rw [List.drop_eq_getElem_cons hi, sameBytes_iff.mp hsame]
      exact iff_of_true rfl List.mem_cons_self
  | case2 i hi hother ih =>
      rw [ih, List.drop_eq_getElem_cons hi, List.mem_cons]
      exact (or_iff_right fun h => hother (sameBytes_iff.mpr h.symm)).symm
  | case3 i hi =>
      rw [List.drop_eq_nil_of_le (Nat.le_of_not_lt hi)]
      exact iff_of_false Bool.false_ne_true List.not_mem_nil

theorem declaresBytewise_iff : declaresBytewise fields key = true ↔ key ∈ fields := by
  rw [declaresBytewise, declaresFrom_iff, List.drop_zero]

theorem declaresBytewise_eq (fields : List String) (key : String) :
    declaresBytewise fields key = declaresField fields key := by
  rw [Bool.eq_iff_iff, declaresBytewise_iff, declaresField, List.contains_iff_mem]

/-! ## Values compared with themselves -/

/-- Keys of which every one must have a field on both sides. -/
def Designation.required : Designation → List String
  | .only keys => keys
  | .all | .except _ => []

namespace Declaration

variable {φ : Type} {eqField : φ → φ → Bool} {d : Declaration} {type : TypeName} {values : List φ}
  {name : String}

theorem agreeOn_self (hlength : values.length = d.fields.length)
    (hself : ∀ value ∈ values, eqField value value = true) (hname : name ∈ d.fields) :
    Record.agreeOn eqField (d.record type values) (d.record type values) name = true := by
  obtain ⟨x, hx⟩ : ∃ x, (d.record type values).field? name = some x := exists_field? hlength hname
  exact Record.agreeOn_eq_true_iff.mpr ⟨x, hx, x, hx, hself x (mem_values_of_field? hx)⟩

/-- A name that is not declared has no field to agree on. -/
theorem agreeOn_of_not_declared (hname : name ∉ d.fields) (b : Record φ) :
    Record.agreeOn eqField (d.record type values) b name = false := by
  rw [← Bool.not_eq_true, Record.agreeOn_eq_true_iff]
  rintro ⟨x, hx, -⟩
  exact hname (List.of_mem_zip (Record.mem_fields_of_field? hx)).1

theorem structEq_self (hlength : values.length = d.fields.length)
    (hself : ∀ value ∈ values, eqField value value = true)
    (hkeys : ∀ key ∈ d.designation.required, key ∈ d.fields) :
    Record.structEq eqField (d.record type values) (d.record type values) = true := by
  have hagree : ∀ name ∈ d.fields, Record.agreeOn eqField (d.record type values)
      (d.record type values) name = true := fun name => agreeOn_self hlength hself
  obtain ⟨fields, designation⟩ := d
  simp only [Record.structEq, record, beq_self_eq_true, Bool.true_and]
  cases designation with
  | all =>
      simp only [Record.agree, beq_self_eq_true, Bool.true_and, List.all_eq_true]
      exact hagree
  | only keys => exact List.all_eq_true.mpr fun key hkey => hagree key (hkeys key hkey)
  | except keys =>
      refine List.all_eq_true.mpr fun name hname => hagree name ?_
      exact (List.mem_filter.mp hname).1

theorem structEq_of_not_declared {key : String} (hkey : key ∈ d.designation.required)
    (hnot : key ∉ d.fields) (b : Record φ) :
    Record.structEq eqField (d.record type values) b = false := by
  have hagree : Record.agreeOn eqField (d.record type values) b key = false :=
    agreeOn_of_not_declared hnot b
  obtain ⟨fields, designation⟩ := d
  cases designation with
  | all | except _ => cases hkey
  | only keys =>
      rw [← Bool.not_eq_true, Record.structEq, Bool.and_eq_true]
      rintro ⟨-, hall⟩
      have hmust := List.all_eq_true.mp hall key hkey
      exact Bool.false_ne_true (hagree.symm.trans hmust)

/-- **Checked keys.** The check by bytes accepts exactly the declared fields. With
all the keys of a comparison checked, a value whose fields equal themselves
equals itself; with a key that fails the check, no value equals any. -/
theorem structEq_self_of_checked_keys (eqField : φ → φ → Bool) (d : Declaration) (type : TypeName) :
    (∀ fields key, declaresBytewise fields key = declaresField fields key
      ∧ (declaresBytewise fields key = true ↔ key ∈ fields))
    ∧ ((∀ key ∈ d.designation.required, declaresBytewise d.fields key = true) →
      ∀ values, values.length = d.fields.length → (∀ value ∈ values, eqField value value = true) →
        Record.structEq eqField (d.record type values) (d.record type values) = true)
    ∧ ((∃ key ∈ d.designation.required, declaresBytewise d.fields key = false) →
      ∀ values other, Record.structEq eqField (d.record type values) other = false) := by
  refine ⟨fun fields key => ⟨declaresBytewise_eq fields key, declaresBytewise_iff⟩, ?_, ?_⟩
  · intro hkeys values hlength hself
    exact structEq_self hlength hself fun key hkey => declaresBytewise_iff.mp (hkeys key hkey)
  · rintro ⟨key, hkey, hfails⟩ values other
    refine structEq_of_not_declared hkey (fun hmem => ?_) other
    exact Bool.false_ne_true (hfails.symm.trans (declaresBytewise_iff.mpr hmem))

/-- Syntax nodes, compared by some keys. -/
def node (keys : List String) : Declaration := ⟨["kind", "line"], .only keys⟩

/-- A node compared by its kind equals itself. A key that a field only begins fails
the check, and a node compared by it does not. -/
theorem structEq_self_node :
    declaresBytewise (node ["kind"]).fields "kind" = true
    ∧ Record.structEq (· == ·) ((node ["kind"]).record (.const "Node") [3, 14])
      ((node ["kind"]).record (.const "Node") [3, 14]) = true
    ∧ declaresBytewise (node ["kinds"]).fields "kinds" = false
    ∧ Record.structEq (· == ·) ((node ["kinds"]).record (.const "Node") [3, 14])
      ((node ["kinds"]).record (.const "Node") [3, 14]) = false := by
  have hkind : declaresBytewise (node ["kind"]).fields "kind" = true := by decide +kernel
  have hkinds : declaresBytewise (node ["kinds"]).fields "kinds" = false := by decide +kernel
  have hsame : ∀ value ∈ [3, 14], (value == value) = true := fun value _ => beq_self_eq_true value
  obtain ⟨-, hself, -⟩ :=
    structEq_self_of_checked_keys (fun m n : Nat => m == n) (node ["kind"]) (.const "Node")
  obtain ⟨-, -, hnone⟩ :=
    structEq_self_of_checked_keys (fun m n : Nat => m == n) (node ["kinds"]) (.const "Node")
  refine ⟨hkind, ?_, hkinds, ?_⟩
  · exact hself (List.forall_mem_singleton.mpr hkind) [3, 14] rfl hsame
  · exact hnone ⟨"kinds", List.mem_singleton.mpr rfl, hkinds⟩ [3, 14] _

end Declaration

end Bindery
