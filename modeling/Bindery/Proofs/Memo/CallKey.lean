import Mathlib.Data.List.Induction
import Bindery.Memo.CallKey
import Bindery.Proofs.NameMap

/-!
# Normal form of call keys

A key made from a list of named arguments holds what the list says in the end:
each name once, in name order, with its last value (`lists_ofArgs`). The list
is lost but for that, so two lists make one key exactly when they agree on the
last value of every name (`ofArgs_eq_iff`).

The order of keys is lexicographic twice over: the positional part before the
named ones, and those entry by entry. Both times a total order on the parts
makes a total order on the whole (`totallyOrdered`).
-/

namespace Bindery.CallKey

variable {P N : Type}

/-! ## Last values -/

/-- The value that a list of named arguments gives a name in the end. -/
def lastValue? (args : List (String × N)) (name : String) : Option N :=
  (args.filter (·.1 == name)).getLast?.map (·.2)

theorem lastValue?_concat (args : List (String × N)) (other : String) (value : N) (name : String) :
    lastValue? (args ++ [(other, value)]) name =
      if name = other then some value else lastValue? args name := by
  unfold lastValue?
  rw [List.filter_append]
  by_cases h : name = other
  · subst h
    simp
  · have hne : (other == name) = false := beq_eq_false_iff_ne.mpr (Ne.symm h)
    simp [hne, h]

theorem isSome_lastValue?_iff {args : List (String × N)} {name : String} :
    (lastValue? args name).isSome = true ↔ name ∈ args.map Prod.fst := by
  unfold lastValue?
  simp

/-! ## Keys from lists -/

theorem ofArgs_concat (positional : P) (args : List (String × N)) (name : String) (value : N) :
    ofArgs positional (args ++ [(name, value)]) =
      (ofArgs positional args).withNamed name value := by
  unfold ofArgs
  rw [List.foldl_append]
  rfl

theorem positional_ofArgs (positional : P) (args : List (String × N)) :
    (ofArgs positional args).positional = positional := by
  induction args using List.reverseRecOn with
  | nil => rfl
  | append_singleton args arg ih => rw [ofArgs_concat, withNamed, ih]

theorem named?_ofArgs (positional : P) (args : List (String × N)) (name : String) :
    (ofArgs positional args).named? name = lastValue? args name := by
  induction args using List.reverseRecOn with
  | nil => rfl
  | append_singleton args arg ih =>
      rw [ofArgs_concat, lastValue?_concat, ← ih]
      exact NameMap.get?_insert _ _ _ name

theorem ext_named? {key key' : CallKey P N} (hpositional : key.positional = key'.positional)
    (hnamed : ∀ name, key.named? name = key'.named? name) : key = key' := by
  cases key
  cases key'
  exact (mk.injEq ..).mpr ⟨hpositional, NameMap.ext_get? hnamed⟩

/-- The key has the positional part, and the named arguments of the list: in name
order, each name once, with its last value. -/
structure Lists (key : CallKey P N) (positional : P) (args : List (String × N)) : Prop where
  positional_eq : key.positional = positional
  ascending : key.namedArgs.Pairwise fun a b => a.1 < b.1
  mem_names_iff : ∀ name, name ∈ key.namedArgs.map Prod.fst ↔ name ∈ args.map Prod.fst
  mem_iff : ∀ name value, (name, value) ∈ key.namedArgs ↔ lastValue? args name = some value

theorem lists_ofArgs (positional : P) (args : List (String × N)) :
    Lists (ofArgs positional args) positional args := by
  have hmem : ∀ name value, (name, value) ∈ (ofArgs positional args).namedArgs ↔
      lastValue? args name = some value := by
    intro name value
    rw [← named?_ofArgs positional]
    exact NameMap.get?_eq_some_iff.symm
  refine ⟨positional_ofArgs positional args, (ofArgs positional args).named.ascending,
    fun name => ?_, hmem⟩
  refine Iff.trans ?_ isSome_lastValue?_iff
  rw [Option.isSome_iff_exists]
  simp only [List.mem_map, Prod.exists, hmem, exists_and_right, exists_eq_right]

theorem ofArgs_eq_iff {p p' : P} {args args' : List (String × N)} :
    ofArgs p args = ofArgs p' args' ↔
      p = p' ∧ ∀ name, lastValue? args name = lastValue? args' name := by
  constructor
  · intro heq
    refine ⟨?_, fun name => ?_⟩
    · rw [← positional_ofArgs p args, heq, positional_ofArgs]
    · rw [← named?_ofArgs p, heq, named?_ofArgs]
  · rintro ⟨rfl, hlast⟩
    refine ext_named? (by rw [positional_ofArgs, positional_ofArgs]) fun name => ?_
    rw [named?_ofArgs, named?_ofArgs, hlast]

/-! ## Order -/

/-- Comparison is a total order, and finds nothing equal but a value to itself. -/
structure TotallyOrdered (K : Type) [Ord K] : Prop where
  eq_iff : ∀ a b : K, compare a b = .eq ↔ a = b
  swap : ∀ a b : K, compare b a = (compare a b).swap
  antisymm : ∀ a b : K, (compare a b).isLE = true → (compare b a).isLE = true → a = b
  trans : ∀ a b c : K,
    (compare a b).isLE = true → (compare b c).isLE = true → (compare a c).isLE = true
  total : ∀ a b : K, (compare a b).isLE = true ∨ (compare b a).isLE = true

section Order

variable [Ord N] [Std.TransOrd N] [Std.LawfulEqOrd N]

instance : Std.TransCmp (cmpEntry (N := N)) :=
  inferInstanceAs (Std.TransCmp (compareLex (compareOn Prod.fst) (compareOn Prod.snd)))

instance : Std.LawfulEqCmp (cmpEntry (N := N)) where
  eq_of_compare {a b} h := by
    obtain ⟨hname, hvalue⟩ := Ordering.then_eq_eq.mp h
    exact Prod.ext (Std.LawfulEqOrd.eq_of_compare hname) (Std.LawfulEqOrd.eq_of_compare hvalue)

/-- Named arguments, compared entry by entry. -/
def cmpNamed (a b : CallKey P N) : Ordering :=
  List.compareLex cmpEntry a.named.entries b.named.entries

instance : Std.TransCmp (cmpNamed (P := P) (N := N)) where
  eq_swap {a b} := by
    unfold cmpNamed
    exact Std.OrientedCmp.eq_swap
  isLE_trans {a b c} hab hbc := by
    unfold cmpNamed at *
    exact Std.TransCmp.isLE_trans hab hbc

variable [Ord P] [Std.TransOrd P] [Std.LawfulEqOrd P]

instance : Std.TransOrd (CallKey P N) :=
  inferInstanceAs (Std.TransCmp (compareLex (compareOn positional) cmpNamed))

instance : Std.LawfulEqOrd (CallKey P N) where
  eq_of_compare {a b} h := by
    obtain ⟨hpositional, hnamed⟩ := Ordering.then_eq_eq.mp h
    have hentries : a.named.entries = b.named.entries := Std.LawfulEqCmp.eq_of_compare hnamed
    refine ext_named? (Std.LawfulEqOrd.eq_of_compare hpositional) fun name => ?_
    rw [named?, NameMap.get?, hentries, named?, NameMap.get?]

/-- **Total orders on the arguments order the keys.** -/
theorem totallyOrdered : TotallyOrdered (CallKey P N) where
  eq_iff _ _ := Std.LawfulEqOrd.compare_eq_iff_eq
  swap _ _ := Std.OrientedOrd.eq_swap
  antisymm _ _ hab hba := Std.LawfulEqOrd.eq_of_compare (Std.OrientedCmp.isLE_antisymm hab hba)
  trans _ _ _ := Std.TransOrd.isLE_trans
  total a b := by
    rw [Std.OrientedOrd.eq_swap (a := b)]
    cases compare a b <;> simp

end Order

end Bindery.CallKey
