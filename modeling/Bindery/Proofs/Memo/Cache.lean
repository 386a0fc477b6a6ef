import Bindery.Memo.Cache

/-!
# Reading a cache

What a settled result leaves in a cache: its value under its key, unless the
key has one, and everything else as it was. Hits and misses leave the table
alone.

A call is read by what the table holds for its key: with a value there it is
a hit, and else it is the run of the body, with its result settled.
-/

namespace Bindery.Memo

variable {K V σ : Type} [BEq K] [Hashable K] {cache : Cache K V} {key other : K} {value : V}

namespace Cache

theorem find?_empty : (empty : Cache K V).find? key = none := Std.HashMap.getElem?_empty

@[simp] theorem find?_hit : cache.hit.find? key = cache.find? key := rfl

@[simp] theorem find?_miss : cache.miss.find? key = cache.find? key := rfl

@[simp] theorem contains_hit : cache.hit.contains key = cache.contains key := rfl

@[simp] theorem contains_miss : cache.miss.contains key = cache.contains key := rfl

theorem settle_of_find?_eq_none (value : V) (h : cache.find? key = none) :
    (cache.settle key value).1 = value := by
  rw [settle, h]
  rfl

section Lawful

variable [LawfulBEq K]

theorem contains_eq_isSome_find? : cache.contains key = (cache.find? key).isSome :=
  Std.HashMap.contains_eq_isSome_getElem?

theorem contains_of_find?_eq_some (h : cache.find? key = some value) :
    cache.contains key = true := by
  rw [contains_eq_isSome_find?, h]
  rfl

theorem find?_eq_none_iff : cache.find? key = none ↔ ¬cache.contains key = true := by
  rw [contains_eq_isSome_find?, Bool.not_eq_true, Option.isSome_eq_false_iff,
    Option.isNone_iff_eq_none]

/-! ## Settled results -/

theorem find?_settle : (cache.settle key value).2.find? other =
    if key == other && !cache.contains key then some value else cache.find? other := by
  simp only [settle, find?, Std.HashMap.getElem?_insertIfNew, contains, Bool.and_eq_true,
    Bool.not_eq_true', ← Std.HashMap.contains_iff_mem, Bool.not_eq_true]

theorem find?_settle_self (h : cache.find? key = none) :
    (cache.settle key value).2.find? key = some value := by
  have hno : cache.contains key = false := Bool.eq_false_iff.mpr (find?_eq_none_iff.mp h)
  rw [find?_settle, beq_self_eq_true, hno]
  rfl

theorem find?_settle_of_ne (hne : key ≠ other) :
    (cache.settle key value).2.find? other = cache.find? other := by
  rw [find?_settle, beq_eq_false_iff_ne.mpr hne]
  rfl

/-- The table then holds what the call returns. -/
theorem find?_settle_eq_some : (cache.settle key value).2.find? key =
    some (cache.settle key value).1 := by
  rw [find?_settle, beq_self_eq_true, Bool.true_and, settle, contains_eq_isSome_find?]
  cases cache.find? key <;> rfl

theorem contains_settle_iff : (cache.settle key value).2.contains other = true ↔
    key = other ∨ cache.contains other = true := by
  rw [settle, contains, Std.HashMap.contains_insertIfNew, Bool.or_eq_true, beq_iff_eq, contains]

theorem size_settle_of_find?_eq_none (h : cache.find? key = none) :
    (cache.settle key value).2.size = cache.size + 1 := by
  have hno : key ∉ cache.table := by
    rw [← Std.HashMap.contains_iff_mem]
    exact find?_eq_none_iff.mp h
  rw [settle, size, Std.HashMap.size_insertIfNew, if_neg hno, size]

/-! ## Stored keys -/

theorem exists_keys (cache : Cache K V) : ∃ keys : List K,
    keys.Nodup ∧ (∀ key, key ∈ keys ↔ cache.contains key = true) ∧ cache.size = keys.length :=
  ⟨cache.table.keys, Std.HashMap.nodup_keys,
    fun _ => Std.HashMap.mem_keys.trans Std.HashMap.contains_iff_mem.symm,
    Std.HashMap.length_keys.symm⟩

end Lawful

/-! ## Kept values -/

/-- What is stored for a key stays there. -/
def KeptIn (earlier later : Cache K V) : Prop :=
  ∀ key value, earlier.find? key = some value → later.find? key = some value

theorem KeptIn.refl (cache : Cache K V) : cache.KeptIn cache := fun _ _ => id

theorem KeptIn.trans {first second third : Cache K V} (h : first.KeptIn second)
    (h' : second.KeptIn third) : first.KeptIn third :=
  fun key value hfind => h' key value (h key value hfind)

theorem keptIn_settle [LawfulBEq K] (cache : Cache K V) (key : K) (value : V) :
    cache.KeptIn (cache.settle key value).2 := by
  intro other result hfind
  rw [find?_settle]
  split
  · next h =>
    rw [Bool.and_eq_true, Bool.not_eq_true', beq_iff_eq] at h
    obtain ⟨rfl, hno⟩ := h
    rw [contains_of_find?_eq_some hfind] at hno
    cases hno
  · exact hfind

end Cache

/-! ## Calls -/

variable {body : K → σ → Routine K V σ} {fuel : Nat} {state : σ}

theorem call_of_find?_eq_some (h : cache.find? key = some value) :
    call body fuel cache state key = some (value, state, cache.hit) := by
  rw [call.eq_def, h]

theorem call_zero_of_find?_eq_none (h : cache.find? key = none) :
    call body 0 cache state key = none := by
  rw [call, h]

theorem call_succ_of_find?_eq_none (h : cache.find? key = none) :
    call body (fuel + 1) cache state key =
      ((body key state).run (call body fuel) cache.miss).map fun (value, state, cache) =>
        ((cache.settle key value).1, state, (cache.settle key value).2) := by
  rw [call, h]
  cases (body key state).run (call body fuel) cache.miss with
  | none => rfl
  | some result => rfl

theorem call_succ_of_run_eq_some {state' : σ} {cache' : Cache K V} (h : cache.find? key = none)
    (hrun : (body key state).run (call body fuel) cache.miss = some (value, state', cache')) :
    call body (fuel + 1) cache state key =
      some ((cache'.settle key value).1, state', (cache'.settle key value).2) := by
  rw [call_succ_of_find?_eq_none h, hrun]
  rfl

end Bindery.Memo
