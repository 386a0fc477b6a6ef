import Mathlib.Logic.Relation
import Bindery.Memo.Cache

/-!
# Plain recursion

A body that is determined by its key and by what its nested calls return is a
`Plan`: a value, or a call together with what follows for each result. It
keeps no state and never looks at the cache. What stands behind a result that
the call does not have never comes into play.

Without a cache such a function is plain recursion (`recurse`), where a call
runs the body of its key from the start. As for calls through a cache, `fuel`
bounds how deep they nest; more of it never changes a result
(`recurse_mono`), so a key has at most one value (`Computes`).
-/

namespace Bindery.Memo

/-- Body of a deterministic function, from the next call on. -/
inductive Plan (K V : Type) where
  | done (value : V)
  | call (key : K) (resume : V → Plan K V)

variable {K V σ : Type}

namespace Plan

/-- The plan as a body that calls through a cache. The state is carried along. -/
def routine [BEq K] [Hashable K] : Plan K V → σ → Routine K V σ
  | .done value, state => .done value state
  | .call key resume, state => .call key state fun value state => (resume value).routine state

/-- Result of a plan whose calls are answered by `nested`. -/
def eval (nested : K → Option V) : Plan K V → Option V
  | .done value => some value
  | .call key resume => (nested key).bind fun value => (resume value).eval nested

theorem eval_call_eq_some_iff {nested : K → Option V} {key : K} {resume : V → Plan K V}
    {value : V} :
    (call key resume).eval nested = some value ↔
      ∃ result, nested key = some result ∧ (resume result).eval nested = some value := by
  rw [eval, Option.bind_eq_some_iff]

theorem eval_mono {nested nested' : K → Option V}
    (h : ∀ key value, nested key = some value → nested' key = some value) {plan : Plan K V}
    {value : V} (heval : plan.eval nested = some value) : plan.eval nested' = some value := by
  induction plan with
  | done _ => exact heval
  | call key resume ih =>
      obtain ⟨result, hnested, heval⟩ := eval_call_eq_some_iff.mp heval
      exact eval_call_eq_some_iff.mpr ⟨result, h key result hnested, ih result heval⟩

end Plan

/-! ## Recursion -/

/-- The function without a cache. -/
def recurse (body : K → Plan K V) : Nat → K → Option V
  | 0, _ => none
  | fuel + 1, key => (body key).eval (recurse body fuel)

variable {body : K → Plan K V} {fuel fuel' : Nat} {key : K} {value value' : V}

theorem recurse_succ (h : recurse body fuel key = some value) :
    recurse body (fuel + 1) key = some value := by
  induction fuel generalizing key value with
  | zero => cases h
  | succ fuel ih => exact Plan.eval_mono (fun _ _ => ih) h

theorem recurse_eq_none_of_succ (h : recurse body (fuel + 1) key = none) :
    recurse body fuel key = none := by
  rw [Option.eq_none_iff_forall_ne_some] at h ⊢
  exact fun value hvalue => h value (recurse_succ hvalue)

theorem recurse_mono (hle : fuel ≤ fuel') (h : recurse body fuel key = some value) :
    recurse body fuel' key = some value := by
  induction hle with
  | refl => exact h
  | step _ ih => exact recurse_succ ih

/-- The recursion from a key ends, with this value. -/
def Computes (body : K → Plan K V) (key : K) (value : V) : Prop :=
  ∃ fuel, recurse body fuel key = some value

theorem Computes.unique (h : Computes body key value) (h' : Computes body key value') :
    value = value' := by
  obtain ⟨fuel, h⟩ := h
  obtain ⟨fuel', h'⟩ := h'
  have hmax := recurse_mono (Nat.le_max_left fuel fuel') h
  have hmax' := recurse_mono (Nat.le_max_right fuel fuel') h'
  exact Option.some.inj (hmax.symm.trans hmax')

/-- One bound serves finitely many keys. -/
theorem exists_fuel {keys : List K} (h : ∀ key ∈ keys, ∃ value, Computes body key value) :
    ∃ fuel, ∀ key ∈ keys, ∃ value, recurse body fuel key = some value := by
  induction keys with
  | nil => exact ⟨0, nofun⟩
  | cons key keys ih =>
      obtain ⟨⟨value, fuel, hkey⟩, hkeys⟩ := List.forall_mem_cons.mp h
      obtain ⟨fuel', hfuel⟩ := ih hkeys
      refine ⟨max fuel fuel', List.forall_mem_cons.mpr ⟨⟨value, ?_⟩, fun other hother => ?_⟩⟩
      · exact recurse_mono (Nat.le_max_left _ _) hkey
      · obtain ⟨value, hvalue⟩ := hfuel other hother
        exact ⟨value, recurse_mono (Nat.le_max_right _ _) hvalue⟩

/-! ## Needed keys -/

/-- The keys that a plan calls, one after the other, in the recursion. -/
inductive Plan.Asks (body : K → Plan K V) : Plan K V → K → Prop
  | here {key : K} {resume : V → Plan K V} : Asks body (.call key resume) key
  | later {key other : K} {resume : V → Plan K V} {value : V} (hkey : Computes body key value)
      (hrest : Asks body (resume value) other) : Asks body (.call key resume) other

/-- The recursion from a key comes to another one, at any depth. -/
abbrev Needs (body : K → Plan K V) : K → K → Prop :=
  Relation.ReflTransGen fun key other => (body key).Asks body other

end Bindery.Memo
