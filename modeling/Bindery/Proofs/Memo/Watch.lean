import Bindery.Proofs.Memo.Cache

/-!
# Watched runs

A body can keep notes on its own run: it carries more state than before, and
may look at the cache where it did not, but makes the same calls and ends
with the same value (`Watches`). Notes do not disturb. Without them, the run
of such a body is the run of the body that it watches, for a single call
(`forget_call`) as for calls made one after the other (`forget_callAll`).
-/

namespace Bindery.Memo

variable {K V σ σ' : Type} [BEq K] [Hashable K]

/-- Calls made one after the other; the values that they return, in order. -/
def callAll (call : Cache K V → σ → K → Outcome K V σ) :
    Cache K V → σ → List K → Option (List V × σ × Cache K V)
  | cache, state, [] => some ([], state, cache)
  | cache, state, key :: keys =>
    match call cache state key with
    | none => none
    | some (value, state, cache) =>
      match callAll call cache state keys with
      | none => none
      | some (values, state, cache) => some (value :: values, state, cache)

/-! ## Watching bodies -/

/-- The first body makes the calls of the second one. `forget` takes from its
state what the second one does not have. -/
inductive Watches (forget : σ' → σ) : Routine K V σ' → Routine K V σ → Prop where
  | done (value : V) (state : σ') : Watches forget (.done value state) (.done value (forget state))
  | call {resume' : V → σ' → Routine K V σ'} {resume : V → σ → Routine K V σ} (key : K)
      (state : σ') (h : ∀ value state, Watches forget (resume' value state)
        (resume value (forget state))) :
      Watches forget (.call key state resume') (.call key (forget state) resume)
  | inspect {resume' : Cache K V → Routine K V σ'} {resume : Cache K V → Routine K V σ}
      (h : ∀ cache, Watches forget (resume' cache) (resume cache)) :
      Watches forget (.inspect resume') (.inspect resume)
  | look {resume' : Cache K V → Routine K V σ'} {routine : Routine K V σ}
      (h : ∀ cache, Watches forget (resume' cache) routine) :
      Watches forget (.inspect resume') routine

/-! ## Without the notes -/

/-- A result without the notes in its state. -/
def forgetNotes {α : Type} (forget : σ' → σ) (outcome : Option (α × σ' × Cache K V)) :
    Option (α × σ × Cache K V) :=
  outcome.map fun (value, state, cache) => (value, forget state, cache)

variable {forget : σ' → σ}

theorem Watches.forget_run {nested' : Cache K V → σ' → K → Outcome K V σ'}
    {nested : Cache K V → σ → K → Outcome K V σ}
    (hnested : ∀ cache state key,
      forgetNotes forget (nested' cache state key) = nested cache (forget state) key)
    {routine' : Routine K V σ'} {routine : Routine K V σ} (h : Watches forget routine' routine)
    (cache : Cache K V) :
    forgetNotes forget (routine'.run nested' cache) = routine.run nested cache := by
  induction h generalizing cache with
  | done value state => rfl
  | call key state _ ih =>
      rw [Routine.run, Routine.run, ← hnested cache state key]
      cases nested' cache state key with
      | none => rfl
      | some result =>
          obtain ⟨value, state, cache⟩ := result
          exact ih value state cache
  | inspect _ ih => exact ih cache cache
  | look _ ih => exact ih cache cache

/-- **Notes do not disturb** a call. -/
theorem forget_call {body' : K → σ' → Routine K V σ'} {body : K → σ → Routine K V σ}
    (h : ∀ key state, Watches forget (body' key state) (body key (forget state)))
    (fuel : Nat) (cache : Cache K V) (state : σ') (key : K) :
    forgetNotes forget (call body' fuel cache state key) =
      call body fuel cache (forget state) key := by
  induction fuel generalizing cache state key with
  | zero =>
      cases hfind : cache.find? key with
      | none => rw [call_zero_of_find?_eq_none hfind, call_zero_of_find?_eq_none hfind]; rfl
      | some value => rw [call_of_find?_eq_some hfind, call_of_find?_eq_some hfind]; rfl
  | succ fuel ih =>
      cases hfind : cache.find? key with
      | some value => rw [call_of_find?_eq_some hfind, call_of_find?_eq_some hfind]; rfl
      | none =>
          have hrun := (h key state).forget_run ih cache.miss
          rw [call_succ_of_find?_eq_none hfind, call_succ_of_find?_eq_none hfind, ← hrun,
            forgetNotes, forgetNotes, Option.map_map, Option.map_map]
          rfl

theorem forget_callAll {call' : Cache K V → σ' → K → Outcome K V σ'}
    {call : Cache K V → σ → K → Outcome K V σ}
    (h : ∀ cache state key,
      forgetNotes forget (call' cache state key) = call cache (forget state) key)
    (cache : Cache K V) (state : σ') (keys : List K) :
    forgetNotes forget (callAll call' cache state keys) =
      callAll call cache (forget state) keys := by
  induction keys generalizing cache state with
  | nil => rfl
  | cons key keys ih =>
      rw [callAll, callAll, ← h cache state key]
      cases call' cache state key with
      | none => rfl
      | some result =>
          obtain ⟨value, state, cache⟩ := result
          have hrest := ih cache state
          simp only [forgetNotes, Option.map_some] at hrest ⊢
          rw [← hrest]
          cases callAll call' cache state keys with
          | none => rfl
          | some result => rfl

end Bindery.Memo
