import Bindery.Proofs.Memo.History

/-!
# More fuel

A run that has a result has it with more fuel too: what a cache does depends
on the calls alone.
-/

namespace Bindery.Memo

variable {K V σ : Type} [BEq K] [Hashable K] {cache : Cache K V} {state : σ} {key : K}
  {nested nested' : Cache K V → σ → K → Outcome K V σ} {body : K → σ → Routine K V σ}
  {fuel fuel' : Nat} {result : V × σ × Cache K V}

theorem run_mono
    (h : ∀ cache state key result,
      nested cache state key = some result → nested' cache state key = some result)
    {routine : Routine K V σ} (hrun : routine.run nested cache = some result) :
    routine.run nested' cache = some result := by
  induction routine generalizing cache with
  | done value state => exact hrun
  | call key state resume ih =>
      rw [Routine.run] at hrun ⊢
      cases hcall : nested cache state key with
      | none =>
          rw [hcall] at hrun
          cases hrun
      | some answer =>
          rw [hcall] at hrun
          rw [h cache state key answer hcall]
          exact ih _ _ hrun
  | inspect resume ih => exact ih cache hrun

theorem call_succ (h : call body fuel cache state key = some result) :
    call body (fuel + 1) cache state key = some result := by
  induction fuel generalizing cache state key result with
  | zero =>
      cases hfind : cache.find? key with
      | none =>
          rw [call_zero_of_find?_eq_none hfind] at h
          cases h
      | some value =>
          rw [call_of_find?_eq_some hfind] at h ⊢
          exact h
  | succ fuel ih =>
      cases hfind : cache.find? key with
      | some value =>
          rw [call_of_find?_eq_some hfind] at h ⊢
          exact h
      | none =>
          rw [call_succ_of_find?_eq_none hfind, Option.map_eq_some_iff] at h ⊢
          obtain ⟨answer, hrun, hresult⟩ := h
          exact ⟨answer, run_mono (fun _ _ _ _ => ih) hrun, hresult⟩

theorem call_mono (hle : fuel ≤ fuel') (h : call body fuel cache state key = some result) :
    call body fuel' cache state key = some result := by
  induction hle with
  | refl => exact h
  | step _ ih => exact call_succ ih

theorem callAll_mono
    (h : ∀ cache state key result,
      nested cache state key = some result → nested' cache state key = some result)
    {keys : List K} {results : List V × σ × Cache K V}
    (hall : callAll nested cache state keys = some results) :
    callAll nested' cache state keys = some results := by
  induction keys generalizing cache state results with
  | nil => exact hall
  | cons key keys ih =>
      rw [callAll] at hall ⊢
      cases hcall : nested cache state key with
      | none =>
          rw [hcall] at hall
          cases hall
      | some answer =>
          obtain ⟨value, state, cache⟩ := answer
          simp only [hcall, h _ _ _ _ hcall] at hall ⊢
          cases hrest : callAll nested cache state keys with
          | none =>
              rw [hrest] at hall
              cases hall
          | some rest =>
              rw [hrest] at hall
              rw [ih hrest]
              exact hall

theorem notedCall_mono {N : Type} {note : N → Moment K V → N} {cache : Cache K V} {state : σ × N}
    {result : V × (σ × N) × Cache K V} (hle : fuel ≤ fuel')
    (h : notedCall note body fuel cache state key = some result) :
    notedCall note body fuel' cache state key = some result := by
  obtain ⟨answer, hcall, hresult⟩ := Option.map_eq_some_iff.mp h
  exact Option.map_eq_some_iff.mpr ⟨answer, call_mono hle hcall, hresult⟩

end Bindery.Memo
