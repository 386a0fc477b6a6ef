import Bindery.Proofs.Memo.Coherent
import Bindery.Proofs.Memo.FirstResult
import Bindery.Proofs.Memo.Fuel
import Bindery.Proofs.Memo.Log

/-!
# Recursion through a cache

A deterministic function called through a cache gives what the plain recursion
gives, and runs its body once for each key that the recursion comes to
(`callAll_eq_recursion`).

Two calls for one key are never under way together, as the plain recursion
would not end there. To see this, calls are followed by how deep they nest: a
key that is computed within some depth, but not within a smaller one, only
calls keys that the smaller depth is enough for (`answers_call`).

This is shown of the plain run. What its log says is then read off the
history, as for any function.
-/

namespace Bindery.Memo

variable {K V σ : Type} [BEq K] [Hashable K]

/-- A deterministic function as a body that is called through a cache. -/
def pureBody (body : K → Plan K V) (key : K) (state : σ) : Routine K V σ := (body key).routine state

variable {body : K → Plan K V} {tops busy keys : List K} {cache : Cache K V} {key : K} {value : V}
  {depth fuel : Nat}

/-! ## Nested calls -/

/-- While the bodies of `busy` are under way, `nested` gives the results of the
recursion for the keys that `depth` is enough for, and has stored them. -/
def Answers (body : K → Plan K V) (tops busy : List K) (depth : Nat)
    (nested : Cache K V → σ → K → Outcome K V σ) : Prop :=
  ∀ ⦃cache⦄ state ⦃key value⦄, Coherent body tops busy cache → Demanded body tops key →
    recurse body depth key = some value →
    ∃ cache', nested cache state key = some (value, state, cache') ∧
      Coherent body tops busy cache' ∧ cache'.contains key = true ∧
      ∀ other, cache.contains other = true → cache'.contains other = true

/-- A body that is run in a coherent state ends in one, and the table then
holds every key that it has asked for. -/
theorem run_routine {nested : Cache K V → σ → K → Outcome K V σ} (state : σ)
    (hnested : Answers body tops busy depth nested) {plan : Plan K V}
    (h : Coherent body tops busy cache)
    (hdemanded : ∀ key, plan.Asks body key → Demanded body tops key)
    (heval : plan.eval (recurse body depth) = some value) :
    ∃ cache', (plan.routine state).run nested cache = some (value, state, cache') ∧
      Coherent body tops busy cache' ∧
      (∀ key, cache.contains key = true → cache'.contains key = true) ∧
      ∀ key, plan.Asks body key → cache'.contains key = true := by
  induction plan generalizing cache with
  | done result =>
      cases heval
      exact ⟨cache, rfl, h, fun _ => id, nofun⟩
  | call key resume ih =>
      obtain ⟨result, hresult, heval⟩ := Plan.eval_call_eq_some_iff.mp heval
      obtain ⟨cache', hcall, h', hstored, hkept⟩ := hnested state h (hdemanded key .here) hresult
      have hlater (other : K) (hasks : (resume result).Asks body other) :
          (Plan.call key resume).Asks body other := .later ⟨depth, hresult⟩ hasks
      obtain ⟨cache'', hrun, h'', hkept', hasked⟩ :=
        ih result h' (fun other hasks => hdemanded other (hlater other hasks)) heval
      refine ⟨cache'', ?_, h'', fun other hother => hkept' other (hkept other hother), ?_⟩
      · rw [Plan.routine, Routine.run, hcall]
        exact hrun
      · intro other hasks
        cases hasks with
        | here => exact hkept' key hstored
        | later hkey hrest =>
            cases hkey.unique ⟨depth, hresult⟩
            exact hasked other hrest

/-- The keys under way need more than `depth`, so a call that `depth` is enough
for is not for one of them. -/
theorem answers_call [LawfulBEq K] (hfuel : depth ≤ fuel)
    (hbusy : ∀ key ∈ busy, recurse body depth key = none) :
    Answers (σ := σ) body tops busy depth (call (pureBody body) fuel) := by
  induction depth generalizing fuel busy with
  | zero => exact fun cache state key value h hdemanded hrec => nomatch hrec
  | succ depth ih =>
      intro cache state key value h hdemanded hrec
      obtain ⟨fuel, rfl⟩ := Nat.exists_eq_add_of_le' (Nat.one_le_of_lt hfuel)
      have hdepth : depth ≤ fuel := Nat.le_of_succ_le_succ hfuel
      have hbelow (other : K) (hother : other ∈ busy) : recurse body depth other = none :=
        recurse_eq_none_of_succ (hbusy other hother)
      match hfind : cache.find? key, hless : recurse body depth key with
      | some stored, _ =>
          cases (h.computes key stored hfind).unique ⟨depth + 1, hrec⟩
          exact ⟨cache.hit, call_of_find?_eq_some hfind, h.hit,
            Cache.contains_of_find?_eq_some hfind, fun _ => id⟩
      | none, some result =>
          cases Option.some.inj ((recurse_succ hless).symm.trans hrec)
          exact ih (Nat.le_succ_of_le hdepth) hbelow state h hdemanded hless
      | none, none =>
          have hnot : key ∉ busy := fun hkey => by
            rw [hbusy key hkey] at hrec
            cases hrec
          have hnested : Answers (σ := σ) body tops (key :: busy) depth
              (call (pureBody body) fuel) :=
            ih hdepth (List.forall_mem_cons.mpr ⟨hless, hbelow⟩)
          obtain ⟨cache', hrun, h', hkept, hasked⟩ :=
            run_routine state hnested (h.miss hfind hnot)
              (fun other hasks => hdemanded.asks hasks) hrec
          have hfind' : cache'.find? key = none := h'.busy_absent key List.mem_cons_self
          refine ⟨(cache'.settle key value).2, ?_, h'.settle ⟨depth + 1, hrec⟩ hasked hdemanded,
            Cache.contains_settle_iff.mpr (Or.inl rfl), fun other hother =>
              Cache.contains_settle_iff.mpr (Or.inr (hkept other hother))⟩
          have hsettled := Cache.settle_of_find?_eq_none value hfind'
          rw [call_succ_of_run_eq_some hfind hrun, hsettled]

/-! ## Calls from outside -/

theorem callAll_coherent (state : σ)
    (hnested : Answers (σ := σ) body tops [] depth (call (pureBody body) fuel))
    (h : Coherent body tops [] cache) (hkeys : ∀ key ∈ keys, key ∈ tops)
    (hvalues : ∀ key ∈ keys, ∃ value, recurse body depth key = some value) :
    ∃ values cache', callAll (call (pureBody body) fuel) cache state keys =
        some (values, state, cache') ∧
      Coherent body tops [] cache' ∧ List.Forall₂ (Computes body) keys values ∧
      (∀ key, cache.contains key = true → cache'.contains key = true) ∧
      ∀ key ∈ keys, cache'.contains key = true := by
  induction keys generalizing cache with
  | nil => exact ⟨[], cache, rfl, h, .nil, fun _ => id, nofun⟩
  | cons key keys ih =>
      obtain ⟨hkey, hkeys⟩ := List.forall_mem_cons.mp hkeys
      obtain ⟨⟨value, hvalue⟩, hvalues⟩ := List.forall_mem_cons.mp hvalues
      obtain ⟨cache', hcall, h', hstored, hkept⟩ := hnested state h ⟨key, hkey, .refl⟩ hvalue
      obtain ⟨values, cache'', hrest, h'', hall, hkept', hcontains⟩ := ih h' hkeys hvalues
      refine ⟨value :: values, cache'', ?_, h'', .cons ⟨depth, hvalue⟩ hall,
        fun other hother => hkept' other (hkept other hother), ?_⟩
      · rw [callAll, hcall]
        simp only [hrest]
      · exact List.forall_mem_cons.mpr ⟨hkept' key hstored, hcontains⟩

/-- **Memoization is transparent**: calls made one after the other through a
fresh cache return the values of the recursion. The body is run at most once
for each key, and it is run for the keys that the recursion comes to; these
make up the table, and the counters count the runs and the calls. -/
theorem callAll_eq_recursion [LawfulBEq K] (body : K → Plan K V) (keys : List K) (state : σ)
    (h : ∀ key ∈ keys, ∃ value, Computes body key value) :
    ∃ values log cache,
      (∃ enough, ∀ fuel, enough ≤ fuel →
        callAll (call (pureBody body) fuel) .empty state keys = some (values, state, cache) ∧
        callAll (loggedCall (pureBody body) fuel) .empty (state, .empty) keys =
          some (values, (state, log), cache)) ∧
      List.Forall₂ (Computes body) keys values ∧
      (∀ call ∈ log.calls, Computes body call.1 call.2) ∧
      log.invoked.Nodup ∧
      (∀ key, key ∈ log.invoked ↔ cache.contains key = true) ∧
      (∀ key, key ∈ log.called ↔ cache.contains key = true) ∧
      (∀ key, cache.contains key = true ↔ ∃ top ∈ keys, Needs body top key) ∧
      cache.stats.misses = log.invoked.length ∧
      cache.stats.entries = log.invoked.length ∧
      cache.stats.hits + cache.stats.misses = log.calls.length := by
  obtain ⟨enough, hvalues⟩ := exists_fuel h
  obtain ⟨values, cache, hrun, hcoherent, hall, -, hcontains⟩ :=
    callAll_coherent state (answers_call (Nat.le_refl enough) nofun) coherent_empty (fun _ => id)
      hvalues
  obtain ⟨history, hrecorded, hlogged⟩ := exists_loggedCall hrun
  have hmisses : cache.size = cache.misses := hcoherent.size_eq
  refine ⟨values, .ofHistory history, cache, ⟨enough, fun fuel hfuel =>
      ⟨callAll_mono (fun _ _ _ _ => call_mono hfuel) hrun,
        callAll_mono (fun _ _ _ _ => notedCall_mono hfuel) hlogged⟩⟩,
    hall, fun call hcall => hcoherent.computes _ _ (hrecorded.find?_of_mem_answers hcall),
    hrecorded.size_eq_misses_iff.mp hmisses, fun key => ?_, fun key => ?_,
    fun key => hcoherent.contains_iff hcontains, hrecorded.misses_eq,
    hmisses.trans hrecorded.misses_eq, hrecorded.calls_eq⟩
  · exact (hrecorded.mem_invoked_iff key).trans (or_iff_left List.not_mem_nil)
  · rw [Log.mem_called_ofHistory_iff, hrecorded.exists_mem_answers_iff]

/-- Two calls whose recursions overlap. -/
def fibonacci (n : Nat) : Plan Nat Nat :=
  if n < 2 then .done n else .call (n - 1) fun a => .call (n - 2) fun b => .done (a + b)

theorem callAll_fibonacci :
    (∀ key ∈ [6, 4], ∃ value, Computes fibonacci key value) ∧
      ∃ log cache,
        (∃ enough, ∀ fuel, enough ≤ fuel →
          callAll (call (pureBody fibonacci) fuel) .empty () [6, 4] = some ([8, 3], (), cache) ∧
          callAll (loggedCall (pureBody fibonacci) fuel) .empty ((), .empty) [6, 4] =
            some ([8, 3], ((), log), cache)) ∧
        log.invoked.Nodup ∧
        5 ∈ log.invoked ∧ 5 ∈ log.called ∧
        cache.stats.misses = cache.stats.entries := by
  have hsix : Computes fibonacci 6 8 := ⟨7, by decide⟩
  have hfour : Computes fibonacci 4 3 := ⟨5, by decide⟩
  have hends : ∀ key ∈ [6, 4], ∃ value, Computes fibonacci key value :=
    List.forall_mem_cons.mpr ⟨⟨8, hsix⟩, List.forall_mem_singleton.mpr ⟨3, hfour⟩⟩
  obtain ⟨values, log, cache, hruns, hall, -, hnodup, hinvoked, hcalled, hneeded, hmisses,
    hentries, -⟩ := callAll_eq_recursion fibonacci [6, 4] () hends
  have hvalues : values = [8, 3] := by
    obtain _ | ⟨hfirst, _ | ⟨hsecond, _ | _⟩⟩ := hall
    rw [hfirst.unique hsix, hsecond.unique hfour]
  have hfive : cache.contains 5 = true :=
    (hneeded 5).mpr ⟨6, List.mem_cons_self, Relation.ReflTransGen.single .here⟩
  subst hvalues
  exact ⟨hends, log, cache, hruns, hnodup, (hinvoked 5).mpr hfive, (hcalled 5).mpr hfive,
    hmisses.trans hentries.symm⟩

end Bindery.Memo
