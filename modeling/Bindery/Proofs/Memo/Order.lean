import Mathlib.Data.List.Forall2
import Mathlib.Data.Option.Basic
import Bindery.Proofs.Memo.Recursion

/-!
# The order of calls

Which call is a hit depends on what was called before it: the first call for a
key in one order is nested in another order, and may come late in it. What the
calls leave behind does not depend on the order (`callAll_perm`).

The keys that the body is run for are those that the recursion comes to
(`Demanded`), a set that only depends on which keys are called. Each of these
bodies makes the calls that its plan makes in the recursion (`askedBy`),
whether they are hits or not. So the calls can be counted from the keys alone:
a call from outside for each key, and the nested calls of every body that was
run (`Tallied`). None is counted twice: a body enters the calls that it makes
itself, and leaves the deeper ones to the bodies that make them.
-/

namespace Bindery.Memo

variable {K V σ : Type}

/-! ## Nested calls of a plan -/

/-- The keys that a plan calls, in order, as far as `nested` answers. -/
def Plan.asked (nested : K → Option V) : Plan K V → List K
  | .done _ => []
  | .call key resume => key :: (nested key).elim [] fun value => (resume value).asked nested

theorem Plan.asked_call {nested : K → Option V} {key : K} {resume : V → Plan K V} {value : V}
    (h : nested key = some value) :
    (call key resume).asked nested = key :: (resume value).asked nested := by
  rw [asked, h]
  rfl

/-- The keys that the body of a key calls in the recursion. -/
def askedBy (body : K → Plan K V) (depth : Nat) (key : K) : List K :=
  (body key).asked (recurse body depth)

/-- The keys that the bodies call that a log has entered. -/
def Log.asked (body : K → Plan K V) (depth : Nat) (log : Log K V) : List K :=
  log.invoked.flatMap (askedBy body depth)

variable {body : K → Plan K V} {keys keys' invoked invoked' : List K} {log log' : Log K V}
  {key : K} {value : V} {values values' : List V} {depth fuel : Nat} {state state' : σ}

theorem Log.asked_ran :
    (log.ran key).asked body depth = log.asked body depth ++ askedBy body depth key := by
  rw [asked, ran, List.flatMap_append, List.flatMap_singleton, asked]

theorem Log.asked_returned : (log.returned key value).asked body depth = log.asked body depth :=
  rfl

theorem Log.length_calls_returned :
    (log.returned key value).calls.length = log.calls.length + 1 :=
  List.length_append

/-- From one log to a later one, each body that was run has entered the calls
that it makes, and `extra` other calls were entered. -/
def Tallied (body : K → Plan K V) (depth extra : Nat) (log log' : Log K V) : Prop :=
  log'.calls.length + (log.asked body depth).length =
    log.calls.length + (log'.asked body depth).length + extra

namespace Tallied

variable {log'' : Log K V} {extra : Nat}

theorem refl (log : Log K V) : Tallied body depth 0 log log := rfl

/-- A call is entered once it has returned, before the others are made. -/
theorem call (h : Tallied body depth 0 log log')
    (h' : Tallied body depth extra (log'.returned key value) log'') :
    Tallied body depth (extra + 1) log log'' := by
  rw [Tallied] at h h' ⊢
  rw [Log.length_calls_returned, Log.asked_returned] at h'
  omega

/-- A body that has made the calls of its plan owes none. -/
theorem of_ran (h : Tallied body depth (askedBy body depth key).length (log.ran key) log') :
    Tallied body depth 0 log log' := by
  have hcalls : (log.ran key).calls.length = log.calls.length := rfl
  rw [Tallied, Log.asked_ran, List.length_append] at h
  rw [Tallied]
  omega

/-- From the start, the calls are those of the bodies and the other ones. -/
theorem of_empty (h : Tallied body depth extra .empty log) :
    log.calls.length = (log.asked body depth).length + extra := by
  rw [Tallied] at h
  have hcalls : (Log.empty : Log K V).calls.length = 0 := rfl
  have hasked : ((Log.empty : Log K V).asked body depth).length = 0 := rfl
  omega

end Tallied

variable [BEq K] [Hashable K] {cache cache' : Cache K V}

/-- The table holds values of the recursion. -/
def Sound (body : K → Plan K V) (depth : Nat) (cache : Cache K V) : Prop :=
  ∀ key value, cache.find? key = some value → recurse body depth key = some value

theorem Sound.eq_of_find? {stored : V} (h : Sound body depth cache)
    (hkey : recurse body depth key = some value) (hfind : cache.find? key = some stored) :
    stored = value :=
  Option.some.inj ((h key stored hfind).symm.trans hkey)

theorem Sound.settle [LawfulBEq K] (h : Sound body depth cache)
    (hkey : recurse body depth key = some value) :
    (cache.settle key value).1 = value ∧ Sound body depth (cache.settle key value).2 := by
  constructor
  · rw [Cache.settle]
    cases hfind : cache.find? key with
    | none => rfl
    | some stored => exact h.eq_of_find? hkey hfind
  · intro other result hother
    rw [Cache.find?_settle] at hother
    split at hother
    · next heq =>
      rw [Bool.and_eq_true, beq_iff_eq] at heq
      rw [← heq.1, ← hother]
      exact hkey
    · exact h other result hother

/-- What `nested` returns is the value of the recursion. It leaves a sound
cache, and a log in which the bodies that it has run owe no calls. -/
def Tallies (body : K → Plan K V) (depth : Nat)
    (nested : Cache K V → σ × Log K V → K → Outcome K V (σ × Log K V)) : Prop :=
  ∀ ⦃cache state log key value result state' log' cache'⦄, Sound body depth cache →
    recurse body depth key = some value →
    nested cache (state, log) key = some (result, (state', log'), cache') →
    result = value ∧ Sound body depth cache' ∧ Tallied body depth 0 log log'

theorem tallied_run {nested : Cache K V → σ × Log K V → K → Outcome K V (σ × Log K V)}
    (hnested : Tallies body depth nested) {plan : Plan K V} {result : V}
    (hcache : Sound body depth cache) (heval : plan.eval (recurse body depth) = some value)
    (hrun : ((plan.routine state).noted Log.enter key log).run nested cache =
      some (result, (state', log'), cache')) :
    result = value ∧ Sound body depth cache' ∧
      Tallied body depth (plan.asked (recurse body depth)).length log log' := by
  induction plan generalizing cache state log with
  | done _ =>
      cases heval
      cases hrun
      exact ⟨rfl, hcache, .refl log⟩
  | call other resume ih =>
      obtain ⟨answer, hanswer, heval⟩ := Plan.eval_call_eq_some_iff.mp heval
      rw [Plan.routine, Routine.noted, Routine.run] at hrun
      cases hcall : nested cache (state, log) other with
      | none =>
          rw [hcall] at hrun
          cases hrun
      | some outcome =>
          obtain ⟨returned, ⟨state₁, log₁⟩, cache₁⟩ := outcome
          rw [hcall] at hrun
          obtain ⟨rfl, hcache₁, hlog₁⟩ := hnested hcache hanswer hcall
          obtain ⟨hresult, hcache', hlog'⟩ := ih returned hcache₁ heval hrun
          refine ⟨hresult, hcache', ?_⟩
          rw [Plan.asked_call hanswer]
          exact hlog₁.call hlog'

theorem tallies_call [LawfulBEq K] :
    Tallies (σ := σ) body depth (call (notedBody Log.enter (pureBody body)) fuel) := by
  -- A hit needs no fuel, so the table is asked before the fuel is.
  induction fuel using Nat.strongRecOn with
  | ind fuel ih =>
      intro cache state log key value result state' log' cache' hcache hkey hcall
      cases hfind : cache.find? key with
      | some stored =>
          rw [call_of_find?_eq_some hfind] at hcall
          cases hcall
          exact ⟨hcache.eq_of_find? hkey hfind, hcache, .refl log⟩
      | none =>
          cases fuel with
          | zero =>
              rw [call_zero_of_find?_eq_none hfind] at hcall
              cases hcall
          | succ fuel =>
              rw [call_succ_of_find?_eq_none hfind, Option.map_eq_some_iff] at hcall
              obtain ⟨⟨returned, after, cache₁⟩, hrun, heq⟩ := hcall
              cases heq
              have hbody : (body key).eval (recurse body depth) = some value := recurse_succ hkey
              have hmiss : Sound body depth cache.miss := hcache
              obtain ⟨rfl, hcache₁, hlog⟩ :=
                tallied_run (ih fuel (Nat.lt_succ_self fuel)) hmiss hbody hrun
              obtain ⟨hresult, hcache'⟩ := hcache₁.settle hkey
              exact ⟨hresult, hcache', hlog.of_ran⟩

/-- The calls from outside are those that no body makes. -/
theorem tallied_callAll [LawfulBEq K] (hcache : Sound body depth cache)
    (hkeys : ∀ key ∈ keys, ∃ value, recurse body depth key = some value)
    (hrun : callAll (loggedCall (pureBody body) fuel) cache (state, log) keys =
      some (values, (state', log'), cache')) :
    Tallied body depth keys.length log log' := by
  induction keys generalizing cache state log values with
  | nil =>
      cases hrun
      exact .refl log'
  | cons key keys ih =>
      obtain ⟨⟨value, hvalue⟩, hkeys⟩ := List.forall_mem_cons.mp hkeys
      rw [callAll, loggedCall, notedCall] at hrun
      cases hcall : call (notedBody Log.enter (pureBody body)) fuel cache (state, log) key with
      | none =>
          rw [hcall] at hrun
          cases hrun
      | some outcome =>
          obtain ⟨returned, ⟨state₁, log₁⟩, cache₁⟩ := outcome
          obtain ⟨rfl, hcache₁, hlog₁⟩ := tallies_call hcache hvalue hcall
          simp only [hcall, Option.map_some, Log.enter] at hrun
          cases hrest : callAll (loggedCall (pureBody body) fuel) cache₁
              (state₁, log₁.returned key returned) keys with
          | none =>
              rw [hrest] at hrun
              cases hrun
          | some outcome =>
              obtain ⟨rest, ⟨state₂, log₂⟩, cache₂⟩ := outcome
              rw [hrest] at hrun
              cases hrun
              exact hlog₁.call (ih hcache₁ hkeys hrest)

/-! ## What a run leaves -/

theorem Coherent.find?_eq_some_iff [LawfulBEq K] (h : Coherent body keys [] cache)
    (hkeys : ∀ key ∈ keys, cache.contains key = true) :
    cache.find? key = some value ↔ Demanded body keys key ∧ Computes body key value := by
  constructor
  · intro hkey
    exact ⟨h.demanded key (Cache.contains_of_find?_eq_some hkey), h.computes key value hkey⟩
  · intro ⟨hdemanded, hvalue⟩
    have hkey := (h.contains_iff hkeys).mpr hdemanded
    rw [Cache.contains_eq_isSome_find?, Option.isSome_iff_exists] at hkey
    obtain ⟨stored, hkey⟩ := hkey
    rw [hkey, (h.computes key stored hkey).unique hvalue]

/-- What calls for `keys` leave in a fresh cache, put in terms of the recursion.
The body is run for the keys `invoked`. -/
structure Leaves (body : K → Plan K V) (depth : Nat) (keys invoked : List K)
    (cache : Cache K V) : Prop where
  find?_iff : ∀ key value, cache.find? key = some value ↔
    Demanded body keys key ∧ Computes body key value
  invoked_nodup : invoked.Nodup
  invoked_iff : ∀ key, key ∈ invoked ↔ Demanded body keys key
  misses_eq : cache.misses = invoked.length
  size_eq : cache.size = invoked.length
  calls_eq : cache.hits + cache.misses =
    keys.length + (invoked.flatMap (askedBy body depth)).length

theorem exists_leaves [LawfulBEq K] (state : σ)
    (h : ∀ key ∈ keys, ∃ value, recurse body depth key = some value) :
    ∃ values invoked cache,
      (∀ fuel, depth ≤ fuel →
        callAll (call (pureBody body) fuel) .empty state keys = some (values, state, cache)) ∧
      values.map some = keys.map cache.find? ∧ Leaves body depth keys invoked cache := by
  obtain ⟨values, cache, hrun, hcoherent, hall, -, hcontains⟩ :=
    callAll_coherent state (answers_call (Nat.le_refl depth) nofun) coherent_empty (fun _ => id) h
  obtain ⟨history, hrecorded, hlogged⟩ := exists_loggedCall hrun
  have htallied : Tallied body depth keys.length .empty (.ofHistory history) := by
    refine tallied_callAll (fun key value hkey => ?_) h hlogged
    rw [Cache.find?_empty] at hkey
    cases hkey
  have hvalues : keys.map cache.find? = values.map some := by
    have hdemanded : ∀ key ∈ keys, Demanded body keys key := fun key hkey => ⟨key, hkey, .refl⟩
    rw [← List.forall₂_eq_eq_eq, List.forall₂_map_left_iff, List.forall₂_map_right_iff]
    exact ((List.forall₂_and_left keys values).mpr ⟨hdemanded, hall⟩).imp
      fun key value => (hcoherent.find?_eq_some_iff hcontains).mpr
  have hmisses : cache.size = cache.misses := hcoherent.size_eq
  refine ⟨values, Memo.invoked history, cache, fun fuel hfuel => ?_, hvalues.symm,
    fun key value => hcoherent.find?_eq_some_iff hcontains,
    hrecorded.size_eq_misses_iff.mp hmisses, fun key => ?_, hrecorded.misses_eq,
    hmisses.trans hrecorded.misses_eq, ?_⟩
  · exact callAll_mono (fun _ _ _ _ => call_mono hfuel) hrun
  · rw [hrecorded.mem_invoked_iff, or_iff_left List.not_mem_nil, hcoherent.contains_iff hcontains]
  · rw [hrecorded.calls_eq, List.length_nil, Nat.add_zero, Nat.add_comm]
    exact htallied.of_empty

namespace Leaves

theorem of_perm (h : Leaves body depth keys invoked cache) (hperm : keys.Perm keys') :
    Leaves body depth keys' invoked cache := by
  have hdemanded (key : K) : Demanded body keys key ↔ Demanded body keys' key :=
    exists_congr fun _ => and_congr_left' hperm.mem_iff
  exact
    { h with
      find?_iff := fun key value => by rw [h.find?_iff, hdemanded]
      invoked_iff := fun key => by rw [h.invoked_iff, hdemanded]
      calls_eq := by rw [h.calls_eq, hperm.length_eq] }

/-- The recursion decides what the table holds and what the counters show. -/
theorem unique (h : Leaves body depth keys invoked cache)
    (h' : Leaves body depth keys invoked' cache') :
    (∀ key, cache.find? key = cache'.find? key) ∧ cache.stats = cache'.stats := by
  have hperm : invoked.Perm invoked' := by
    rw [List.perm_ext_iff_of_nodup h.invoked_nodup h'.invoked_nodup]
    exact fun key => (h.invoked_iff key).trans (h'.invoked_iff key).symm
  have hmisses : cache.misses = cache'.misses := by
    rw [h.misses_eq, h'.misses_eq, hperm.length_eq]
  have hsize : cache.size = cache'.size := by
    rw [h.size_eq, h'.size_eq, hperm.length_eq]
  have hcalls : cache.hits + cache.misses = cache'.hits + cache'.misses := by
    rw [h.calls_eq, h'.calls_eq, (hperm.flatMap_right (askedBy body depth)).length_eq]
  have hhits : cache.hits = cache'.hits := by
    rw [hmisses] at hcalls
    exact Nat.add_right_cancel hcalls
  constructor
  · intro key
    ext value
    rw [h.find?_iff, h'.find?_iff]
  · rw [Cache.stats, Cache.stats, hhits, hmisses, hsize]

end Leaves

/-- **The order of calls does not matter**: the same keys, called in two orders
through a fresh cache each, get the same values. The tables hold the same keys
with the same values, namely what the recursion comes to, and the counters
agree, although a key that is a miss in one run may be a hit in the other. -/
theorem callAll_perm [LawfulBEq K] (body : K → Plan K V) {keys keys' : List K}
    (hperm : keys.Perm keys') (state : σ) (h : ∀ key ∈ keys, ∃ value, Computes body key value) :
    ∃ values values' cache cache',
      (∃ enough, ∀ fuel, enough ≤ fuel →
        callAll (call (pureBody body) fuel) .empty state keys = some (values, state, cache) ∧
        callAll (call (pureBody body) fuel) .empty state keys' = some (values', state, cache')) ∧
      values.map some = keys.map cache.find? ∧ values'.map some = keys'.map cache'.find? ∧
      (∀ key, cache.find? key = cache'.find? key) ∧
      (∀ key value, cache.find? key = some value ↔
        (∃ top ∈ keys, Needs body top key) ∧ Computes body key value) ∧
      cache.stats = cache'.stats := by
  obtain ⟨depth, hkeys⟩ := exists_fuel h
  have hkeys' : ∀ key ∈ keys', ∃ value, recurse body depth key = some value :=
    fun key hkey => hkeys key (hperm.mem_iff.mpr hkey)
  obtain ⟨values, invoked, cache, hrun, hvalues, hleaves⟩ := exists_leaves state hkeys
  obtain ⟨values', invoked', cache', hrun', hvalues', hleaves'⟩ := exists_leaves state hkeys'
  obtain ⟨hfind, hstats⟩ := hleaves.unique (hleaves'.of_perm hperm.symm)
  exact ⟨values, values', cache, cache',
    ⟨depth, fun fuel hfuel => ⟨hrun fuel hfuel, hrun' fuel hfuel⟩⟩, hvalues, hvalues', hfind,
    hleaves.find?_iff, hstats⟩

/-- After the call for 6 the one for 4 is a hit; made first, it is a miss. -/
theorem callAll_fibonacci_perm :
    [6, 4].Perm [4, 6] ∧ (∀ key ∈ [6, 4], ∃ value, Computes fibonacci key value) ∧
      ∃ cache cache',
        (∃ enough, ∀ fuel, enough ≤ fuel →
          callAll (call (pureBody fibonacci) fuel) .empty () [6, 4] = some ([8, 3], (), cache) ∧
          callAll (call (pureBody fibonacci) fuel) .empty () [4, 6] = some ([3, 8], (), cache')) ∧
        cache.find? 5 = some 5 ∧ cache'.find? 5 = some 5 ∧ cache.stats = cache'.stats := by
  have hperm : [6, 4].Perm [4, 6] := .swap 4 6 []
  have hsix : Computes fibonacci 6 8 := ⟨7, by decide⟩
  have hfive : Computes fibonacci 5 5 := ⟨6, by decide⟩
  have hfour : Computes fibonacci 4 3 := ⟨5, by decide⟩
  have hends : ∀ key ∈ [6, 4], ∃ value, Computes fibonacci key value :=
    List.forall_mem_cons.mpr ⟨⟨8, hsix⟩, List.forall_mem_singleton.mpr ⟨3, hfour⟩⟩
  obtain ⟨values, values', cache, cache', hruns, hvalues, hvalues', hfind, hiff, hstats⟩ :=
    callAll_perm fibonacci hperm () hends
  have hstored : cache.find? 6 = some 8 ∧ cache.find? 5 = some 5 ∧ cache.find? 4 = some 3 :=
    ⟨(hiff 6 8).mpr ⟨⟨6, by decide, .refl⟩, hsix⟩,
      (hiff 5 5).mpr ⟨⟨6, by decide, .single .here⟩, hfive⟩,
      (hiff 4 3).mpr ⟨⟨4, by decide, .refl⟩, hfour⟩⟩
  have hfirst : values = [8, 3] := by
    refine List.map_injective_iff.mpr (Option.some_injective Nat) (hvalues.trans ?_)
    simp [hstored]
  have hsecond : values' = [3, 8] := by
    refine List.map_injective_iff.mpr (Option.some_injective Nat) (hvalues'.trans ?_)
    simp [← hfind, hstored]
  subst hfirst hsecond
  exact ⟨hperm, hends, cache, cache', hruns, hstored.2.1, hfind 5 ▸ hstored.2.1, hstats⟩

end Bindery.Memo
