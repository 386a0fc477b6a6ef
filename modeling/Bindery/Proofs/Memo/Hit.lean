import Bindery.Proofs.Memo.CallKey
import Bindery.Proofs.Memo.FirstResult

/-!
# Hits

A call is a hit exactly if a body for its key has come to an end before. While
bodies are under way their keys are not stored, so a call for one of them is a
miss as well. What is stored is told from the history of a run, at each of its
moments (`Recorded.atEach`) and for the next call after it (`hits_iff`).

For call keys this says what the normal form is for: whether a call is a hit
depends on its positional part and on the last value of each name, and on
nothing else of the way its arguments were given (`ofArgs_normal_form`).
-/

namespace Bindery.Memo

variable {K V σ : Type} [BEq K] [Hashable K] {busy : List K} {cache : Cache K V}
  {history : List (Moment K V)} {key : K} {body : K → σ → Routine K V σ}

/-! ## Moments -/

/-- A relation between each element of a list and what is before it. -/
def AtEach {α : Type} (R : List α → α → Prop) (l : List α) : Prop :=
  ∀ earlier x later, l = earlier ++ x :: later → R earlier x

theorem atEach_nil {α : Type} {R : List α → α → Prop} : AtEach R [] := by
  intro earlier x later h
  exact absurd h.symm (List.append_ne_nil_of_right_ne_nil _ (List.cons_ne_nil x later))

theorem AtEach.concat {α : Type} {R : List α → α → Prop} {l : List α} {x : α} (h : AtEach R l)
    (hx : R l x) : AtEach R (l ++ [x]) := by
  intro earlier y later heq
  rcases List.eq_nil_or_concat later with rfl | ⟨later, last, rfl⟩
  · obtain ⟨rfl, hlast⟩ := List.append_inj' heq rfl
    obtain rfl := List.singleton_inj.mp hlast
    exact hx
  · have hinit : l = earlier ++ y :: later := by
      have hconcat : l ++ [x] = (earlier ++ y :: later) ++ [last] := by simpa using heq
      exact (List.append_inj' hconcat rfl).1
    exact h earlier y later hinit

/-- A body for the key has come to an end. -/
def Ended (history : List (Moment K V)) (key : K) : Prop :=
  ∃ moment ∈ history, ∃ value, moment.event = .computed key value

/-- A body begins if none for its key has ended, and a call returns once one has. -/
def Expected (earlier : List (Moment K V)) (moment : Moment K V) : Prop :=
  match moment.event with
  | .began key => ¬Ended earlier key
  | .computed _ _ => True
  | .returned key _ => Ended earlier key

namespace Recorded

variable [LawfulBEq K]

theorem isSome_find?_iff (h : Recorded busy cache history) (key : K) :
    (cache.find? key).isSome = true ↔ Ended history key := by
  rw [h.find?_eq, firstResult?, List.findSome?_isSome_iff]
  refine exists_congr fun moment => and_congr_right fun _ => ?_
  cases moment.event with
  | began | returned => simp [Event.resultFor?]
  | computed other value => by_cases heq : other = key <;> simp [Event.resultFor?, heq]

theorem find?_eq_none_iff (h : Recorded busy cache history) (key : K) :
    cache.find? key = none ↔ ¬Ended history key := by
  rw [← h.isSome_find?_iff, Bool.not_eq_true, Option.isSome_eq_false_iff, Option.isNone_iff_eq_none]

theorem atEach (h : Recorded busy cache history) : AtEach Expected history := by
  induction h with
  | fresh => exact atEach_nil
  | hit h hkey ih => exact ih.concat ((h.isSome_find?_iff _).mp (Option.isSome_of_eq_some hkey))
  | miss h hkey ih => exact ih.concat ((h.find?_eq_none_iff _).mp hkey)
  | @settle busy cache history key value _ ih =>
      have hended : Ended (history ++ [⟨.computed key value, cache⟩]) key :=
        ⟨_, List.mem_append_right _ List.mem_cons_self, value, rfl⟩
      have hcomputed : Expected history ⟨.computed key value, cache⟩ := trivial
      have hreturned : Expected (history ++ [⟨.computed key value, cache⟩])
          ⟨.returned key (cache.settle key value).1, (cache.settle key value).2⟩ := hended
      have hboth := (ih.concat hcomputed).concat hreturned
      rwa [List.append_assoc] at hboth

end Recorded

/-! ## The next call -/

/-- Calls for the key are answered from the table. -/
def Hits (body : K → σ → Routine K V σ) (cache : Cache K V) (key : K) : Prop :=
  ∀ fuel state, ∃ value, call body fuel cache state key = some (value, state, cache.hit)

/-- Calls for the key run a body, and one that comes to an end has been counted. -/
def Misses (body : K → σ → Routine K V σ) (cache : Cache K V) (key : K) : Prop :=
  ∀ fuel state value state' cache',
    call body fuel cache state key = some (value, state', cache') → cache.misses < cache'.misses

theorem Hits.not_misses (h : Hits body cache key) (state : σ) : ¬Misses body cache key := by
  intro hmisses
  obtain ⟨value, hcall⟩ := h 0 state
  exact Nat.lt_irrefl _ (hmisses 0 state value state cache.hit hcall)

namespace Recorded

variable [LawfulBEq K]

/-- A body that was run has begun in the history, since its key is stored after it. -/
theorem misses_of_find?_eq_none (h : Recorded [] cache history) (hkey : cache.find? key = none)
    (body : K → σ → Routine K V σ) : Misses body cache key := by
  intro fuel state value state' cache' hcall
  have hwatched := forget_notedCall record body fuel cache (state, history) key
  rw [hcall, forgetNotes, Option.map_eq_some_iff] at hwatched
  obtain ⟨⟨value, ⟨state', history'⟩, cache'⟩, hwatched, heq⟩ := hwatched
  cases heq
  rw [notedCall, Option.map_eq_some_iff] at hwatched
  obtain ⟨⟨value, ⟨state', later⟩, cache'⟩, hinner, heq⟩ := hwatched
  cases heq
  obtain ⟨hmore, hrecorded⟩ := records_call body fuel h hinner
  have hprefix : invoked history <+: invoked (later ++ [⟨.returned key value, cache'⟩]) :=
    (hmore.trans (List.prefix_append _ _)).filterMap _
  have hstored : cache'.find? key = some value :=
    hrecorded.faithful _ (List.mem_append_right _ List.mem_cons_self)
  rw [h.misses_eq, hrecorded.misses_eq]
  refine Nat.lt_of_le_of_ne hprefix.length_le fun hlength => ?_
  have hbegan : key ∈ invoked (later ++ [⟨.returned key value, cache'⟩]) :=
    (hrecorded.mem_invoked_iff key).mpr (.inl (Cache.contains_of_find?_eq_some hstored))
  rw [← hprefix.eq_of_length hlength, h.mem_invoked_iff, or_iff_left List.not_mem_nil] at hbegan
  exact Cache.find?_eq_none_iff.mp hkey hbegan

theorem hits_of_ended (h : Recorded busy cache history) (hkey : Ended history key)
    (body : K → σ → Routine K V σ) : Hits body cache key := by
  intro fuel state
  obtain ⟨value, hvalue⟩ := Option.isSome_iff_exists.mp ((h.isSome_find?_iff key).mpr hkey)
  exact ⟨value, call_of_find?_eq_some hvalue⟩

/-- **The next call is a hit if a body for its key has ended**, and a miss if not. -/
theorem hits_iff (h : Recorded [] cache history) (body : K → σ → Routine K V σ) (state : σ)
    (key : K) : (Hits body cache key ↔ Ended history key) ∧
      (Misses body cache key ↔ ¬Ended history key) := by
  have hmiss (hno : ¬Ended history key) : Misses body cache key :=
    h.misses_of_find?_eq_none ((h.find?_eq_none_iff key).mpr hno) body
  have hhit (hended : Ended history key) : Hits body cache key := h.hits_of_ended hended body
  constructor
  · refine ⟨fun hhits => ?_, hhit⟩
    exact Classical.byContradiction fun hno => hhits.not_misses state (hmiss hno)
  · exact ⟨fun hmisses hended => (hhit hended).not_misses state hmisses, hmiss⟩

end Recorded

/-! ## Call keys -/

section CallKeys

variable {P N : Type} [DecidableEq P] [DecidableEq N] [Hashable P] [Hashable N]

/-- A key with the same positional part and the same last values has been computed. -/
def Computed (history : List (Moment (CallKey P N) V)) (positional : P) (args : List (String × N)) :
    Prop :=
  ∃ positional' args', Ended history (.ofArgs positional' args') ∧ positional' = positional ∧
    ∀ name, CallKey.lastValue? args' name = CallKey.lastValue? args name

theorem computed_iff {history : List (Moment (CallKey P N) V)} {positional : P}
    {args : List (String × N)} :
    Computed history positional args ↔ Ended history (.ofArgs positional args) := by
  constructor
  · rintro ⟨positional', args', hended, hsame⟩
    rwa [← CallKey.ofArgs_eq_iff.mpr hsame]
  · intro hended
    exact ⟨positional, args, hended, rfl, fun _ => rfl⟩

/-- **Call keys forget how their arguments were given.** A key lists each name
once, in order, with its last value; keys are equal if and only if positional
part and last values are; total orders on the arguments order the keys. A
memoized function is run once for all argument lists that make one key: a body
begins only if no such key has been computed, and a call returns only if one
has, so that the next call is a hit exactly if one has. -/
theorem ofArgs_normal_form :
    (∀ (p : P) (args : List (String × N)), (CallKey.ofArgs p args).Lists p args)
    ∧ (∀ (p p' : P) (args args' : List (String × N)),
        CallKey.ofArgs p args = CallKey.ofArgs p' args' ↔
          p = p' ∧ ∀ name, CallKey.lastValue? args name = CallKey.lastValue? args' name)
    ∧ (∀ [Ord P] [Std.TransOrd P] [Std.LawfulEqOrd P] [Ord N] [Std.TransOrd N]
        [Std.LawfulEqOrd N], CallKey.TotallyOrdered (CallKey P N))
    ∧ ∀ (V σ : Type) (body : CallKey P N → σ → Routine (CallKey P N) V σ) (fuel : Nat)
        (calls : List (P × List (String × N))) (state state' : σ) (values : List V)
        (cache : Cache (CallKey P N) V),
        callAll (call body fuel) .empty state (calls.map fun c => .ofArgs c.1 c.2) =
          some (values, state', cache) →
        ∃ history,
          callAll (watchedCall body fuel) .empty (state, []) (calls.map fun c => .ofArgs c.1 c.2) =
            some (values, (state', history), cache)
          ∧ (∀ earlier moment later, history = earlier ++ moment :: later → ∀ p args,
              (moment.event = .began (.ofArgs p args) → ¬Computed earlier p args) ∧
              ∀ value, moment.event = .returned (.ofArgs p args) value → Computed earlier p args)
          ∧ ∀ p args, (Hits body cache (.ofArgs p args) ↔ Computed history p args) ∧
              (Misses body cache (.ofArgs p args) ↔ ¬Computed history p args) := by
  refine ⟨CallKey.lists_ofArgs, fun _ _ _ _ => CallKey.ofArgs_eq_iff, CallKey.totallyOrdered, ?_⟩
  intro V σ body fuel calls state state' values cache hrun
  obtain ⟨history, hwatched, hrecorded, -⟩ := exists_watchedCall hrun
  simp only [computed_iff]
  refine ⟨history, hwatched, fun earlier moment later hsplit p args => ?_, fun p args =>
    hrecorded.hits_iff body state' _⟩
  have hmoment := hrecorded.atEach earlier moment later hsplit
  constructor
  · intro hevent
    rwa [Expected, hevent] at hmoment
  · intro value hevent
    rwa [Expected, hevent] at hmoment

/-- A function of its key alone. -/
def readB (key : CallKey Nat Nat) (state : Unit) : Routine (CallKey Nat Nat) (Option Nat) Unit :=
  .done (key.named? "b") state

/-- Two lists of arguments in another order, one of them with a value that is replaced: the second
call is a hit, and so is one with the arguments in a third order, but not one without `a`. -/
theorem ofArgs_normal_form_reordered :
    CallKey.ofArgs 4 [("b", 1), ("a", 0)] = CallKey.ofArgs 4 [("a", 7), ("b", 1), ("a", 0)]
    ∧ ∃ (cache : Cache (CallKey Nat Nat) (Option Nat))
        (history : List (Moment (CallKey Nat Nat) (Option Nat))),
      callAll (watchedCall readB 1) .empty ((), []) [.ofArgs 4 [("b", 1), ("a", 0)],
          .ofArgs 4 [("a", 7), ("b", 1), ("a", 0)]] = some ([some 1, some 1], ((), history), cache)
      ∧ cache.stats = ⟨1, 1, 1⟩
      ∧ Computed history 4 [("a", 0), ("b", 1)]
      ∧ Hits readB cache (.ofArgs 4 [("a", 0), ("b", 1)])
      ∧ Misses readB cache (.ofArgs 4 [("b", 1)]) := by
  have hfirst : CallKey.ofArgs 4 [("b", 1), ("a", 0)] =
      CallKey.ofArgs 4 [("a", 7), ("b", 1), ("a", 0)] := by decide +kernel
  have hthird : CallKey.ofArgs 4 [("a", 0), ("b", 1)] =
      CallKey.ofArgs 4 [("b", 1), ("a", 0)] := by decide +kernel
  have hother : CallKey.ofArgs 4 [("b", 1), ("a", 0)] ≠ CallKey.ofArgs 4 [("b", 1)] := by
    decide +kernel
  have hvalue : (CallKey.ofArgs 4 [("b", 1), ("a", 0)]).named? "b" = some 1 := by decide +kernel
  have hrun : ∃ cache, callAll (call readB 1) .empty () [.ofArgs 4 [("b", 1), ("a", 0)],
        .ofArgs 4 [("a", 7), ("b", 1), ("a", 0)]] = some ([some 1, some 1], (), cache) ∧
      cache.stats = ⟨1, 1, 1⟩ ∧ cache.find? (.ofArgs 4 [("b", 1), ("a", 0)]) = some (some 1) ∧
      cache.find? (.ofArgs 4 [("b", 1)]) = none := by
    rw [← hfirst]
    simp [callAll, call.eq_def, readB, Routine.run, Cache.find?, Cache.settle, Cache.miss,
      Cache.hit, Cache.empty, Cache.stats, Cache.size, Std.HashMap.size_insertIfNew,
      Std.HashMap.getElem_insertIfNew, hother, hvalue]
  obtain ⟨cache, hrun, hstats, hheld, hfree⟩ := hrun
  obtain ⟨history, hwatched, -, hnext⟩ := ofArgs_normal_form.2.2.2 (Option Nat) Unit readB 1
    [(4, [("b", 1), ("a", 0)]), (4, [("a", 7), ("b", 1), ("a", 0)])] () () _ cache hrun
  have hhits : Hits readB cache (.ofArgs 4 [("a", 0), ("b", 1)]) := by
    rw [hthird]
    exact fun fuel state => ⟨_, call_of_find?_eq_some hheld⟩
  have hmisses : ¬Hits readB cache (.ofArgs 4 [("b", 1)]) := by
    intro hhits
    obtain ⟨value, hcall⟩ := hhits 0 ()
    cases (call_zero_of_find?_eq_none hfree).symm.trans hcall
  refine ⟨hfirst, cache, history, hwatched, hstats, (hnext 4 _).1.mp hhits, hhits, ?_⟩
  exact (hnext 4 _).2.mpr (mt (hnext 4 _).1.mpr hmisses)

end CallKeys

end Bindery.Memo
