import Mathlib.Data.List.Forall2
import Bindery.Proofs.Memo.Watch

/-!
# Histories of calls

Any function, called through a cache: it may keep a state of its own, look at
the cache, and call itself for the very key that is being computed, so that
several bodies for one key are under way at once, each with a value of its
own in the end.

A body can take notes of what happens as it comes to it, with the cache as it
stands right after (`Moment`, `notedBody`). The notes do not disturb
(`forget_notedCall`), and if one kind of notes can be read off another, then
they can at the end of a run (`map_notedCall`).

The history of a run is the list of all its moments (`watchedCall`). It is
made of three steps and no others (`Recorded`): a call is a hit, or it starts
a body at a miss, or the innermost body ends and its result is settled. What
holds of every history is an induction over these steps.
-/

namespace Bindery.Memo

variable {K V σ : Type}

/-! ## Events -/

inductive Event (K V : Type) where
  /-- No value is stored for the key, and its body starts. -/
  | began (key : K)
  /-- A body for the key ends. The value is its own, not yet a stored one. -/
  | computed (key : K) (value : V)
  /-- A call for the key ends, and gives the value to its caller. -/
  | returned (key : K) (value : V)

namespace Event

def begun? : Event K V → Option K
  | .began key => some key
  | .computed _ _ | .returned _ _ => none

def answer? : Event K V → Option (K × V)
  | .returned key value => some (key, value)
  | .began _ | .computed _ _ => none

def resultFor? [BEq K] (key : K) : Event K V → Option V
  | .computed other value => if other == key then some value else none
  | .began _ | .returned _ _ => none

end Event

variable [BEq K] [Hashable K]

/-- An event, and the cache right after it. -/
structure Moment (K V : Type) [BEq K] [Hashable K] where
  event : Event K V
  cache : Cache K V

/-- A body begins for a key that is not stored, and a call returns what is
stored for its key. -/
def Moment.Faithful (moment : Moment K V) : Prop :=
  match moment.event with
  | .began key => moment.cache.find? key = none
  | .computed _ _ => True
  | .returned key value => moment.cache.find? key = some value

/-- Keys that a body has been run for, in the order in which the runs began. -/
def invoked (history : List (Moment K V)) : List K := history.filterMap (·.event.begun?)

/-- The calls, nested ones too, each with what it has returned. -/
def answers (history : List (Moment K V)) : List (K × V) := history.filterMap (·.event.answer?)

/-- Value of the body for a key that is the first one to end. -/
def firstResult? (history : List (Moment K V)) (key : K) : Option V :=
  history.findSome? (·.event.resultFor? key)

section Events

variable (moment : Moment K V) (history later : List (Moment K V)) (key : K)

@[simp] theorem invoked_nil : invoked ([] : List (Moment K V)) = [] := rfl

@[simp] theorem invoked_cons :
    invoked (moment :: history) = moment.event.begun?.toList ++ invoked history := by
  rw [invoked, List.filterMap_cons, ← invoked]
  cases moment.event.begun? <;> rfl

@[simp] theorem invoked_append : invoked (history ++ later) = invoked history ++ invoked later :=
  List.filterMap_append

@[simp] theorem answers_nil : answers ([] : List (Moment K V)) = [] := rfl

@[simp] theorem answers_cons :
    answers (moment :: history) = moment.event.answer?.toList ++ answers history := by
  rw [answers, List.filterMap_cons, ← answers]
  cases moment.event.answer? <;> rfl

@[simp] theorem answers_append : answers (history ++ later) = answers history ++ answers later :=
  List.filterMap_append

@[simp] theorem firstResult?_nil : firstResult? ([] : List (Moment K V)) key = none := rfl

@[simp] theorem firstResult?_cons : firstResult? (moment :: history) key =
    (moment.event.resultFor? key).or (firstResult? history key) := by
  rw [firstResult?, List.findSome?_cons, ← firstResult?]
  cases moment.event.resultFor? key <;> rfl

@[simp] theorem firstResult?_append : firstResult? (history ++ later) key =
    (firstResult? history key).or (firstResult? later key) :=
  List.findSome?_append

theorem mem_answers_iff {value : V} :
    (key, value) ∈ answers history ↔ ∃ moment ∈ history, moment.event = .returned key value := by
  rw [answers, List.mem_filterMap]
  refine exists_congr fun moment => and_congr_right fun _ => ?_
  cases moment.event <;> simp [Event.answer?]

end Events

/-! ## Notes -/

section Notes

variable {N N' : Type} (note : N → Moment K V → N)

/-- The body of a key, with notes: `note` adds a moment to them. -/
def Routine.noted (key : K) : Routine K V σ → N → Routine K V (σ × N)
  | .done value state, notes => .inspect fun cache =>
    .done value (state, note notes ⟨.computed key value, cache⟩)
  | .call other state resume, notes =>
    .call other (state, notes) fun value (state, notes) => .inspect fun cache =>
      (resume value state).noted key (note notes ⟨.returned other value, cache⟩)
  | .inspect resume, notes => .inspect fun cache => (resume cache).noted key notes

def notedBody (body : K → σ → Routine K V σ) (key : K) (state : σ × N) : Routine K V (σ × N) :=
  .inspect fun cache => (body key state.1).noted note key (note state.2 ⟨.began key, cache⟩)

/-- A call from outside. -/
def notedCall (body : K → σ → Routine K V σ) (fuel : Nat) (cache : Cache K V) (state : σ × N)
    (key : K) : Outcome K V (σ × N) :=
  (call (notedBody note body) fuel cache state key).map fun (value, (state, notes), cache) =>
    (value, (state, note notes ⟨.returned key value, cache⟩), cache)

theorem watches_noted (key : K) (routine : Routine K V σ) (notes : N) :
    Watches Prod.fst (routine.noted note key notes) routine := by
  induction routine generalizing notes with
  | done value state => exact .look fun cache => .done value (state, _)
  | call other state _ ih =>
      exact .call other (state, notes) fun value state => .look fun cache => ih value state.1 _
  | inspect _ ih => exact .inspect fun cache => ih cache notes

/-- **Notes do not disturb** a call. -/
theorem forget_notedCall (body : K → σ → Routine K V σ) (fuel : Nat) (cache : Cache K V)
    (state : σ × N) (key : K) :
    forgetNotes Prod.fst (notedCall note body fuel cache state key) =
      call body fuel cache state.1 key := by
  have hbody (key : K) (state : σ × N) :
      Watches Prod.fst (notedBody note body key state) (body key state.1) :=
    .look fun cache => watches_noted note key (body key state.1) _
  rw [← forget_call hbody fuel cache state key, notedCall]
  cases call (notedBody note body) fuel cache state key with
  | none => rfl
  | some result => rfl

variable {note} {note' : N' → Moment K V → N'} {read : N → N'}
  (hread : ∀ notes moment, read (note notes moment) = note' (read notes) moment)

include hread

theorem watches_noted_map (key : K) (routine : Routine K V σ) (notes : N) :
    Watches (Prod.map id read) (routine.noted note key notes)
      (routine.noted note' key (read notes)) := by
  induction routine generalizing notes with
  | done value state =>
      refine .inspect fun cache => ?_
      rw [← hread]
      exact .done value (state, _)
  | call other state _ ih =>
      refine .call other (state, notes) fun value state => .inspect fun cache => ?_
      have hrest := ih value state.1 (note state.2 ⟨.returned other value, cache⟩)
      rwa [hread] at hrest
  | inspect _ ih => exact .inspect fun cache => ih cache notes

/-- Notes that are read off other ones moment by moment are read off them in the end. -/
theorem map_notedCall (body : K → σ → Routine K V σ) (fuel : Nat) (cache : Cache K V)
    (state : σ × N) (key : K) :
    forgetNotes (Prod.map id read) (notedCall note body fuel cache state key) =
      notedCall note' body fuel cache (Prod.map id read state) key := by
  have hbody (key : K) (state : σ × N) : Watches (Prod.map id read) (notedBody note body key state)
      (notedBody note' body key (Prod.map id read state)) := by
    refine .inspect fun cache => ?_
    have hrest := watches_noted_map hread key (body key state.1) (note state.2 ⟨.began key, cache⟩)
    rwa [hread] at hrest
  rw [notedCall, notedCall, ← forget_call hbody fuel cache state key]
  cases call (notedBody note body) fuel cache state key with
  | none => rfl
  | some result =>
      obtain ⟨value, ⟨state, notes⟩, cache⟩ := result
      simp only [forgetNotes, Option.map_some, Prod.map, hread]

end Notes

/-! ## Histories -/

/-- Keep every moment. -/
def record (history : List (Moment K V)) (moment : Moment K V) : List (Moment K V) :=
  history ++ [moment]

/-- A call from outside, with the history of the run. -/
def watchedCall (body : K → σ → Routine K V σ) (fuel : Nat) (cache : Cache K V)
    (state : σ × List (Moment K V)) (key : K) : Outcome K V (σ × List (Moment K V)) :=
  notedCall record body fuel cache state key

/-! ## Steps -/

/-- A history, the cache after it, and the keys whose bodies are still under
way, the innermost first. -/
inductive Recorded : List K → Cache K V → List (Moment K V) → Prop where
  | fresh : Recorded [] .empty []
  | hit {busy cache history key value} (h : Recorded busy cache history)
      (hkey : cache.find? key = some value) :
      Recorded busy cache.hit (history ++ [⟨.returned key value, cache.hit⟩])
  | miss {busy cache history key} (h : Recorded busy cache history)
      (hkey : cache.find? key = none) :
      Recorded (key :: busy) cache.miss (history ++ [⟨.began key, cache.miss⟩])
  | settle {busy cache history key} (value : V) (h : Recorded (key :: busy) cache history) :
      Recorded busy (cache.settle key value).2
        (history ++ [⟨.computed key value, cache⟩,
          ⟨.returned key (cache.settle key value).1, (cache.settle key value).2⟩])

variable {busy keys : List K} {cache cache' : Cache K V} {history history' : List (Moment K V)}
  {state state' : σ} {key : K} {value : V} {body : K → σ → Routine K V σ} {fuel : Nat}

/-- A call goes on from a recorded history to another one. The caller is the
one to note what it returns. -/
def Records (nested : Cache K V → σ × List (Moment K V) → K → Outcome K V (σ × List (Moment K V))) :
    Prop :=
  ∀ ⦃busy cache state history key value state' history' cache'⦄, Recorded busy cache history →
    nested cache (state, history) key = some (value, (state', history'), cache') →
    history <+: history' ∧ Recorded busy cache' (history' ++ [⟨.returned key value, cache'⟩])

theorem recorded_run
    {nested : Cache K V → σ × List (Moment K V) → K → Outcome K V (σ × List (Moment K V))}
    (hnested : Records nested) {routine : Routine K V σ} (h : Recorded busy cache history)
    (hrun : (routine.noted record key history).run nested cache =
      some (value, (state', history'), cache')) :
    ∃ earlier, history' = earlier ++ [⟨.computed key value, cache'⟩] ∧ history <+: earlier ∧
      Recorded busy cache' earlier := by
  induction routine generalizing cache history with
  | done result state =>
      cases hrun
      exact ⟨history, rfl, List.prefix_rfl, h⟩
  | call other state resume ih =>
      rw [Routine.noted, Routine.run] at hrun
      cases hcall : nested cache (state, history) other with
      | none =>
          rw [hcall] at hrun
          cases hrun
      | some answer =>
          obtain ⟨result, ⟨state, history'⟩, cache⟩ := answer
          rw [hcall] at hrun
          obtain ⟨hmore, hrecorded⟩ := hnested h hcall
          obtain ⟨earlier, heq, hearlier, hend⟩ := ih result state hrecorded hrun
          exact ⟨earlier, heq, (hmore.trans (List.prefix_append _ _)).trans hearlier, hend⟩
  | inspect resume ih => exact ih cache h hrun

/-- The body of a call is recorded between its two ends. -/
theorem records_call (body : K → σ → Routine K V σ) (fuel : Nat) :
    Records (call (notedBody record body) fuel) := by
  induction fuel with
  | zero =>
      intro busy cache state history key value state' history' cache' h hcall
      cases hfind : cache.find? key with
      | none =>
          rw [call_zero_of_find?_eq_none hfind] at hcall
          cases hcall
      | some stored =>
          rw [call_of_find?_eq_some hfind] at hcall
          cases hcall
          exact ⟨List.prefix_rfl, h.hit hfind⟩
  | succ fuel ih =>
      intro busy cache state history key value state' history' cache' h hcall
      cases hfind : cache.find? key with
      | some stored =>
          rw [call_of_find?_eq_some hfind] at hcall
          cases hcall
          exact ⟨List.prefix_rfl, h.hit hfind⟩
      | none =>
          rw [call_succ_of_find?_eq_none hfind, Option.map_eq_some_iff] at hcall
          obtain ⟨⟨result, ⟨state, history⟩, cache⟩, hrun, heq⟩ := hcall
          cases heq
          obtain ⟨earlier, rfl, hearlier, hend⟩ := recorded_run ih (h.miss hfind) hrun
          refine ⟨((List.prefix_append _ _).trans hearlier).trans (List.prefix_append _ _), ?_⟩
          rw [List.append_assoc]
          exact hend.settle result

theorem recorded_callAll {values : List V} (h : Recorded [] cache history)
    (hall : callAll (watchedCall body fuel) cache (state, history) keys =
      some (values, (state', history'), cache')) :
    history <+: history' ∧ Recorded [] cache' history' ∧
      List.Forall₂ (fun key value => (key, value) ∈ answers history') keys values := by
  induction keys generalizing cache history state values with
  | nil =>
      cases hall
      exact ⟨List.prefix_rfl, h, .nil⟩
  | cons key keys ih =>
      rw [callAll] at hall
      cases hcall : call (notedBody record body) fuel cache (state, history) key with
      | none =>
          rw [watchedCall, notedCall, hcall] at hall
          cases hall
      | some answer =>
          obtain ⟨value, ⟨state, history₁⟩, cache₁⟩ := answer
          obtain ⟨hmore, hrecorded⟩ := records_call body fuel h hcall
          rw [watchedCall, notedCall, hcall] at hall
          dsimp only [Option.map_some, record] at hall
          cases hrest : callAll (watchedCall body fuel) cache₁
              (state, history₁ ++ [⟨.returned key value, cache₁⟩]) keys with
          | none =>
              rw [hrest] at hall
              cases hall
          | some rest =>
              obtain ⟨values, ⟨state, later⟩, cache⟩ := rest
              rw [hrest] at hall
              cases hall
              obtain ⟨hlater, hend, hvalues⟩ := ih hrecorded hrest
              refine ⟨(hmore.trans (List.prefix_append _ _)).trans hlater, hend, .cons ?_ hvalues⟩
              refine (mem_answers_iff _ _).mpr ⟨⟨.returned key value, cache₁⟩, hlater.subset ?_, rfl⟩
              exact List.mem_append_right _ List.mem_cons_self

/-- Calls that come to an end leave a recorded history. -/
theorem exists_watchedCall {values : List V}
    (hrun : callAll (call body fuel) .empty state keys = some (values, state', cache)) :
    ∃ history, callAll (watchedCall body fuel) .empty (state, []) keys =
        some (values, (state', history), cache) ∧
      Recorded [] cache history ∧
      List.Forall₂ (fun key value => (key, value) ∈ answers history) keys values := by
  have hforget := forget_callAll (forget_notedCall record body fuel) .empty (state, []) keys
  rw [hrun, forgetNotes, Option.map_eq_some_iff] at hforget
  obtain ⟨⟨values, ⟨state', history⟩, cache⟩, hwatched, heq⟩ := hforget
  cases heq
  obtain ⟨-, hrecorded, hvalues⟩ := recorded_callAll .fresh hwatched
  exact ⟨history, hwatched, hrecorded, hvalues⟩

end Bindery.Memo
