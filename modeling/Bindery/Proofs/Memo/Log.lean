import Bindery.Proofs.Memo.History

/-!
# Logged runs

What a memoized function does apart from its results: the keys that its body
is run for, and the calls that are made. A log is a kind of notes
(`Log.enter`): the start of a body enters its key, and a call, nested or from
outside, is entered once it has returned.

A log is what its history comes to (`Log.ofHistory`), so a run leaves the one
when it leaves the other (`exists_loggedCall`), and what is known of histories
need not be proved of logs.
-/

namespace Bindery.Memo

variable {K V σ : Type}

/-! ## Logs -/

structure Log (K V : Type) where
  /-- A key for each run of the body, in the order in which they began. -/
  invoked : List K
  /-- The calls, each with what it has returned, in the order of their ends. -/
  calls : List (K × V)

namespace Log

def empty : Log K V := ⟨[], []⟩

def ran (log : Log K V) (key : K) : Log K V := { log with invoked := log.invoked ++ [key] }

def returned (log : Log K V) (key : K) (value : V) : Log K V :=
  { log with calls := log.calls ++ [(key, value)] }

def called (log : Log K V) : List K := log.calls.map Prod.fst

variable [BEq K] [Hashable K]

def enter (log : Log K V) (moment : Moment K V) : Log K V :=
  match moment.event with
  | .began key => log.ran key
  | .computed _ _ => log
  | .returned key value => log.returned key value

def ofHistory (history : List (Moment K V)) : Log K V := ⟨Memo.invoked history, answers history⟩

theorem ofHistory_record (history : List (Moment K V)) (moment : Moment K V) :
    ofHistory (record history moment) = (ofHistory history).enter moment := by
  obtain ⟨event, cache⟩ := moment
  cases event <;> simp [ofHistory, record, enter, ran, returned, Event.begun?, Event.answer?]

theorem mem_called_ofHistory_iff {history : List (Moment K V)} {key : K} :
    key ∈ (ofHistory history).called ↔ ∃ value, (key, value) ∈ answers history := by
  simp [called, ofHistory]

end Log

variable [BEq K] [Hashable K]

/-- A call from outside. -/
def loggedCall (body : K → σ → Routine K V σ) (fuel : Nat) (cache : Cache K V)
    (state : σ × Log K V) (key : K) : Outcome K V (σ × Log K V) :=
  notedCall Log.enter body fuel cache state key

/-- The log that calls leave is the log of their history. -/
theorem exists_loggedCall {body : K → σ → Routine K V σ} {fuel : Nat} {keys : List K}
    {state state' : σ} {values : List V} {cache : Cache K V}
    (hrun : callAll (call body fuel) .empty state keys = some (values, state', cache)) :
    ∃ history, Recorded [] cache history ∧
      callAll (loggedCall body fuel) .empty (state, .empty) keys =
        some (values, (state', .ofHistory history), cache) := by
  obtain ⟨history, hwatched, hrecorded, -⟩ := exists_watchedCall hrun
  have hread : forgetNotes (Prod.map id Log.ofHistory)
        (callAll (watchedCall body fuel) .empty (state, []) keys) =
      callAll (loggedCall body fuel) .empty (state, .empty) keys :=
    forget_callAll (map_notedCall Log.ofHistory_record body fuel) .empty (state, []) keys
  rw [hwatched] at hread
  exact ⟨history, hrecorded, hread.symm⟩

end Bindery.Memo
