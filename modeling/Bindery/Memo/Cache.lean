import Std.Data.HashMap

/-!
# Memoized functions

A cache holds the results of a function by key and counts its calls: hits,
which the table answers, and misses, which run the function. Nothing is ever
evicted. The counters are natural numbers; with 64 bits each they would have
room for fewer than 2^64 hits and as many misses, which no run comes near.

The function may call itself through the same cache, on any key, while its
own call is under way. Its body is therefore not a plain function but a
`Routine`: a result, or a request with a continuation. A request is a nested
call, or a look at the cache as it stands. A routine also threads a state of
its own, so that a body may depend on what happened before.

A value enters the table when the body that computes it ends, unless a nested
call for the same key has put one there: the first value stored is kept, and
every call returns what the table holds (`Cache.settle`).

Nested calls may go on for ever. `fuel` bounds how deep they nest; a run that
needs more has no result.
-/

namespace Bindery.Memo

variable {K V σ : Type} [BEq K] [Hashable K]

/-! ## Cache -/

structure Cache (K V : Type) [BEq K] [Hashable K] where
  table : Std.HashMap K V
  hits : Nat
  misses : Nat

structure Stats where
  hits : Nat
  misses : Nat
  entries : Nat
deriving DecidableEq, Repr

namespace Cache

def empty : Cache K V := ⟨∅, 0, 0⟩

def find? (cache : Cache K V) (key : K) : Option V := cache.table[key]?

def contains (cache : Cache K V) (key : K) : Bool := cache.table.contains key

def size (cache : Cache K V) : Nat := cache.table.size

def isEmpty (cache : Cache K V) : Bool := cache.table.isEmpty

def stats (cache : Cache K V) : Stats := ⟨cache.hits, cache.misses, cache.size⟩

/-- Shown for inspection; the results themselves are left out. -/
def debugText (cache : Cache K V) : String :=
  "Memoized \x7b entries: " ++ toString cache.size ++ ", hits: " ++ toString cache.hits ++
    ", misses: " ++ toString cache.misses ++ ", .. \x7d"

def hit (cache : Cache K V) : Cache K V := { cache with hits := cache.hits + 1 }

def miss (cache : Cache K V) : Cache K V := { cache with misses := cache.misses + 1 }

/-- Store a result unless its key has one; the value that the table holds
then. -/
def settle (cache : Cache K V) (key : K) (value : V) : V × Cache K V :=
  ((cache.find? key).getD value, { cache with table := cache.table.insertIfNew key value })

end Cache

/-! ## Bodies -/

/-- Body of a memoized function, from the next request on. -/
inductive Routine (K V σ : Type) [BEq K] [Hashable K] where
  | done (value : V) (state : σ)
  | call (key : K) (state : σ) (resume : V → σ → Routine K V σ)
  | inspect (resume : Cache K V → Routine K V σ)

/-- A call: the value, the state of the function and the cache after it. -/
abbrev Outcome (K V σ : Type) [BEq K] [Hashable K] := Option (V × σ × Cache K V)

/-- Run a body whose nested calls are answered by `nested`. -/
def Routine.run (nested : Cache K V → σ → K → Outcome K V σ) :
    Routine K V σ → Cache K V → Outcome K V σ
  | .done value state, cache => some (value, state, cache)
  | .call key state resume, cache =>
    match nested cache state key with
    | none => none
    | some (value, state, cache) => (resume value state).run nested cache
  | .inspect resume, cache => (resume cache).run nested cache

/-! ## Calls -/

/-- Call the function `body` through a cache. -/
def call (body : K → σ → Routine K V σ) (fuel : Nat) (cache : Cache K V) (state : σ) (key : K) :
    Outcome K V σ :=
  match cache.find? key with
  | some value => some (value, state, cache.hit)
  | none =>
    match fuel with
    | 0 => none
    | fuel + 1 =>
      match (body key state).run (call body fuel) cache.miss with
      | none => none
      | some (value, state, cache) =>
        let (value, cache) := cache.settle key value
        some (value, state, cache)

end Bindery.Memo
