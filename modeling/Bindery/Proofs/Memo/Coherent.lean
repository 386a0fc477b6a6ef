import Mathlib.Data.List.Nodup
import Bindery.Proofs.Memo.Cache
import Bindery.Proofs.Memo.Plan

/-!
# Coherent caches

A body calls back into the cache while its own call is under way, so at no
time in between does the table hold all keys that the body has been run for:
those that are under way (`busy`) are missing. `Coherent` says what holds all
the same of the cache of a deterministic function. A run goes from one
coherent state to the next by three steps: a hit (`Coherent.hit`), the start
of a body at a miss (`Coherent.miss`), and the end of a body, when its result
is settled (`Coherent.settle`).

Every miss is a body under way or an entry of the table (`size_eq`). For a
function of any kind there may be more misses; that there are none here says
that no body is run twice for one key.
-/

namespace Bindery.Memo

variable {K V : Type}

/-- Some key called from outside needs this one. -/
def Demanded (body : K → Plan K V) (tops : List K) (key : K) : Prop :=
  ∃ top ∈ tops, Needs body top key

variable {body : K → Plan K V} {tops busy : List K} {key other : K} {value : V}

theorem Demanded.asks (h : Demanded body tops key) (hasks : (body key).Asks body other) :
    Demanded body tops other := by
  obtain ⟨top, htop, hneeds⟩ := h
  exact ⟨top, htop, hneeds.tail hasks⟩

variable [BEq K] [Hashable K] {cache : Cache K V}

/-- A cache at any time of a run, between two steps. `busy` holds the keys
whose bodies are under way. -/
structure Coherent (body : K → Plan K V) (tops busy : List K) (cache : Cache K V) : Prop where
  computes : ∀ key value, cache.find? key = some value → Computes body key value
  closed : ∀ key, cache.contains key = true →
    ∀ other, (body key).Asks body other → cache.contains other = true
  demanded : ∀ key, cache.contains key = true → Demanded body tops key
  busy_nodup : busy.Nodup
  busy_absent : ∀ key ∈ busy, cache.find? key = none
  size_eq : cache.size + busy.length = cache.misses

variable [LawfulBEq K]

theorem coherent_empty : Coherent body tops [] .empty := by
  have habsent (key : K) : ¬(Cache.empty : Cache K V).contains key = true :=
    Cache.find?_eq_none_iff.mp Cache.find?_empty
  constructor
  case computes =>
    intro key value hfind
    rw [Cache.find?_empty] at hfind
    cases hfind
  case closed => exact fun key hkey => absurd hkey (habsent key)
  case demanded => exact fun key hkey => absurd hkey (habsent key)
  case busy_nodup => exact List.nodup_nil
  case busy_absent => exact nofun
  case size_eq => rfl

namespace Coherent

omit [LawfulBEq K] in
theorem hit (h : Coherent body tops busy cache) : Coherent body tops busy cache.hit := { h with }

omit [LawfulBEq K] in
theorem miss (h : Coherent body tops busy cache) (hkey : cache.find? key = none)
    (hbusy : key ∉ busy) : Coherent body tops (key :: busy) cache.miss :=
  { h with
    busy_nodup := List.nodup_cons.mpr ⟨hbusy, h.busy_nodup⟩
    busy_absent := List.forall_mem_cons.mpr ⟨hkey, h.busy_absent⟩
    size_eq := congrArg (· + 1) h.size_eq }

/-- The body of `key` has ended, and every key that it asked for is in the
table. -/
theorem settle (h : Coherent body tops (key :: busy) cache) (hvalue : Computes body key value)
    (hasked : ∀ other, (body key).Asks body other → cache.contains other = true)
    (hdemanded : Demanded body tops key) :
    Coherent body tops busy (cache.settle key value).2 := by
  have hkey : cache.find? key = none := h.busy_absent key List.mem_cons_self
  obtain ⟨hbusy, hnodup⟩ := List.nodup_cons.mp h.busy_nodup
  constructor
  case computes =>
    intro other result hother
    rcases eq_or_ne key other with rfl | hne
    · rw [Cache.find?_settle_self hkey] at hother
      exact Option.some.inj hother ▸ hvalue
    · rw [Cache.find?_settle_of_ne hne] at hother
      exact h.computes other result hother
  case closed =>
    intro other hother asked hasks
    refine Cache.contains_settle_iff.mpr (Or.inr ?_)
    rcases Cache.contains_settle_iff.mp hother with rfl | hother
    · exact hasked asked hasks
    · exact h.closed other hother asked hasks
  case demanded =>
    intro other hother
    rcases Cache.contains_settle_iff.mp hother with rfl | hother
    · exact hdemanded
    · exact h.demanded other hother
  case busy_nodup => exact hnodup
  case busy_absent =>
    intro other hother
    have hne : key ≠ other := fun heq => hbusy (heq ▸ hother)
    rw [Cache.find?_settle_of_ne hne]
    exact h.busy_absent other (List.mem_cons_of_mem key hother)
  case size_eq =>
    have hsize := h.size_eq
    rw [List.length_cons] at hsize
    rw [Cache.size_settle_of_find?_eq_none hkey, Nat.add_right_comm]
    exact hsize

omit [LawfulBEq K] in
/-- Once the keys called from outside are in the table, it holds all that they need, and no
more. -/
theorem contains_iff (h : Coherent body tops busy cache)
    (htops : ∀ key ∈ tops, cache.contains key = true) :
    cache.contains key = true ↔ Demanded body tops key := by
  constructor
  · exact h.demanded key
  · rintro ⟨top, htop, hneeds⟩
    induction hneeds with
    | refl => exact htops top htop
    | tail _ hasks ih => exact h.closed _ ih _ hasks

end Coherent

end Bindery.Memo
