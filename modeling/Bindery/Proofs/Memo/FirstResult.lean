import Mathlib.Data.List.Perm.Subperm
import Bindery.Proofs.Memo.History

/-!
# The first result is kept

What holds of every recorded history, whatever the function does. The
counters count the bodies that have begun and the calls that have returned,
those still under way aside. The table holds, for each key, the result of the
body that was the first to end (`Recorded.find?_eq`). So a stored value is
never replaced, and a call returns the value that is stored: of several
bodies for one key that are under way at once, the innermost one decides for
all of them.
-/

namespace Bindery.Memo

variable {K V σ : Type} [BEq K] [Hashable K] {busy : List K} {cache : Cache K V}
  {history : List (Moment K V)} {key : K} {value : V}

namespace Recorded

/-! ## Counts -/

theorem misses_eq (h : Recorded busy cache history) : cache.misses = (invoked history).length := by
  induction h with
  | fresh => rfl
  | hit _ _ ih => simpa [Event.begun?, Cache.hit] using ih
  | miss _ _ ih => simpa [Event.begun?, Cache.miss] using ih
  | settle _ _ ih => simpa [Event.begun?, Cache.settle] using ih

theorem calls_eq (h : Recorded busy cache history) :
    cache.hits + cache.misses = (answers history).length + busy.length := by
  induction h with
  | fresh => rfl
  | hit _ _ ih =>
      simp only [answers_append, answers_cons, answers_nil, Event.answer?, Cache.hit,
        Option.toList_some, List.append_nil, List.length_append, List.length_singleton]
      omega
  | miss _ _ ih =>
      simp only [answers_append, answers_cons, answers_nil, Event.answer?, Cache.miss,
        Option.toList_none, List.append_nil, List.length_cons]
      omega
  | settle _ _ ih =>
      simp only [answers_append, answers_cons, answers_nil, Event.answer?, Cache.settle,
        Option.toList_none, Option.toList_some, List.nil_append, List.append_nil,
        List.length_append, List.length_cons, List.length_nil] at ih ⊢
      omega

variable [LawfulBEq K]

/-- A body has been run for the keys that are stored or still under way. -/
theorem mem_invoked_iff (h : Recorded busy cache history) (key : K) :
    key ∈ invoked history ↔ cache.contains key = true ∨ key ∈ busy := by
  induction h with
  | fresh =>
      have habsent : ¬(Cache.empty : Cache K V).contains key = true :=
        Cache.find?_eq_none_iff.mp Cache.find?_empty
      exact iff_of_false List.not_mem_nil (not_or.mpr ⟨habsent, List.not_mem_nil⟩)
  | hit _ _ ih => simpa [Event.begun?] using ih
  | miss _ _ ih => simp [Event.begun?, ih, or_assoc, or_comm]
  | settle _ _ ih =>
      simp only [invoked_append, invoked_cons, invoked_nil, Event.begun?, Option.toList_none,
        List.append_nil, ih, List.mem_cons, Cache.contains_settle_iff, eq_comm (a := key)]
      rw [or_left_comm, or_assoc]

/-! ## Stored values -/

/-- **The table holds the first results.** -/
theorem find?_eq (h : Recorded busy cache history) (key : K) :
    cache.find? key = firstResult? history key := by
  induction h with
  | fresh => exact Cache.find?_empty
  | hit _ _ ih => simpa [Event.resultFor?] using ih
  | miss _ _ ih => simpa [Event.resultFor?] using ih
  | @settle busy cache history other value _ ih =>
      simp only [firstResult?_append, firstResult?_cons, firstResult?_nil, Event.resultFor?, ← ih,
        Cache.find?_settle, Cache.contains_eq_isSome_find?, Option.or_none]
      by_cases heq : other = key
      · subst heq
        cases cache.find? other <;> simp
      · simp [heq]

theorem keptIn (h : Recorded busy cache history) :
    ∀ moment ∈ history, moment.cache.KeptIn cache := by
  induction h with
  | fresh => exact nofun
  | @hit busy cache history key value _ _ ih =>
      exact List.forall_mem_append.mpr ⟨ih, List.forall_mem_singleton.mpr (.refl _)⟩
  | @miss busy cache history key _ _ ih =>
      exact List.forall_mem_append.mpr ⟨ih, List.forall_mem_singleton.mpr (.refl _)⟩
  | @settle busy cache history key value _ ih =>
      have hkept := cache.keptIn_settle key value
      refine List.forall_mem_append.mpr ⟨fun moment hmem => (ih moment hmem).trans hkept, ?_⟩
      exact List.forall_mem_cons.mpr ⟨hkept, List.forall_mem_singleton.mpr (.refl _)⟩

/-- From one moment to a later one, no stored value is lost. -/
theorem pairwise_keptIn (h : Recorded busy cache history) :
    history.Pairwise fun earlier later => earlier.cache.KeptIn later.cache := by
  induction h with
  | fresh => exact .nil
  | hit h _ ih =>
      exact List.pairwise_append.mpr ⟨ih, List.pairwise_singleton _ _,
        fun moment hmem later hlater => List.mem_singleton.mp hlater ▸ h.keptIn moment hmem⟩
  | miss h _ ih =>
      exact List.pairwise_append.mpr ⟨ih, List.pairwise_singleton _ _,
        fun moment hmem later hlater => List.mem_singleton.mp hlater ▸ h.keptIn moment hmem⟩
  | @settle busy cache history key value h ih =>
      have hkept := cache.keptIn_settle key value
      refine List.pairwise_append.mpr ⟨ih, List.pairwise_pair.mpr hkept, ?_⟩
      intro moment hmem
      have hnow := h.keptIn moment hmem
      exact List.forall_mem_cons.mpr ⟨hnow, List.forall_mem_singleton.mpr (hnow.trans hkept)⟩

theorem faithful (h : Recorded busy cache history) : ∀ moment ∈ history, moment.Faithful := by
  induction h with
  | fresh => exact nofun
  | hit _ hkey ih => exact List.forall_mem_append.mpr ⟨ih, List.forall_mem_singleton.mpr hkey⟩
  | miss _ hkey ih => exact List.forall_mem_append.mpr ⟨ih, List.forall_mem_singleton.mpr hkey⟩
  | settle _ _ ih =>
      refine List.forall_mem_append.mpr ⟨ih, List.forall_mem_cons.mpr ⟨trivial, ?_⟩⟩
      exact List.forall_mem_singleton.mpr Cache.find?_settle_eq_some

theorem find?_of_mem_answers (h : Recorded busy cache history)
    (hanswer : (key, value) ∈ answers history) : cache.find? key = some value := by
  obtain ⟨⟨event, now⟩, hmem, rfl⟩ := (mem_answers_iff history key).mp hanswer
  exact h.keptIn _ hmem key value (h.faithful _ hmem)

/-- The keys that a call has returned for are those that are stored. -/
theorem exists_mem_answers_iff (h : Recorded busy cache history) (key : K) :
    (∃ value, (key, value) ∈ answers history) ↔ cache.contains key = true := by
  constructor
  · rintro ⟨value, hanswer⟩
    exact Cache.contains_of_find?_eq_some (h.find?_of_mem_answers hanswer)
  · intro hkey
    induction h with
    | fresh => exact absurd hkey (Cache.find?_eq_none_iff.mp Cache.find?_empty)
    | hit _ _ ih | miss _ _ ih =>
        obtain ⟨value, hvalue⟩ := ih hkey
        rw [answers_append]
        exact ⟨value, List.mem_append_left _ hvalue⟩
    | @settle busy cache history other value _ ih =>
        rw [answers_append]
        rcases Cache.contains_settle_iff.mp hkey with rfl | hkey
        · exact ⟨(cache.settle other value).1, List.mem_append_right _ (by simp [Event.answer?])⟩
        · obtain ⟨value, hvalue⟩ := ih hkey
          exact ⟨value, List.mem_append_left _ hvalue⟩

/-- A body never begins again for a key that is stored. -/
theorem pairwise_ne_began (h : Recorded busy cache history) :
    history.Pairwise fun earlier later =>
      ∀ key, earlier.cache.contains key = true → later.event ≠ .began key := by
  refine h.pairwise_keptIn.imp_of_mem ?_
  intro earlier ⟨event, now⟩ _ hlater hkept key hcontains hbegan
  rw [Cache.contains_eq_isSome_find?, Option.isSome_iff_exists] at hcontains
  obtain ⟨value, hvalue⟩ := hcontains
  obtain rfl : event = .began key := hbegan
  cases (h.faithful _ hlater).symm.trans (hkept key value hvalue)

/-! ## Entries -/

/-- With no body under way, there is an entry for each key that a body was run for. -/
theorem exists_entries (h : Recorded [] cache history) : ∃ distinct : List K, distinct.Nodup ∧
    (∀ key, key ∈ distinct ↔ key ∈ invoked history) ∧ cache.size = distinct.length := by
  obtain ⟨stored, hnodup, hmem, hsize⟩ := cache.exists_keys
  refine ⟨stored, hnodup, fun key => ?_, hsize⟩
  rw [hmem, h.mem_invoked_iff, or_iff_left List.not_mem_nil]

theorem size_le_misses (h : Recorded [] cache history) : cache.size ≤ cache.misses := by
  obtain ⟨distinct, hnodup, hmem, hsize⟩ := h.exists_entries
  rw [hsize, h.misses_eq]
  exact (List.subperm_of_subset hnodup fun key hkey => (hmem key).mp hkey).length_le

theorem size_eq_misses_iff (h : Recorded [] cache history) :
    cache.size = cache.misses ↔ (invoked history).Nodup := by
  obtain ⟨distinct, hnodup, hmem, hsize⟩ := h.exists_entries
  have hsubperm : distinct.Subperm (invoked history) :=
    List.subperm_of_subset hnodup fun key hkey => (hmem key).mp hkey
  rw [hsize, h.misses_eq]
  constructor
  · intro hlength
    exact (hsubperm.perm_of_length_le (Nat.le_of_eq hlength.symm)).nodup hnodup
  · intro hinvoked
    exact ((List.perm_ext_iff_of_nodup hnodup hinvoked).mpr hmem).length_eq

end Recorded

/-- **The first result for a key is kept, and every call returns it.** Whatever
the function does, from a fresh cache on: no stored value is ever lost or
replaced, no body begins for a key that is stored, and what is stored for a key
in the end is the result of the first of its bodies to end. Every call, nested
ones too, has returned that value. The counters count the bodies that were run
and the calls, and there is an entry for each key that a body was run for, so
that entries and misses are equal if no body was run twice for one key. -/
theorem callAll_returns_first [LawfulBEq K] {body : K → σ → Routine K V σ} {fuel : Nat}
    {keys : List K} {state state' : σ} {values : List V} {cache : Cache K V}
    (hrun : callAll (call body fuel) .empty state keys = some (values, state', cache)) :
    ∃ history,
      callAll (watchedCall body fuel) .empty (state, []) keys =
        some (values, (state', history), cache) ∧
      (history.Pairwise fun earlier later => earlier.cache.KeptIn later.cache ∧
        ∀ key, earlier.cache.contains key = true → later.event ≠ .began key) ∧
      (∀ moment ∈ history, moment.Faithful ∧ moment.cache.KeptIn cache) ∧
      (∀ key, cache.find? key = firstResult? history key) ∧
      (∀ answer ∈ answers history, firstResult? history answer.1 = some answer.2) ∧
      List.Forall₂ (fun key value => (key, value) ∈ answers history) keys values ∧
      cache.stats.misses = (invoked history).length ∧
      cache.stats.hits + cache.stats.misses = (answers history).length ∧
      (∃ distinct : List K, distinct.Nodup ∧ (∀ key, key ∈ distinct ↔ key ∈ invoked history) ∧
        cache.stats.entries = distinct.length) ∧
      cache.stats.entries ≤ cache.stats.misses ∧
      (cache.stats.entries = cache.stats.misses ↔ (invoked history).Nodup) := by
  obtain ⟨history, hwatched, hrecorded, hvalues⟩ := exists_watchedCall hrun
  refine ⟨history, hwatched, hrecorded.pairwise_keptIn.and hrecorded.pairwise_ne_began,
    fun moment hmoment => ⟨hrecorded.faithful moment hmoment, hrecorded.keptIn moment hmoment⟩,
    hrecorded.find?_eq, ?_, hvalues, hrecorded.misses_eq, hrecorded.calls_eq,
    hrecorded.exists_entries, hrecorded.size_le_misses, hrecorded.size_eq_misses_iff⟩
  intro answer hanswer
  rw [← hrecorded.find?_eq, hrecorded.find?_of_mem_answers hanswer]

/-- A function that counts its runs, and calls itself for its own key until it
has run three times. Each run results in its own number. -/
def reentrant (key : Nat) (count : Nat) : Routine Nat Nat Nat :=
  if count < 2 then .call key (count + 1) fun _ state => .done count state else .done count count

/-- Three bodies for one key under way at once: the innermost one, the last to
begin, gives its result to all of them and to the later call. -/
theorem callAll_reentrant : ∃ cache history,
    callAll (call reentrant 3) .empty 0 [7, 7] = some ([2, 2], 2, cache) ∧
      callAll (watchedCall reentrant 3) .empty (0, []) [7, 7] =
        some ([2, 2], (2, history), cache) ∧
      firstResult? history 7 = some 2 ∧
      (∀ answer ∈ answers history, firstResult? history answer.1 = some answer.2) ∧
      (answers history).length = 4 ∧ (invoked history).length = 3 ∧
      cache.stats.entries = 1 ∧ ¬(invoked history).Nodup := by
  have hrun : ∃ cache, callAll (call reentrant 3) .empty 0 [7, 7] = some ([2, 2], 2, cache) ∧
      cache.find? 7 = some 2 ∧ cache.stats = ⟨1, 3, 1⟩ := by
    simp [callAll, call.eq_def, reentrant, Routine.run, Cache.find?, Cache.settle, Cache.miss,
      Cache.hit, Cache.empty, Cache.stats, Cache.size, Std.HashMap.size_insertIfNew,
      Std.HashMap.getElem_insertIfNew]
  obtain ⟨cache, hrun, hfind, hstats⟩ := hrun
  obtain ⟨history, hwatched, -, -, hfirst, hanswers, -, hmisses, hcalls, -, -, hnodup⟩ :=
    callAll_returns_first hrun
  rw [hstats] at hmisses hcalls hnodup
  refine ⟨cache, history, hrun, hwatched, hfirst 7 ▸ hfind, hanswers, hcalls.symm, hmisses.symm,
    hstats ▸ rfl, fun h => ?_⟩
  cases hnodup.mpr h

end Bindery.Memo
