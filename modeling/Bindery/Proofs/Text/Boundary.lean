import Bindery.Proofs.Text.Cut

/-!
# Boundaries between chunks

Where chunks meet, as a rule on the whole text (`isBoundary_chunks_iff`): next
to a space, or behind a hyphen with a pair of letters on both sides of it. A
pair may hold a hyphen of its own, so one letter can serve the pairs of several
hyphens. Runs and pieces of runs are not mentioned in the rule.
-/

namespace Bindery.Text

open Bindery.Unicode

variable {front rest text piece : List Char} {pieces : List (List Char)} {c d : Char} {n : Nat}

/-! ## Positions -/

/-- The first pieces, up to some one, take this many characters. -/
def IsBoundary (pieces : List (List Char)) (position : Nat) : Prop :=
  ∃ before after, pieces = before ++ after ∧ before.flatten.length = position

theorem isBoundary_cons_iff : IsBoundary (piece :: pieces) n ↔
    n = 0 ∨ piece.length ≤ n ∧ IsBoundary pieces (n - piece.length) := by
  constructor
  · rintro ⟨before, after, hpieces, hlen⟩
    cases before with
    | nil => exact Or.inl hlen.symm
    | cons first before =>
        obtain ⟨rfl, hmore⟩ := List.cons.inj hpieces
        rw [List.flatten_cons, List.length_append] at hlen
        exact Or.inr ⟨by omega, before, after, hmore, by omega⟩
  · rintro (rfl | ⟨hle, before, after, hmore, hlen⟩)
    · exact ⟨[], piece :: pieces, rfl, rfl⟩
    · refine ⟨piece :: before, after, congrArg (piece :: ·) hmore, ?_⟩
      rw [List.flatten_cons, List.length_append]
      omega

theorem isBoundary_singleton_cons_iff : IsBoundary ([c] :: pieces) (n + 1) ↔ IsBoundary pieces n := by
  rw [isBoundary_cons_iff]
  simp

/-- A character glued on in front moves the boundaries, the one at the beginning aside. -/
theorem isBoundary_glue_iff (hne : pieces ≠ []) (hn : n ≠ 0) :
    IsBoundary (glue c pieces) (n + 1) ↔ IsBoundary pieces n := by
  obtain ⟨piece, pieces, rfl⟩ := List.exists_cons_of_ne_nil hne
  rw [glue, isBoundary_cons_iff, isBoundary_cons_iff]
  simp [hn]

/-- The boundaries are the cuts. -/
theorem isBoundary_cutFrom_iff (left : List Char) (hfront : front ≠ []) (hrest : rest ≠ []) :
    IsBoundary (cutFrom left (front ++ rest)) front.length ↔
      isCut (front.reverse ++ left) rest = true := by
  induction front generalizing left with
  | nil => exact absurd rfl hfront
  | cons c front ih =>
      rw [List.cons_append, cutFrom]
      cases front with
      | nil =>
          obtain ⟨d, rest, rfl⟩ := List.exists_cons_of_ne_nil hrest
          obtain ⟨piece, pieces, hpieces⟩ := exists_cutFrom_cons (c :: left) d rest
          show IsBoundary (if isCut (c :: left) (d :: rest) = true then _ else _) 1 ↔
            isCut (c :: left) (d :: rest) = true
          rw [List.nil_append, hpieces]
          split
          · next hcut => exact iff_of_true ⟨[[c]], _, rfl, rfl⟩ hcut
          · next hcut =>
            refine iff_of_false (fun h => ?_) hcut
            rw [glue, isBoundary_cons_iff] at h
            simp at h
      | cons d front =>
          have hne : cutFrom (c :: left) (d :: front ++ rest) ≠ [] :=
            cutFrom_ne_nil _ (List.cons_ne_nil d (front ++ rest))
          rw [List.reverse_cons, List.append_assoc, List.singleton_append,
            ← ih (c :: left) (List.cons_ne_nil d front)]
          split
          · exact isBoundary_singleton_cons_iff
          · exact isBoundary_glue_iff hne (Nat.succ_ne_zero front.length)

/-! ## Pairs of letters -/

/-- Two letters, or a letter, a hyphen and a letter. -/
inductive IsPair : List Char → Prop where
  | letters {a b} : isLetter a = true → isLetter b = true → IsPair [a, b]
  | hyphenated {a b} : isLetter a = true → isLetter b = true → IsPair [a, '-', b]

theorem IsPair.reverse {pair : List Char} (h : IsPair pair) : IsPair pair.reverse := by
  cases h with
  | letters ha hb => exact .letters hb ha
  | hyphenated ha hb => exact .hyphenated hb ha

theorem startsWithPair_iff : startsWithPair text = true ↔ ∃ pair, IsPair pair ∧ pair <+: text := by
  constructor
  · intro h
    match text with
    | [] | [_] => cases h
    | a :: b :: rest =>
        simp only [startsWithPair, Bool.and_eq_true, Bool.or_eq_true, beq_iff_eq,
          Option.any_eq_true] at h
        obtain ⟨ha, hb | ⟨rfl, c, hc, hletter⟩⟩ := h
        · exact ⟨[a, b], .letters ha hb, rest, rfl⟩
        · obtain ⟨later, rfl⟩ := List.head?_eq_some_iff.mp hc
          exact ⟨[a, '-', c], .hyphenated ha hletter, later, rfl⟩
  · rintro ⟨pair, hpair, rest, rfl⟩
    cases hpair with
    | letters ha hb => simp [startsWithPair, ha, hb]
    | hyphenated ha hb => simp [startsWithPair, ha, hb]

theorem startsWithPair_reverse_iff :
    startsWithPair text.reverse = true ↔ ∃ pair, IsPair pair ∧ pair <:+ text := by
  rw [startsWithPair_iff]
  constructor
  · rintro ⟨pair, hpair, hprefix⟩
    exact ⟨pair.reverse, hpair.reverse, List.reverse_prefix.mp (by rwa [List.reverse_reverse])⟩
  · rintro ⟨pair, hpair, hsuffix⟩
    exact ⟨pair.reverse, hpair.reverse, List.reverse_prefix.mpr hsuffix⟩

/-- A hyphen between these texts has a pair of letters right before and right after it. -/
structure Breakable (front rest : List Char) : Prop where
  before : ∃ pair, IsPair pair ∧ pair <:+ front
  after : ∃ pair, IsPair pair ∧ pair <+: rest

theorem isCut_concat_iff : isCut (front ++ [c]).reverse (d :: rest) = true ↔
    ¬(c = ' ' ↔ d = ' ') ∨ c = '-' ∧ Breakable front (d :: rest) := by
  have hspace : (isSpace c != isSpace d) = true ↔ ¬(c = ' ' ↔ d = ' ') := by
    rw [bne_iff_ne, ne_eq, Bool.eq_iff_iff, isSpace, isSpace, beq_iff_eq, beq_iff_eq]
  have hpairs : startsWithPair front.reverse = true ∧ startsWithPair (d :: rest) = true ↔
      Breakable front (d :: rest) := by
    rw [startsWithPair_reverse_iff, startsWithPair_iff]
    exact ⟨fun h => ⟨h.1, h.2⟩, fun h => ⟨h.before, h.after⟩⟩
  rw [List.reverse_concat, isCut, Bool.or_eq_true, Bool.and_eq_true, Bool.and_eq_true, hspace,
    beq_iff_eq, and_assoc, hpairs]

/-! ## Chunks -/

theorem isBoundary_chunks_iff : IsBoundary (chunks (front ++ c :: d :: rest)) (front.length + 1) ↔
    ¬(c = ' ' ↔ d = ' ') ∨ c = '-' ∧ Breakable front (d :: rest) := by
  have h := isBoundary_cutFrom_iff [] (List.concat_ne_nil c front) (List.cons_ne_nil d rest)
  rw [List.length_append, List.length_singleton, List.append_nil, List.append_assoc, List.singleton_append,
    ← chunks_eq_cutFrom] at h
  rw [h, isCut_concat_iff]

theorem ne_nil_of_mem_chunks {chunk : List Char} (h : chunk ∈ chunks text) : chunk ≠ [] := by
  obtain ⟨run, hrun, hchunk⟩ := List.mem_flatMap.mp h
  rw [runChunks] at hchunk
  split at hchunk
  · obtain rfl := List.mem_singleton.mp hchunk
    exact List.ne_nil_of_mem_splitBy hrun
  · exact ne_nil_of_mem_hyphenPieces hchunk

/-- **Chunks, by a rule on the text.** They are not empty and make up the text, and
two of them meet exactly between a space and another character, and behind a
hyphen with a pair of letters on both sides. -/
theorem chunks_meet_iff (text : List Char) :
    (∀ chunk ∈ chunks text, chunk ≠ []) ∧ (chunks text).flatten = text
    ∧ ∀ front c d rest, text = front ++ c :: d :: rest →
        (IsBoundary (chunks text) (front.length + 1) ↔
          ¬(c = ' ' ↔ d = ' ') ∨ c = '-' ∧ Breakable front (d :: rest)) := by
  refine ⟨fun chunk => ne_nil_of_mem_chunks, flatten_chunks text, ?_⟩
  rintro front c d rest rfl
  exact isBoundary_chunks_iff

/-- One letter serves two hyphens: both are breakable, and the letter is a chunk
with the hyphen behind it. -/
theorem chunks_meet_shared_letter :
    "b-".toList ∈ chunks "-aa-b-cc".toList ∧ "b-".toList ≠ []
    ∧ "-aa-b-cc".toList = "-aa".toList ++ '-' :: 'b' :: "-cc".toList
    ∧ IsBoundary (chunks "-aa-b-cc".toList) 4
    ∧ "-aa-b-cc".toList = "".toList ++ '-' :: 'a' :: "a-b-cc".toList
    ∧ ¬Breakable "".toList "aa-b-cc".toList := by
  have hmem : "b-".toList ∈ chunks "-aa-b-cc".toList := by decide +kernel
  have hmiddle : "-aa-b-cc".toList = "-aa".toList ++ '-' :: 'b' :: "-cc".toList := by decide
  have hfirst : "-aa-b-cc".toList = "".toList ++ '-' :: 'a' :: "a-b-cc".toList := by decide
  obtain ⟨hne, -, hmeet⟩ := chunks_meet_iff "-aa-b-cc".toList
  have hpairs : Breakable "-aa".toList ('b' :: "-cc".toList) :=
    ⟨⟨"aa".toList, .letters (by decide) (by decide), ['-'], rfl⟩,
      ⟨"b-c".toList, .hyphenated (by decide) (by decide), ['c'], rfl⟩⟩
  refine ⟨hmem, hne _ hmem, hmiddle, (hmeet _ _ _ _ hmiddle).mpr (Or.inr ⟨rfl, hpairs⟩), hfirst, ?_⟩
  intro hbreak
  have hcut := (hmeet _ _ _ _ hfirst).mpr (Or.inr ⟨rfl, hbreak⟩)
  have hpieces : chunks "-aa-b-cc".toList = ["-aa-".toList, "b-".toList, "cc".toList] := by
    decide +kernel
  rw [hpieces, isBoundary_cons_iff] at hcut
  simp at hcut

end Bindery.Text
