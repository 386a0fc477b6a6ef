import Bindery.Proofs.Text.Boundary
import Bindery.Proofs.Text.ByteOffset

/-!
# Chunks by byte offsets

The chunks of a text, found in two scans over it. Each scan remembers the offset
where the current part starts and slices the part out when it is complete: runs of
spaces and of other characters first, and then each run at its hyphens. A scan
looks back at the characters before a hyphen by index.

No slice and no index of a scan fails, and what they find are the chunks
(`splitChunks?_eq`): at each character the text falls into what is behind the
current part, the part itself and what is to come, and the offset is the length of
the first.
-/

namespace Bindery.Text

open String (utf8Len)

/-! ## Hyphens of a run -/

def letterAt (run : List Char) (k : Nat) : Bool := run[k]?.any isLetter

def hyphenAt (run : List Char) (k : Nat) : Bool := run[k]?.any (· == '-')

/-- Whether a pair of letters ends right before an index. The characters before it
are looked up only where there are enough of them. -/
def pairBefore? (run : List Char) (k : Nat) : Option Bool :=
  (pure (decide (2 ≤ k)) <&&> letterAt run <$> minus? k 1 <&&> letterAt run <$> minus? k 2) <||>
  (pure (decide (3 ≤ k)) <&&> letterAt run <$> minus? k 1 <&&> hyphenAt run <$> minus? k 2 <&&>
    letterAt run <$> minus? k 3)

def pairAfter (run : List Char) (k : Nat) : Bool :=
  letterAt run (k + 1) && (letterAt run (k + 2) || (hyphenAt run (k + 2) && letterAt run (k + 3)))

/-- Pieces of a run from the index `k` on, the first of which starts at an offset
before. -/
def scanHyphens? (run : List Char) (start k : Nat) : List (Nat × Char) → Option (List (List Char))
  | [] => do return [← slice? run start (utf8Len run)]
  | (offset, c) :: rest => do
    if c != '-' then scanHyphens? run start (k + 1) rest
    else if (← pairBefore? run k) && pairAfter run k then
      let piece ← slice? run start (offset + 1)
      return piece :: (← scanHyphens? run (offset + 1) (k + 1) rest)
    else scanHyphens? run start (k + 1) rest

def runPieces? (run : List Char) (blank : Bool) : Option (List (List Char)) :=
  if blank then some [run] else scanHyphens? run 0 0 (charOffsets 0 run)

theorem some_andM_some (a b : Bool) : (some a <&&> some b) = some (a && b) := by cases a <;> rfl

theorem some_orM_some (a b : Bool) : (some a <||> some b) = some (a || b) := by cases a <;> rfl

/-- No index before the beginning is asked for. -/
theorem pairBefore?_eq (run : List Char) (k : Nat) : pairBefore? run k = some
    ((decide (2 ≤ k) && (letterAt run (k - 1) && letterAt run (k - 2))) ||
      (decide (3 ≤ k) && (letterAt run (k - 1) && (hyphenAt run (k - 2) && letterAt run (k - 3))))) := by
  rw [← some_orM_some]
  refine congrArg₂ (fun a b => a <||> b) ?_ ?_
  · by_cases hk : 2 ≤ k
    · rw [minus?_of_le (by omega), minus?_of_le hk, Option.map_eq_map, Option.map_some, Option.map_some,
        some_andM_some]
      exact some_andM_some _ _
    · rw [decide_eq_false hk]
      rfl
  · by_cases hk : 3 ≤ k
    · rw [minus?_of_le (by omega), minus?_of_le (by omega), minus?_of_le hk]
      simp only [Option.map_eq_map, Option.map_some, some_andM_some]
      exact some_andM_some _ _
    · rw [decide_eq_false hk]
      rfl

theorem getElem?_reverse_append (left rest : List Char) {n : Nat} (h : n < left.length) :
    (left.reverse ++ rest)[left.length - (n + 1)]? = left[n]? := by
  rw [List.getElem?_append_left (by rw [List.length_reverse]; omega), List.getElem?_reverse (by omega)]
  congr 1
  omega

theorem pairBefore?_reverse_append (left rest : List Char) :
    pairBefore? (left.reverse ++ rest) left.length = some (startsWithPair left) := by
  rw [pairBefore?_eq]
  match left with
  | [] => rfl
  | [a] => rfl
  | a :: b :: more =>
      have h1 := getElem?_reverse_append (a :: b :: more) rest (n := 0) (by simp)
      have h2 := getElem?_reverse_append (a :: b :: more) rest (n := 1) (by simp)
      simp only [letterAt, hyphenAt, h1, h2, startsWithPair]
      cases more with
      | nil => simp
      | cons c more =>
          simp [Bool.and_or_distrib_left]

theorem pairAfter_append_cons (front right : List Char) (c : Char) :
    pairAfter (front ++ c :: right) front.length = startsWithPair right := by
  have hget : ∀ n, (front ++ c :: right)[front.length + (n + 1)]? = right[n]? := fun n => by
    rw [List.getElem?_append_right (Nat.le_add_right _ _), Nat.add_sub_cancel_left, List.getElem?_cons_succ]
  simp only [pairAfter, letterAt, hyphenAt, hget]
  match right with
  | [] => rfl
  | [a] => simp [startsWithPair]
  | a :: b :: more => cases more <;> simp [startsWithPair]

/-- Characters in front of the first piece. -/
def resume (piece : List Char) : List (List Char) → List (List Char)
  | [] => [piece]
  | first :: more => (piece ++ first) :: more

theorem resume_glue (piece : List Char) (c : Char) (pieces : List (List Char)) :
    resume piece (glue c pieces) = resume (piece ++ [c]) pieces := by
  cases pieces <;> simp [resume, glue]

theorem resume_nil {pieces : List (List Char)} (hne : pieces ≠ []) : resume [] pieces = pieces := by
  obtain ⟨first, more, rfl⟩ := List.exists_cons_of_ne_nil hne
  rfl

theorem hyphenPieces_cons (left right : List Char) (c : Char) : hyphenPieces left (c :: right) =
    if c == '-' && startsWithPair left && startsWithPair right then
      [c] :: hyphenPieces (c :: left) right
    else glue c (hyphenPieces (c :: left) right) := rfl

theorem hyphenPieces_ne_nil (left : List Char) {run : List Char} (hne : run ≠ []) :
    hyphenPieces left run ≠ [] := by
  intro hnil
  have hflatten := flatten_hyphenPieces left run
  rw [hnil] at hflatten
  exact hne hflatten.symm

/-- What the scan does at a character: it goes on, or cuts behind a hyphen. -/
theorem scanHyphens?_append_cons (front right : List Char) (c : Char) (start : Nat) :
    scanHyphens? (front ++ c :: right) start front.length (charOffsets (utf8Len front) (c :: right)) =
      if c == '-' && startsWithPair front.reverse && startsWithPair right then do
        let piece ← slice? (front ++ c :: right) start (utf8Len front + 1)
        return piece :: (← scanHyphens? (front ++ c :: right) (utf8Len front + 1) (front.length + 1)
          (charOffsets (utf8Len front + c.utf8Size) right))
      else scanHyphens? (front ++ c :: right) start (front.length + 1)
        (charOffsets (utf8Len front + c.utf8Size) right) := by
  have hbefore := pairBefore?_reverse_append front.reverse (c :: right)
  rw [List.reverse_reverse, List.length_reverse] at hbefore
  rw [charOffsets, scanHyphens?, hbefore, pairAfter_append_cons, bne]
  cases c == '-' <;> rfl

/-- The scan is behind `done ++ piece`, and has found the pieces of `done`. -/
theorem scanHyphens?_eq (done piece rest : List Char) :
    scanHyphens? (done ++ piece ++ rest) (utf8Len done) (done ++ piece).length
        (charOffsets (utf8Len (done ++ piece)) rest) =
      some (resume piece (hyphenPieces (done ++ piece).reverse rest)) := by
  induction rest generalizing done piece with
  | nil =>
      rw [List.append_nil, charOffsets, scanHyphens?, slice?_suffix]
      rfl
  | cons c right ih =>
      rw [scanHyphens?_append_cons, hyphenPieces_cons]
      split
      · next hcut =>
        simp only [Bool.and_eq_true, beq_iff_eq] at hcut
        obtain ⟨⟨rfl, -⟩, hpair⟩ := hcut
        have hsize : '-'.utf8Size = 1 := rfl
        have hslice : slice? (done ++ piece ++ '-' :: right) (utf8Len done)
            (utf8Len (done ++ piece) + 1) = some (piece ++ ['-']) := by
          simpa [hsize, Nat.add_assoc] using slice?_append done (piece ++ ['-']) right
        have hright : right ≠ [] := by
          rintro rfl
          cases hpair
        have hnext : scanHyphens? (done ++ piece ++ '-' :: right) (utf8Len (done ++ piece) + 1)
            ((done ++ piece).length + 1) (charOffsets (utf8Len (done ++ piece) + 1) right) =
            some (hyphenPieces ('-' :: (done ++ piece).reverse) right) := by
          have h := ih (done ++ piece ++ ['-']) []
          rw [resume_nil (hyphenPieces_ne_nil _ hright)] at h
          simpa [hsize, Nat.add_assoc] using h
        rw [hslice, hsize, hnext]
        rfl
      · rw [resume_glue]
        simpa [Nat.add_assoc] using ih done (piece ++ [c])

theorem runPieces?_eq {run : List Char} (hne : run ≠ []) {kind : Bool}
    (hkind : ∀ c ∈ run, isSpace c = kind) : runPieces? run kind = some (runChunks run) := by
  cases kind with
  | true => rw [runPieces?, if_pos rfl, runChunks, if_pos (List.all_eq_true.mpr hkind)]
  | false =>
      have hnot : ¬run.all isSpace = true := by
        obtain ⟨c, more, rfl⟩ := List.exists_cons_of_ne_nil hne
        rw [List.all_cons, hkind c List.mem_cons_self]
        exact Bool.false_ne_true
      have hscan := scanHyphens?_eq [] [] run
      rw [List.append_nil, List.nil_append, List.reverse_nil, resume_nil (hyphenPieces_ne_nil [] hne)] at hscan
      rw [runPieces?, if_neg Bool.false_ne_true, runChunks, if_neg hnot]
      exact hscan

/-! ## Runs of a text -/

/-- Chunks from an offset on. The run that starts there is of spaces or of other
characters, if any of it has been seen. -/
def scanRuns? (text : List Char) (start : Nat) (blank : Option Bool) :
    List (Nat × Char) → Option (List (List Char))
  | [] => do
    if start < utf8Len text then
      runPieces? (← slice? text start (utf8Len text)) (blank == some true)
    else return []
  | (offset, c) :: rest => do
    if blank.any (· != isSpace c) then
      let pieces ← runPieces? (← slice? text start offset) (blank == some true)
      return pieces ++ (← scanRuns? text offset (some (isSpace c)) rest)
    else scanRuns? text start (some (isSpace c)) rest

def splitChunks? (text : List Char) : Option (List (List Char)) :=
  scanRuns? text 0 none (charOffsets 0 text)

/-- A character of the other kind ends the run before it. -/
theorem scanRuns?_of_change {text run : List Char} {start offset : Nat} {kind : Bool} {c : Char}
    {rest : List (Nat × Char)} {pieces : List (List Char)} (hslice : slice? text start offset = some run)
    (hne : run ≠ []) (hrun : ∀ d ∈ run, isSpace d = kind) (hc : isSpace c = !kind)
    (hrest : scanRuns? text offset (some !kind) rest = some pieces) :
    scanRuns? text start (some kind) ((offset, c) :: rest) = some (runChunks run ++ pieces) := by
  have hchange : (some kind).any (· != isSpace c) = true := by simp [hc]
  rw [scanRuns?, if_pos hchange, hslice, Option.some_beq_some, beq_true, hc]
  simp only [Option.bind_eq_bind, Option.bind_some]
  rw [runPieces?_eq hne hrun, hrest]
  rfl

/-- The scan is behind `done ++ run`, and has found the runs of `done`. -/
theorem scanRuns?_eq (done rest : List Char) {run : List Char} (hne : run ≠ []) {kind : Bool}
    (hrun : ∀ c ∈ run, isSpace c = kind) (hdone : ∀ c ∈ done.reverse.head?, isSpace c = !kind) :
    scanRuns? (done ++ run ++ rest) (utf8Len done) (some kind) (charOffsets (utf8Len (done ++ run)) rest) =
      some (cutFrom done.reverse (run ++ rest)) := by
  induction rest generalizing done run kind with
  | nil =>
      have hnone : ∀ c ∈ ([] : List Char).head?, isSpace c = !kind := nofun
      have hpieces := cutFrom_run hne hrun hdone hnone
      have hlt : utf8Len done < utf8Len (done ++ run) := by
        have hpos := Nat.pos_of_ne_zero (mt String.utf8Len_eq_zero.mp hne)
        rw [String.utf8Len_append]
        omega
      rw [cutFrom, List.append_nil, List.append_nil] at hpieces
      rw [List.append_nil, List.append_nil, charOffsets, scanRuns?, if_pos hlt, slice?_suffix,
        Option.some_beq_some, beq_true, hpieces]
      exact runPieces?_eq hne hrun
  | cons c right ih =>
      by_cases hc : isSpace c = kind
      · have hmore : ∀ d ∈ run ++ [c], isSpace d = kind :=
          List.forall_mem_append.mpr ⟨hrun, List.forall_mem_singleton.mpr hc⟩
        have hscan := ih done (List.concat_ne_nil c run) hmore hdone
        have hgoes : ¬(some kind).any (· != isSpace c) = true := by simp [hc]
        rw [charOffsets, scanRuns?, if_neg hgoes, hc]
        simpa [Nat.add_assoc] using hscan
      · have hflip : isSpace c = !kind := Bool.eq_not_of_ne hc
        have hnext : ∀ d ∈ (c :: right).head?, isSpace d = !kind := fun d hd => Option.some.inj hd ▸ hflip
        have hlast : ∀ d ∈ (done ++ run).reverse.head?, isSpace d = !!kind := by
          intro d hd
          rw [List.reverse_append, List.head?_append_of_ne_nil _ (by simpa using hne), List.head?_reverse] at hd
          rw [hrun d (List.mem_of_getLast? hd), Bool.not_not]
        have hscan := ih (done ++ run) (List.cons_ne_nil c []) (List.forall_mem_singleton.mpr hflip) hlast
        rw [cutFrom_run hne hrun hdone hnext, charOffsets]
        refine scanRuns?_of_change (slice?_append done run (c :: right)) hne hrun hflip ?_
        simpa [Nat.add_assoc] using hscan

/-- **The scans find the chunks**, without a fault. -/
theorem splitChunks?_eq (text : List Char) : splitChunks? text = some (chunks text) := by
  rw [chunks_eq_cutFrom]
  cases text with
  | nil => rfl
  | cons c right =>
      have hscan := scanRuns?_eq [] right (List.cons_ne_nil c []) (List.forall_mem_singleton.mpr rfl) nofun
      simpa [splitChunks?, charOffsets, scanRuns?] using hscan

end Bindery.Text
