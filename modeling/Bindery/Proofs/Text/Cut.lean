import Bindery.Proofs.Text.Chunk

/-!
# Where chunks meet

Chunks come in two passes: the runs of a text, and the pieces of each run. In
one pass they are what is left when the text is cut at every place that calls
for it (`chunks_eq_cutFrom`), and whether a place does so can be told from what
stands around it (`isCut`). The letters and hyphens that decide about a hyphen
are in the same run, since a space is neither.

So the chunks after a place depend on what is before it as far as cuts do
(`cutFrom_append_right`), and what is left out around a part of a text takes
away cuts and never adds one (`isCut_append`): the first chunk of a part begins
with the chunk that was there (`exists_prefix_of_cutFrom`).
-/

namespace Bindery.Text

open Bindery.Unicode

/-! ## Cuts -/

/-- Whether chunks meet between the text read so far, nearest character first,
and the text to come. -/
def isCut : List Char → List Char → Bool
  | c :: left, d :: right =>
    isSpace c != isSpace d || (c == '-' && startsWithPair left && startsWithPair (d :: right))
  | _, _ => false

/-- Put a character in front of the first piece. -/
def glue (c : Char) : List (List Char) → List (List Char)
  | [] => [[c]]
  | piece :: pieces => (c :: piece) :: pieces

/-- The pieces between the cuts. `left` holds what stands before the text,
nearest character first. -/
def cutFrom (left : List Char) : List Char → List (List Char)
  | [] => []
  | c :: right =>
    if isCut (c :: left) right then [c] :: cutFrom (c :: left) right
    else glue c (cutFrom (c :: left) right)

variable {left right text : List Char} {c : Char}

theorem glue_append {pieces : List (List Char)} (hne : pieces ≠ []) (c : Char)
    (more : List (List Char)) : glue c (pieces ++ more) = glue c pieces ++ more := by
  obtain ⟨piece, pieces, rfl⟩ := List.exists_cons_of_ne_nil hne
  rfl

theorem flatten_glue (c : Char) (pieces : List (List Char)) :
    (glue c pieces).flatten = c :: pieces.flatten := by
  cases pieces <;> rfl

theorem flatten_cutFrom (left text : List Char) : (cutFrom left text).flatten = text := by
  induction text generalizing left with
  | nil => rfl
  | cons c right ih =>
      rw [cutFrom]
      split
      · rw [List.flatten_cons, ih]
        rfl
      · rw [flatten_glue, ih]

theorem cutFrom_ne_nil (left : List Char) (hne : text ≠ []) : cutFrom left text ≠ [] := by
  intro hnil
  have hflatten := flatten_cutFrom left text
  rw [hnil] at hflatten
  exact hne hflatten.symm

/-! ## Context -/

theorem startsWithPair_append (text more : List Char) (h : startsWithPair text = true) :
    startsWithPair (text ++ more) = true := by
  match text with
  | [] | [_] => cases h
  | a :: b :: [] =>
      simp only [startsWithPair, List.head?_nil, Option.any_none, Bool.and_false, Bool.or_false,
        Bool.and_eq_true] at h
      simp [startsWithPair, h]
  | a :: b :: c :: rest => exact h

/-- More context keeps a cut. -/
theorem isCut_append (before after : List Char) (h : isCut left right = true) :
    isCut (left ++ before) (right ++ after) = true := by
  match left, right with
  | [], _ => cases h
  | _ :: _, [] => cases h
  | c :: left, d :: right =>
      simp only [isCut, List.cons_append, Bool.or_eq_true, Bool.and_eq_true] at h ⊢
      refine h.imp_right fun ⟨⟨hc, hleft⟩, hright⟩ => ⟨⟨hc, ?_⟩, ?_⟩
      · exact startsWithPair_append left before hleft
      · exact startsWithPair_append (d :: right) after hright

/-- No pair reaches across a space. -/
theorem startsWithPair_append_space (text more : List Char) :
    startsWithPair (text ++ ' ' :: more) = startsWithPair text := by
  have hspace : isLetter ' ' = false := by decide
  match text with
  | [] => cases more <;> simp [startsWithPair, hspace]
  | [a] => simp [startsWithPair, hspace]
  | [a, b] => simp [startsWithPair, hspace]
  | a :: b :: c :: rest => rfl

theorem isCut_append_space_left (hne : left ≠ []) (before right : List Char) :
    isCut (left ++ ' ' :: before) right = isCut left right := by
  obtain ⟨c, left, rfl⟩ := List.exists_cons_of_ne_nil hne
  cases right with
  | nil => rfl
  | cons d right => simp only [isCut, List.cons_append, startsWithPair_append_space]

theorem isCut_append_space_right (hne : right ≠ []) (left after : List Char) :
    isCut left (right ++ ' ' :: after) = isCut left right := by
  obtain ⟨d, right, rfl⟩ := List.exists_cons_of_ne_nil hne
  cases left with
  | nil => rfl
  | cons c left =>
      simp only [isCut, List.cons_append]
      rw [← List.cons_append, startsWithPair_append_space]

theorem isCut_space_of_not_isSpace (hc : isSpace c = false) (left after : List Char) :
    isCut (c :: left) (' ' :: after) = true := by
  simp only [isCut, hc]
  rfl

/-- What stands in front of a space does not matter after it. -/
theorem cutFrom_append_space_left (left before text : List Char) :
    cutFrom (left ++ ' ' :: before) text = cutFrom left text := by
  induction text generalizing left with
  | nil => rfl
  | cons c right ih =>
      rw [cutFrom, cutFrom, ← List.cons_append, ih,
        isCut_append_space_left (List.cons_ne_nil c left)]

/-- A space ends the chunk before it. -/
theorem cutFrom_append_space (left after : List Char) (h : ∀ c ∈ text.getLast?, isSpace c = false) :
    cutFrom left (text ++ ' ' :: after) =
      cutFrom left text ++ cutFrom (text.reverse ++ left) (' ' :: after) := by
  induction text generalizing left with
  | nil => rfl
  | cons c right ih =>
      cases right with
      | nil =>
          have hcut := isCut_space_of_not_isSpace (h c rfl) left after
          rw [List.singleton_append, cutFrom, if_pos hcut]
          rfl
      | cons d right =>
          rw [List.getLast?_cons_cons] at h
          have hne := cutFrom_ne_nil (c :: left) (List.cons_ne_nil d right)
          rw [List.cons_append, cutFrom, cutFrom, ih (c :: left) h,
            isCut_append_space_right (List.cons_ne_nil d right), List.reverse_cons (a := c),
            List.append_assoc, List.singleton_append]
          split
          · rfl
          · exact glue_append hne c _

/-! ## Runs -/

/-- In a run without a space only the hyphens count. -/
theorem cutFrom_eq_hyphenPieces {run : List Char} (hrun : ∀ c ∈ run, isSpace c = false)
    (left : List Char) : cutFrom left run = hyphenPieces left run := by
  induction run generalizing left with
  | nil => rfl
  | cons c right ih =>
      obtain ⟨hc, hright⟩ := List.forall_mem_cons.mp hrun
      have hcut : isCut (c :: left) right =
          (c == '-' && startsWithPair left && startsWithPair right) := by
        cases right with
        | nil => simp [isCut, startsWithPair]
        | cons d right => simp [isCut, hc, hright d List.mem_cons_self]
      rw [cutFrom, hyphenPieces, hcut, ih hright]
      rfl

/-- A run of spaces is one chunk. -/
theorem cutFrom_spaces {run : List Char} (hne : run ≠ []) (hrun : ∀ c ∈ run, isSpace c = true)
    (left : List Char) (hright : ∀ c ∈ right.head?, isSpace c = false) :
    cutFrom left (run ++ right) = run :: cutFrom (run.reverse ++ left) right := by
  induction run generalizing left with
  | nil => exact absurd rfl hne
  | cons c run ih =>
      obtain ⟨hc, hmore⟩ := List.forall_mem_cons.mp hrun
      cases run with
      | nil =>
          cases right with
          | nil => rfl
          | cons d right =>
              have hcut : isCut (c :: left) (d :: right) = true := by
                simp [isCut, hc, hright d rfl]
              rw [List.singleton_append, cutFrom, if_pos hcut]
              rfl
      | cons d run =>
          have hnot : isCut (c :: left) (d :: run ++ right) = false := by
            obtain rfl := eq_space_of_isSpace hc
            simp [isCut, hc, hmore d List.mem_cons_self]
          rw [List.cons_append, cutFrom, hnot, ih (List.cons_ne_nil d run) hmore]
          simp [glue]

/-- A run without a space falls into its own pieces, between spaces. -/
theorem cutFrom_word {run : List Char} (hrun : ∀ c ∈ run, isSpace c = false)
    (hleft : ∀ c ∈ left.head?, isSpace c = true) (hright : ∀ c ∈ right.head?, isSpace c = true) :
    cutFrom left (run ++ right) = hyphenPieces [] run ++ cutFrom (run.reverse ++ left) right := by
  have hpieces : cutFrom left run = hyphenPieces [] run := by
    rw [← cutFrom_eq_hyphenPieces hrun]
    cases left with
    | nil => rfl
    | cons c before =>
        obtain rfl := eq_space_of_isSpace (hleft c rfl)
        exact cutFrom_append_space_left [] before run
  rw [← hpieces]
  cases right with
  | nil => rw [List.append_nil, cutFrom, List.append_nil]
  | cons d after =>
      obtain rfl := eq_space_of_isSpace (hright d rfl)
      exact cutFrom_append_space left after fun c hc => hrun c (List.mem_of_getLast? hc)

theorem cutFrom_run {run : List Char} (hne : run ≠ []) {kind : Bool}
    (hrun : ∀ c ∈ run, isSpace c = kind) (hleft : ∀ c ∈ left.head?, isSpace c = !kind)
    (hright : ∀ c ∈ right.head?, isSpace c = !kind) :
    cutFrom left (run ++ right) = runChunks run ++ cutFrom (run.reverse ++ left) right := by
  cases kind with
  | true =>
      rw [runChunks, if_pos (List.all_eq_true.mpr hrun), cutFrom_spaces hne hrun left hright]
      rfl
  | false =>
      obtain ⟨c, more, rfl⟩ := List.exists_cons_of_ne_nil hne
      have hnot : ¬(c :: more).all isSpace = true := by
        rw [List.all_cons, hrun c List.mem_cons_self]
        exact Bool.false_ne_true
      rw [runChunks, if_neg hnot, cutFrom_word hrun hleft hright]

theorem cutFrom_runs {l : List (List Char)} (hne : [] ∉ l)
    (hsame : ∀ run ∈ l, run.IsChain fun a b => (isSpace a == isSpace b) = true)
    (hchain : l.IsChain fun a b => ∃ ha hb, (isSpace (a.getLast ha) == isSpace (b.head hb)) = false)
    (hleft : ∀ c ∈ left.head?, ∀ d ∈ l.flatten.head?, isSpace d = !isSpace c) :
    cutFrom left l.flatten = l.flatMap runChunks := by
  induction l generalizing left with
  | nil => rfl
  | cons run l ih =>
      obtain ⟨c, more, rfl⟩ : ∃ c more, run = c :: more :=
        List.exists_cons_of_ne_nil fun hnil => hne (hnil ▸ List.mem_cons_self)
      have hkind : ∀ d ∈ c :: more, isSpace d = isSpace c := by
        intro d hd
        rcases List.mem_cons.mp hd with rfl | hd
        · rfl
        · exact isSpace_eq_of_mem_run (hsame _ List.mem_cons_self) hd
      have hnext : ∀ d ∈ l.flatten.head?, isSpace d = !isSpace c := by
        intro d hd
        cases l with
        | nil => cases hd
        | cons next l =>
            obtain ⟨hrun, hnext, hdiffer⟩ := hchain.rel
            rw [List.flatten_cons, List.head?_append_of_ne_nil _ hnext,
              List.head?_eq_some_head hnext] at hd
            obtain rfl := Option.some.inj hd
            rw [hkind _ (List.getLast_mem hrun)] at hdiffer
            exact Bool.eq_not_of_ne fun heq => beq_eq_false_iff_ne.mp hdiffer heq.symm
      have hbefore : ∀ d ∈ left.head?, isSpace d = !isSpace c := fun d hd => by
        rw [hleft d hd c rfl, Bool.not_not]
      rw [List.flatten_cons, List.flatMap_cons,
        cutFrom_run (List.cons_ne_nil c more) hkind hbefore hnext]
      refine congrArg (runChunks (c :: more) ++ ·) ?_
      refine ih (fun hmem => hne (List.mem_cons_of_mem _ hmem))
        (fun run hrun => hsame run (List.mem_cons_of_mem _ hrun)) hchain.tail fun last hlast d hd => ?_
      rw [List.head?_append_of_ne_nil _ (by simp), List.head?_reverse] at hlast
      rw [hnext d hd, hkind last (List.mem_of_getLast? hlast)]

theorem chunks_eq_cutFrom (text : List Char) : chunks text = cutFrom [] text := by
  have h : cutFrom [] (runs text).flatten = _ :=
    cutFrom_runs (List.nil_notMem_splitBy _ text) (fun run => List.isChain_of_mem_splitBy)
      (List.isChain_getLast_head_splitBy (fun a b => isSpace a == isSpace b) text) nofun
  rw [flatten_runs] at h
  exact h.symm

/-! ## Parts of a text -/

/-- The later chunks are those of the later text, read behind the earlier one. -/
theorem cutFrom_append_right {front pending : List (List Char)}
    (h : cutFrom left text = front ++ pending) :
    cutFrom (front.flatten.reverse ++ left) pending.flatten = pending := by
  induction text generalizing left front with
  | nil =>
      obtain ⟨rfl, rfl⟩ := List.append_eq_nil_iff.mp h.symm
      rfl
  | cons c right ih =>
      cases front with
      | nil =>
          rw [List.nil_append] at h
          rw [← h, flatten_cutFrom]
          rfl
      | cons chunk front =>
          rw [cutFrom] at h
          split at h
          · obtain ⟨rfl, hrest⟩ := List.cons.inj h
            simpa using ih hrest
          · cases hpieces : cutFrom (c :: left) right with
            | nil =>
                rw [hpieces] at h
                obtain ⟨-, hrest⟩ := List.cons.inj h
                obtain ⟨rfl, rfl⟩ := List.append_eq_nil_iff.mp hrest.symm
                rfl
            | cons piece pieces =>
                rw [hpieces] at h
                obtain ⟨rfl, hrest⟩ := List.cons.inj h
                have hright : cutFrom (c :: left) right = (piece :: front) ++ pending :=
                  hpieces.trans (congrArg (piece :: ·) hrest)
                simpa using ih hright

theorem exists_cutFrom_cons (left : List Char) (c : Char) (right : List Char) :
    ∃ piece pieces, cutFrom left (c :: right) = (c :: piece) :: pieces := by
  rw [cutFrom]
  split
  · exact ⟨[], _, rfl⟩
  · cases cutFrom (c :: left) right with
    | nil => exact ⟨[], [], rfl⟩
    | cons piece pieces => exact ⟨piece, pieces, rfl⟩

/-- With less context the first chunk of a text can only be longer. -/
theorem exists_prefix_of_cutFrom {before after chunk : List Char} {more : List (List Char)}
    (hne : text ≠ []) (h : cutFrom (left ++ before) (text ++ after) = chunk :: more)
    (hlen : chunk.length ≤ text.length) :
    ∃ first rest, cutFrom left text = first :: rest ∧ chunk <+: first := by
  induction text generalizing left chunk more with
  | nil => exact absurd rfl hne
  | cons c right ih =>
      obtain ⟨first, rest, hfirst⟩ := exists_cutFrom_cons left c right
      obtain ⟨piece, pieces, hwhole⟩ := exists_cutFrom_cons (left ++ before) c (right ++ after)
      obtain ⟨rfl, rfl⟩ := List.cons.inj (hwhole.symm.trans h)
      have hshort (hnil : piece = []) :
          ∃ first rest, cutFrom left (c :: right) = first :: rest ∧ c :: piece <+: first :=
        ⟨c :: first, rest, hfirst, hnil ▸ List.prefix_append [c] first⟩
      cases right with
      | nil =>
          exact hshort (List.length_eq_zero_iff.mp (Nat.le_zero.mp (Nat.le_of_succ_le_succ hlen)))
      | cons d right =>
          rw [List.cons_append, cutFrom] at h
          split at h
          · exact hshort (List.cons.inj (List.cons.inj h).1).2.symm
          · next hcut =>
            have hnot : ¬isCut (c :: left) (d :: right) = true := fun hpart =>
              hcut (isCut_append before after hpart)
            obtain ⟨chunk, more, hmore⟩ : ∃ chunk more,
                cutFrom (c :: left ++ before) (d :: right ++ after) = chunk :: more :=
              List.exists_cons_of_ne_nil (cutFrom_ne_nil _ (List.cons_ne_nil d _))
            rw [← List.cons_append, hmore] at h
            obtain ⟨hpiece, -⟩ := List.cons.inj h
            obtain ⟨-, rfl⟩ := List.cons.inj hpiece
            obtain ⟨longer, later, hlonger, hpre⟩ :=
              ih (List.cons_ne_nil d right) hmore (Nat.le_of_succ_le_succ hlen)
            exact ⟨c :: longer, later, by rw [cutFrom, if_neg hnot, hlonger]; rfl,
              List.cons_prefix_cons.mpr ⟨rfl, hpre⟩⟩

/-- A single space between two solid ends is a chunk. -/
theorem chunks_append_space {after : List Char} (hend : ∀ c ∈ text.getLast?, isSpace c = false)
    (hstart : ∀ c ∈ after.head?, isSpace c = false) :
    chunks (text ++ ' ' :: after) = chunks text ++ [' '] :: chunks after := by
  have hblank : ∀ c ∈ [' '], isSpace c = true := List.forall_mem_singleton.mpr rfl
  have hspace := cutFrom_spaces (List.cons_ne_nil ' ' []) hblank text.reverse hstart
  rw [chunks_eq_cutFrom, chunks_eq_cutFrom, chunks_eq_cutFrom, cutFrom_append_space [] after hend,
    List.append_nil, ← List.singleton_append (l := after), hspace]
  exact congrArg (cutFrom [] text ++ [' '] :: ·) (cutFrom_append_space_left [] text.reverse after)

end Bindery.Text
