/-!
# The C3 merge

One order that respects several given ones. The merge repeatedly takes
the first head of a row that stands in no row's tail, and strikes it from the
head of every row. It gives up when rows remain and no head can be taken.

Choosing (`nextHead?`) and striking (`strike`) are functions of their own.
A chosen element is the head of some row, so every round makes the rows
shorter in total (`length_flatten_strike_lt`).
-/

namespace Bindery.C3

variable {α : Type} [DecidableEq α]

/-- The first head that no row holds further behind. -/
def nextHead? (rows : List (List α)) : Option α :=
  (rows.filterMap List.head?).find? fun c => rows.all fun row => !row.tail.contains c

def dropHead (c : α) : List α → List α
  | [] => []
  | a :: row => if a = c then row else a :: row

/-- Strike an element from the head of every row. -/
def strike (c : α) (rows : List (List α)) : List (List α) := rows.map (dropHead c)

/-! ## Progress -/

theorem length_dropHead_le (c : α) (row : List α) : (dropHead c row).length ≤ row.length := by
  cases row with
  | nil => exact Nat.le_refl _
  | cons a row =>
    rw [dropHead]
    split
    · exact Nat.le_succ _
    · exact Nat.le_refl _

theorem length_flatten_strike_le (c : α) (rows : List (List α)) :
    (strike c rows).flatten.length ≤ rows.flatten.length := by
  induction rows with
  | nil => exact Nat.le_refl _
  | cons row rows ih =>
    have := length_dropHead_le c row
    simp only [strike, List.map_cons, List.flatten_cons, List.length_append] at ih ⊢
    omega

theorem length_flatten_strike_lt {c : α} {rows : List (List α)}
    (h : c ∈ rows.filterMap List.head?) :
    (strike c rows).flatten.length < rows.flatten.length := by
  induction rows with
  | nil => cases h
  | cons row rows ih =>
    have hrows := length_flatten_strike_le c rows
    have hrow := length_dropHead_le c row
    simp only [strike, List.map_cons, List.flatten_cons, List.length_append] at hrows ih ⊢
    obtain ⟨r, hr, hhead⟩ := List.mem_filterMap.mp h
    rcases List.mem_cons.mp hr with rfl | hr
    · cases r with
      | nil => cases hhead
      | cons a rest =>
        obtain rfl : a = c := Option.some.inj hhead
        simp only [dropHead, ↓reduceIte, List.length_cons]
        omega
    · have := ih (List.mem_filterMap.mpr ⟨r, hr, hhead⟩)
      omega

theorem mem_heads_of_nextHead? {c : α} {rows : List (List α)} (h : nextHead? rows = some c) :
    c ∈ rows.filterMap List.head? := List.mem_of_find?_eq_some h

/-! ## Merge -/

def merge (rows : List (List α)) : Option (List α) :=
  if rows.all List.isEmpty then some []
  else match _h : nextHead? rows with
    | none => none
    | some c => (merge (strike c rows)).map (c :: ·)
termination_by rows.flatten.length
decreasing_by exact length_flatten_strike_lt (mem_heads_of_nextHead? ‹_›)

end Bindery.C3
