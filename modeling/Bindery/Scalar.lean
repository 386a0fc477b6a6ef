/-!
# Scalars

Plain argument values: null, truth values, integers, strings, and lists of
scalars. Two scalars are equal only if they are of the same kind, and kinds
come in this order. Inside a kind `false` is before `true`, integers and
strings have their own order, and lists compare from left to right.

Equality, order and hash follow the nesting of lists, each together with its
companion on lists.
-/

namespace Bindery

inductive Scalar where
  | null
  | bool (b : Bool)
  | int (n : Int)
  | str (s : String)
  | list (items : List Scalar)

namespace Scalar

/-! ## Equality -/

mutual

def decEq : (a b : Scalar) → Decidable (a = b)
  | .null, .null => .isTrue rfl
  | .bool a, .bool b => if h : a = b then .isTrue (by rw [h]) else .isFalse (by simp [h])
  | .int a, .int b => if h : a = b then .isTrue (by rw [h]) else .isFalse (by simp [h])
  | .str a, .str b => if h : a = b then .isTrue (by rw [h]) else .isFalse (by simp [h])
  | .list as, .list bs =>
    match decEqList as bs with
    | .isTrue h => .isTrue (by rw [h])
    | .isFalse h => .isFalse (by simp [h])
  | .null, .bool _ | .null, .int _ | .null, .str _ | .null, .list _
  | .bool _, .null | .bool _, .int _ | .bool _, .str _ | .bool _, .list _
  | .int _, .null | .int _, .bool _ | .int _, .str _ | .int _, .list _
  | .str _, .null | .str _, .bool _ | .str _, .int _ | .str _, .list _
  | .list _, .null | .list _, .bool _ | .list _, .int _ | .list _, .str _ => .isFalse nofun

def decEqList : (as bs : List Scalar) → Decidable (as = bs)
  | [], [] => .isTrue rfl
  | [], _ :: _ => .isFalse nofun
  | _ :: _, [] => .isFalse nofun
  | a :: as, b :: bs =>
    match decEq a b, decEqList as bs with
    | .isTrue h, .isTrue hs => .isTrue (by rw [h, hs])
    | .isFalse h, _ => .isFalse (by simp [h])
    | .isTrue _, .isFalse hs => .isFalse (by simp [hs])

end

instance : DecidableEq Scalar := decEq

/-! ## Order -/

/-- Place of a kind among the kinds. -/
def rank : Scalar → Nat
  | .null => 0
  | .bool _ => 1
  | .int _ => 2
  | .str _ => 3
  | .list _ => 4

mutual

def cmp : Scalar → Scalar → Ordering
  | .bool a, .bool b => compare a b
  | .int a, .int b => compare a b
  | .str a, .str b => compare a b
  | .list as, .list bs => cmpList as bs
  | a, b => compare a.rank b.rank

def cmpList : List Scalar → List Scalar → Ordering
  | [], [] => .eq
  | [], _ :: _ => .lt
  | _ :: _, [] => .gt
  | a :: as, b :: bs => (cmp a b).then (cmpList as bs)

end

instance : Ord Scalar := ⟨cmp⟩

/-! ## Hash -/

mutual

def hashOf : Scalar → UInt64
  | .null => 11
  | .bool b => mixHash 13 (hash b)
  | .int n => mixHash 17 (hash n)
  | .str s => mixHash 19 (hash s)
  | .list items => mixHash 23 (hashList items)

def hashList : List Scalar → UInt64
  | [] => 7
  | a :: as => mixHash (hashOf a) (hashList as)

end

instance : Hashable Scalar := ⟨hashOf⟩

end Scalar

end Bindery
