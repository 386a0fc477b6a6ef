/-!
# Nearest common ancestor of lineages

A lineage lists the ancestors of a type, the most general one first and the
type itself last. Lineages are walked side by side as far as they agree; the
last common element is the answer.

Elements are compared by `==` alone, with the element of the first lineage on
the right.
-/

namespace Bindery

inductive AncestryError where
  /-- No lineage was given. -/
  | empty
  /-- The lineages differ from their first element on. -/
  | noCommonRoot
deriving DecidableEq, Repr

def AncestryError.message : AncestryError → String
  | .empty => "common ancestor requested for an empty set of types"
  | .noCommonRoot => "types do not share a common root ancestor"

namespace Lineage

variable {α : Type}

/-- The beginning of a lineage as far as all others agree with it. -/
def trunk [BEq α] : List α → List (List α) → List α
  | [], _ => []
  | a :: lineage, others =>
    if others.all fun other => other.head?.any (· == a) then
      a :: trunk lineage (others.map List.tail)
    else []

def commonAncestor [BEq α] : List (List α) → Except AncestryError α
  | [] => .error .empty
  | lineage :: others =>
    match (trunk lineage others).getLast? with
    | none => .error .noCommonRoot
    | some a => .ok a

end Lineage

end Bindery
