import Bindery.Hierarchy.Basic

/-!
# Predicates over a subtype relation

Filters of code generation, for any relation that says of two type handles
whether the first is the second or one of its subtypes. A class hierarchy is
such a relation.
-/

namespace Bindery

class Subtyping (S : Type) (Ty : outParam Type) where
  /-- The first type is the second one or below it. -/
  isSubtype : S → Ty → Ty → Bool

instance : Subtyping Hierarchy ClassId := ⟨Hierarchy.isSubclass⟩

/-- Values that know their type. -/
class Classified (V : Type) (Ty : outParam Type) where
  classOf : V → Ty

variable {S Ty V : Type} [Subtyping S Ty]

/-- Accepts `base` and its subtypes; an absent candidate is refused. -/
def typeCheck (types : S) (base : Ty) (candidate : Option Ty) : Bool :=
  candidate.any fun ty => Subtyping.isSubtype types ty base

/-- Accepts the values whose type is `base` or one of its subtypes. -/
def typeCheckInstance [Classified V Ty] (types : S) (base : Ty) (value : V) : Bool :=
  Subtyping.isSubtype types (Classified.classOf value) base

end Bindery
