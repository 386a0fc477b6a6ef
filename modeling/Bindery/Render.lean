import Bindery.NameMap

/-!
# Template rendering

What the library asks of a template engine. Rendering is an operation in a
monad of the caller's choice: the engine may keep state, fail, or do both,
and its failures reach the caller as they are.
-/

namespace Bindery

/-- The part of a declaration that a render produces. -/
inductive Visibility where
  | publicPart
  | privatePart
deriving DecidableEq, Repr

namespace Visibility

/-- Set for the private part. -/
def isPrivate : Visibility → Bool
  | .publicPart => false
  | .privatePart => true

def word : Visibility → String
  | .publicPart => "public"
  | .privatePart => "private"

end Visibility

/-- Additional template arguments, in name order. -/
abbrev ExtraArgs := NameMap String

/-- Text of a template, for an environment, a visibility and extra
arguments. -/
abbrev Renderer (Env : Type) (m : Type → Type) :=
  String → Env → Visibility → ExtraArgs → m String

end Bindery
