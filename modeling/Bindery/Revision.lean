/-!
# Revisions of a documented entry

Entries are never changed in place. An edit makes a new version from an older
one, which stays as it is. All parts that an edit does not replace are those
of the source; in particular only a new documentation text stops being shared
with it.
-/

namespace Bindery

structure Entry where
  name : String
  field : String
  doc : String
  isPublic : Bool
deriving DecidableEq, Repr

inductive Edit where
  | name (value : String)
  | field (value : String)
  | doc (value : String)
  | toggleVisibility
  /-- Exchange name and field. -/
  | swap
  /-- Extend the name, then put the new name and a slash before the field. -/
  | append (suffix : String)
deriving DecidableEq, Repr

def Edit.apply : Edit → Entry → Entry
  | .name value, e => { e with name := value }
  | .field value, e => { e with field := value }
  | .doc value, e => { e with doc := value }
  | .toggleVisibility, e => { e with isPublic := !e.isPublic }
  | .swap, e => { e with name := e.field, field := e.name }
  | .append suffix, e =>
    let name := e.name ++ suffix
    { e with name, field := name ++ "/" ++ e.field }

/-- Whether the new version shares the documentation of its source. -/
def Edit.sharesDoc : Edit → Bool
  | .doc _ => false
  | .name _ | .field _ | .toggleVisibility | .swap | .append _ => true

/-- Versions of an entry, the oldest first. -/
abbrev History := Array Entry

/-- Add the version that an edit makes from an older one. -/
def History.revise? (h : History) (source : Nat) (edit : Edit) : Option History :=
  h[source]?.map fun e => h.push (edit.apply e)

end Bindery
