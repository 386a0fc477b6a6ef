import Bindery.NameMap

/-!
# Call keys

The key of a memoized call: positional arguments, and arguments by name. The
named arguments form a name map, so neither the order in which they are given
nor a value that a later one replaces is visible in the key.

Keys are ordered by their positional part first. Of two equal ones the named
arguments decide, entry by entry in name order, the name of an entry before
its value.
-/

namespace Bindery

instance {α : Type} [Hashable α] : Hashable (NameMap α) := ⟨fun m => hash m.entries⟩

structure CallKey (P N : Type) where
  positional : P
  named : NameMap N
deriving DecidableEq, Hashable

namespace CallKey

variable {P N : Type}

def ofPositional (positional : P) : CallKey P N := ⟨positional, .empty⟩

/-- Add a named argument; the earlier value of the same name is replaced. -/
def withNamed (key : CallKey P N) (name : String) (value : N) : CallKey P N :=
  { key with named := key.named.insert name value }

/-- A key with its named arguments added one after the other. -/
def ofArgs (positional : P) (named : List (String × N)) : CallKey P N :=
  named.foldl (fun key arg => key.withNamed arg.1 arg.2) (ofPositional positional)

def named? (key : CallKey P N) (name : String) : Option N := key.named.get? name

/-- Named arguments in name order. -/
def namedArgs (key : CallKey P N) : List (String × N) := key.named.entries

def cmpEntry [Ord N] (a b : String × N) : Ordering :=
  (compare a.1 b.1).then (compare a.2 b.2)

instance [Ord P] [Ord N] : Ord (CallKey P N) where
  compare a b :=
    (compare a.positional b.positional).then
      (List.compareLex cmpEntry a.named.entries b.named.entries)

end CallKey

end Bindery
