import Bindery.Hierarchy.C3
import Bindery.Hierarchy.Lineage
import Bindery.NameMap

/-!
# Class hierarchies

A table of classes with several bases each. Every class gets a linearization
when it is defined: the class itself, then the merge of the linearizations of
its bases and of the base list. Questions about ancestors only read these
lists.

A class is known by its place in the table. The root is at place 0, and a
definition can only name classes that are there already, so all edges lead to
smaller places. Places that hold no class may be asked about; they have no
name, no bases and no ancestors. The table is indexed by name as well.
-/

namespace Bindery

/-- Place of a class in the table. -/
structure ClassId where
  index : Nat
deriving DecidableEq, Repr

def ClassId.root : ClassId := ⟨0⟩

instance : ToString ClassId := ⟨fun id => "ClassId(" ++ toString id.index ++ ")"⟩

structure ClassInfo where
  name : String
  /-- Direct bases, in the order of the definition. -/
  bases : List ClassId
  /-- The class and its ancestors, most specific first. -/
  mro : List ClassId
deriving DecidableEq, Repr

structure Hierarchy where
  classes : Array ClassInfo
  /-- The place of each class by its name. -/
  places : NameMap ClassId
deriving DecidableEq, Repr

/-! ## Errors of a definition -/

inductive DefineError where
  | duplicateClass (name : String)
  | unknownBase (name : String) (base : ClassId)
  /-- The base is given by its name. -/
  | duplicateBase (name base : String)
  /-- No order respects the base list and all base linearizations. -/
  | inconsistent (name : String)
  /-- The table is full. -/
  | overflow (name : String)
deriving DecidableEq, Repr

def DefineError.message : DefineError → String
  | .duplicateClass name => "class `" ++ name ++ "` is already defined"
  | .unknownBase name base =>
    "class `" ++ name ++ "` derives from unknown base " ++ toString base
  | .duplicateBase name base =>
    "class `" ++ name ++ "` lists base `" ++ base ++ "` more than once"
  | .inconsistent name =>
    "cannot linearize `" ++ name ++ "`: inconsistent base class order"
  | .overflow name => "class table overflow while defining `" ++ name ++ "`"

namespace Hierarchy

/-- Only a root, which has no base. -/
def ofRoot (name : String) : Hierarchy :=
  ⟨#[⟨name, [], [.root]⟩], NameMap.empty.insert name .root⟩

/-- Most classes a table can hold: a place is a 32-bit number. -/
def capacity : Nat := UInt32.size

/-! ## Questions -/

def size (h : Hierarchy) : Nat := h.classes.size

def get? (h : Hierarchy) (id : ClassId) : Option ClassInfo := h.classes[id.index]?

def lookup? (h : Hierarchy) (name : String) : Option ClassId := h.places.get? name

def name? (h : Hierarchy) (id : ClassId) : Option String := (h.get? id).map (·.name)

def bases (h : Hierarchy) (id : ClassId) : List ClassId := ((h.get? id).map (·.bases)).getD []

def mro (h : Hierarchy) (id : ClassId) : List ClassId := ((h.get? id).map (·.mro)).getD []

/-- Lineage of a class: the root first, the class itself last. -/
def ancestry (h : Hierarchy) (id : ClassId) : List ClassId := (h.mro id).reverse

def isSubclass (h : Hierarchy) (sub base : ClassId) : Bool := (h.mro sub).contains base

/-- Nearest class that all the given ones derive from. -/
def commonAncestor (h : Hierarchy) (ids : List ClassId) : Except AncestryError ClassId :=
  Lineage.commonAncestor (ids.map h.ancestry)

/-- Every class with its place, in the order of definition. -/
def toList (h : Hierarchy) : List (ClassId × ClassInfo) :=
  h.classes.toList.zipIdx.map fun (info, i) => (⟨i⟩, info)

/-! ## Definitions -/

/-- A class without a base in its definition derives from the root. -/
def effectiveBases : List ClassId → List ClassId
  | [] => [.root]
  | bases => bases

/-- The first base, from left to right, that is unknown or repeats one of
the bases before it. -/
def baseError? (h : Hierarchy) (name : String) (before : List ClassId) :
    List ClassId → Option DefineError
  | [] => none
  | base :: rest =>
    match h.get? base with
    | none => some (.unknownBase name base)
    | some info =>
      if before.contains base then some (.duplicateBase name info.name)
      else h.baseError? name (base :: before) rest

/-- Proper ancestors of a class with the given bases, most specific first. -/
def linearize? (h : Hierarchy) (bases : List ClassId) : Option (List ClassId) :=
  C3.merge (bases.map h.mro ++ [bases])

/-- Put a class at the end of the table. -/
def register (h : Hierarchy) (info : ClassInfo) : Hierarchy :=
  ⟨h.classes.push info, h.places.insert info.name ⟨h.size⟩⟩

/-- Define a class. The hierarchy after the attempt comes with the outcome;
a failed attempt leaves it as it was. -/
def define (h : Hierarchy) (name : String) (bases : List ClassId) :
    Except DefineError ClassId × Hierarchy :=
  if (h.lookup? name).isSome then (.error (.duplicateClass name), h)
  else
    let bases := effectiveBases bases
    match h.baseError? name [] bases with
    | some e => (.error e, h)
    | none =>
      if capacity ≤ h.size then (.error (.overflow name), h)
      else
        match h.linearize? bases with
        | none => (.error (.inconsistent name), h)
        | some ancestors =>
          let id := ⟨h.size⟩
          (.ok id, h.register ⟨name, bases, id :: ancestors⟩)

end Hierarchy

end Bindery
