/-!
# Directories of files

The directory of a file, found from the path alone: nothing is looked up, and
`..` stays as it is. A relative path continues the working directory. Empty
components, between repeated slashes or after the last one, and components
`.` are dropped. Two leading slashes are a root of their own; three or more
are the same as one.
-/

namespace Bindery

inductive PathError where
  | empty
deriving DecidableEq, Repr

def PathError.message : PathError → String
  | .empty => "cannot make an empty path absolute"

/-- An absolute path: its root, and the components below it. -/
structure AbsolutePath where
  doubleRoot : Bool
  components : List (List Char)
deriving DecidableEq, Repr

namespace AbsolutePath

def isComponent (c : List Char) : Bool := c != [] && c != ['.']

/-- Components of a path, the dropped ones left out. -/
def componentsOf (path : List Char) : List (List Char) :=
  (path.splitOnP (· == '/')).filter isComponent

/-- Whether a path starts with two slashes and no third. -/
def hasDoubleRoot : List Char → Bool
  | '/' :: '/' :: rest => rest.head? != some '/'
  | _ => false

/-- Read a path that starts with a slash. -/
def ofRooted (path : List Char) : AbsolutePath := ⟨hasDoubleRoot path, componentsOf path⟩

/-- Read a path relative to a working directory, which is absolute. -/
def ofPath (cwd path : List Char) : Except PathError AbsolutePath :=
  match path with
  | [] => .error .empty
  | '/' :: _ => .ok (ofRooted path)
  | _ =>
    let base := ofRooted cwd
    .ok { base with components := base.components ++ componentsOf path }

def text (p : AbsolutePath) : List Char :=
  (if p.doubleRoot then ['/', '/'] else ['/']) ++ List.intercalate ['/'] p.components

/-- The path without its last component. A single component leaves the plain
root; a root has nothing to drop. -/
def parent (p : AbsolutePath) : AbsolutePath :=
  match p.components with
  | [] => p
  | [_] => ⟨false, []⟩
  | _ => { p with components := p.components.dropLast }

end AbsolutePath

/-- Absolute directory of a file. -/
def fileDir (cwd path : String) : Except PathError String :=
  (AbsolutePath.ofPath cwd.toList path.toList).map fun p => String.ofList p.parent.text

end Bindery
