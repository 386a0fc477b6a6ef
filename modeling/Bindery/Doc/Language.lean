/-!
# Languages of generated documentation

Each language has a tag and a few spellings that documentation templates ask
for.
-/

namespace Bindery.Doc

inductive Language where
  | ada
  | c
  | python
deriving DecidableEq, Repr

namespace Language

/-- Tag passed to documentation templates. -/
def name : Language → String
  | .ada => "ada"
  | .c => "c"
  | .python => "python"

/-- Spelling of the null value. -/
def nullName : Language → String
  | .ada => "null"
  | .c => "NULL"
  | .python => "None"

/-- Marker of unfinished documentation. -/
def todoMarker : Language → String
  | .ada => "???"
  | .c => "TODO:"
  | .python => "TODO:"

/-- Variables that every documentation template may use. -/
def templateVars (lang : Language) : List (String × String) :=
  [("lang", lang.name), ("null", lang.nullName), ("TODO", lang.todoMarker)]

instance : ToString Language := ⟨name⟩

end Language

end Bindery.Doc
