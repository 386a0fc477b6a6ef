/-!
# Escaped character literals

Grammars write some characters with a backslash in front of them.
-/

namespace Bindery.Text

def dropBackslash : List Char → List Char
  | '\\' :: rest => rest
  | text => text

/-- The text without one leading backslash, if it has one. -/
def unescape (text : String) : String := String.ofList (dropBackslash text.toList)

end Bindery.Text
